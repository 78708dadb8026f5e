import Pheromone.SchedulingRules

/-!
# Rules for invariants about calls

Calls wait for an executor, for keys, or are remembered by triggers, and
come back. What holds of all calls that enter holds of those that are kept.
-/

namespace Pheromone.CallRules

open UnorderedContainers FaultingRuns CommonNames OperationMessages ExecutorPool
open SchedulerState Scheduling SchedulerLoop SchedulingRules

/-- Calls of a kind that are forwarded together, as they are. -/
structure Passed (ok : Invocation → Prop) (call : ForwardRequest) : Prop where
  /-- There is one at least. -/
  nonempty : call.funcNames≠[]
  /-- Each is of the kind. -/
  each : List.Forall₂ (fun func args => ok ⟨call.sessionId,call.appName,func,args,call.argFlag⟩)
    call.funcNames call.funcArgsVec

theorem Passed.exists {ok : Invocation → Prop} {call : ForwardRequest} (h : Passed ok call) :
    ∃ original,ok original ∧ original.sessionId=call.sessionId ∧ original.appName=call.appName := by
  have hne := h.nonempty
  have hall := h.each
  revert hne hall
  generalize call.funcNames=names
  generalize call.funcArgsVec=argsVec
  rintro hne (_|⟨hok,-⟩)
  · exact absurd rfl hne
  · exact ⟨_,hok,rfl,rfl⟩

/-- The arguments of each of them are those of a call of the kind. -/
theorem Passed.of_mem {ok : Invocation → Prop} {call : ForwardRequest} (h : Passed ok call)
    {args : List Str} (hm : args∈call.funcArgsVec) :
    ∃ func,ok ⟨call.sessionId,call.appName,func,args,call.argFlag⟩ := by
  have hall := h.each
  revert hm hall
  generalize call.funcNames=names
  generalize call.funcArgsVec=argsVec
  intro hm hall
  induction hall with
  | nil => cases hm
  | @cons func _ _ _ hok _ ih =>
    rcases List.mem_cons.mp hm with rfl|hrest
    · exact ⟨func,hok⟩
    · exact ih hrest

/-- An invariant by which all calls are of a kind, and the requests that wait
for keys are of another. -/
structure CallInvariant (ok : Invocation → Prop) (okWaiting : InflightFuncArgs → Prop)
    (P : SchedEvent → Prop) (Q : SchedState → Prop) : Prop
    extends TableFrame P (fun a b => Q a → Q b) where
  /-- Executors begin or cease to wait for a durable write. -/
  puts : ∀ (st : SchedState) puts,Q st → Q {st with keyKsvPutMap := puts}
  requested : ∀ callId args,P (.requested callId args)
  /-- Calls of the kind are recorded. -/
  scheduled : ∀ origin call,ok call → P (.scheduled origin call)
  sent : ∀ out,(∀ coord msg,out≠.forward coord msg) → P (.sent out)
  /-- Messages with calls of the kind are recorded. -/
  forwarded : ∀ call coord msg,ok call → msg.appName=call.appName → msg.sessionId=call.sessionId →
    P (.sent (.forward coord msg))
  /-- A call of the kind that has just been recorded is forwarded. -/
  overflow : ∀ (st : SchedState) origin call args,ok call → overflowArgs call=some args →
    st.trace.getLast?=some (.scheduled origin call) → Q st → Q (st.log (.forwarding .overflow
      ⟨call.sessionId,call.appName,[call.funcName],[args],call.argFlag⟩))
  /-- Other calls of the kind are forwarded as they are. -/
  passed : ∀ (st : SchedState) site call,site≠.overflow → Passed ok call → Q st →
    Q (st.log (.forwarding site call))
  /-- Delayed calls are of the kind. -/
  delayed : ∀ st,Q st → ∀ call∈st.delayCallQueue,ok call.toInvocation
  /-- Calls of the kind may be delayed. -/
  delay : ∀ (st : SchedState) queue,(∀ call∈queue,ok call.toInvocation) → Q st →
    Q {st with delayCallQueue := queue}
  /-- Waiting requests are of their kind. -/
  waiting : ∀ st,Q st → ∀ callId,okWaiting (st.callIdInflightArgsMap.getD callId .unset)
  /-- Requests of the kind may wait. -/
  wait : ∀ (st : SchedState) callId args,okWaiting args → Q st →
    Q {st with callIdInflightArgsMap := st.callIdInflightArgsMap.set callId args}
  settle : ∀ (st : SchedState) callId,Q st →
    Q {st with callIdInflightArgsMap := st.callIdInflightArgsMap.erase callId}
  /-- Keys of a waiting request arrive. -/
  arrive : ∀ args key,okWaiting args → okWaiting {args with inflightArgs := args.inflightArgs.erase key}
  /-- A request without missing keys is a call of the kind. -/
  complete : ∀ st args,Q st → okWaiting args → ∀ u,ok ⟨args.sessionId,
    st.tables.funcAppMap.getD args.funcName [],args.funcName,(sizedArgs args.keyArgs u).1,args.argFlag⟩
  /-- Triggers note calls of the kind. -/
  noteHints : ∀ st call time,ok call → Q st → Q (noteHints call time st)
  /-- Checks for re-execution are served. -/
  rerunCheckQueue : ∀ (st : SchedState) queue,(∀ item∈queue,item∈st.rerunCheckQueue) → Q st →
    Q {st with rerunCheckQueue := queue}
  /-- What they remember is a call of the kind. -/
  rerun : ∀ st item t m,Q st → item∈st.rerunCheckQueue →
    pointerTrigger st.tables item.triggerPtr=some t → m∈t.actionForRerun item.session →
    ∀ u,Q u → ok ⟨item.session,u.tables.funcAppMap.getD m.funcName [],m.funcName,m.funcArgs,m.argFlag⟩
  keyLenMap : ∀ (st : SchedState) lens,Q st → Q {st with keyLenMap := lens}
  keyValMap : ∀ (st : SchedState) vals,Q st → Q {st with keyValMap := vals}
  /-- Executors begin or cease to wait for an object. -/
  gets : ∀ (st : SchedState) gets,Q st → Q {st with keyRemoteGetMap := gets}
  /-- An object arrives at triggers. -/
  arrivedAt : ∀ cfg st bk,Q st → Q (arrivedAt cfg st bk)

/-- An object that starts calls of the kind only. -/
structure SoundObject (ok : Invocation → Prop) (Q : SchedState → Prop) (cfg : SchedulerConfig)
    (isDataPacking : UInt8) (info : ObjectInfo) : Prop where
  direct : ∀ st st1,Q st → recordObject st isDataPacking info=.ok st1 →
    ∀ deps,directTargets st1 info.srcFunction=some deps → ∀ func∈deps.elems,
      ok ⟨info.sessionId,consultedApp st1 info.srcFunction,func,(directArgs isDataPacking info).1,
        (directArgs isDataPacking info).2⟩
  triggered : ∀ st,Q st → ∀ m∈(checkObjectArrival cfg st
      (BucketKey.ofSessionKey info.bucket info.sessionKey)).2.1,∀ u,Q u →
    ok ⟨info.sessionId,u.tables.bucketAppMap.getD
      (BucketKey.ofSessionKey info.bucket info.sessionKey).bucket [],m.funcName,m.funcArgs,m.argFlag⟩

/-- A request that becomes a call of the kind. -/
structure SoundRequest (ok : Invocation → Prop) (okWaiting : InflightFuncArgs → Prop) (appName : Str)
    (sessionId : Session) (req : FunctionRequest) : Prop where
  valued : ¬(requestArgs req).2>0 → ok ⟨sessionId,appName,req.name,(requestArgs req).1,0⟩
  /-- With keys that are all local. -/
  keyed : ∀ keys u,ok ⟨sessionId,appName,req.name,(sizedArgs keys u).1,(requestArgs req).2⟩
  /-- With keys that are missing. -/
  waiting : ∀ keys missing,okWaiting ⟨req.name,sessionId,keys,missing,(requestArgs req).2⟩

/-- What enters with a step is of the kind. -/
def Sound (ok : Invocation → Prop) (okWaiting : InflightFuncArgs → Prop) (Q : SchedState → Prop)
    (cfg : SchedulerConfig) : SchedLabel → Prop
  | .executor msg => (msg++[nulChar])[1]?=some 2 → ∀ isDataPacking info,
      objectInfo (cString msg 4)=some info → SoundObject ok Q cfg isDataPacking info
  | .update _ => False
  | .call msg => ∀ req∈msg.requests,SoundRequest ok okWaiting msg.appName msg.sessionId req
  | _ => True

theorem fetchKeys_request (cfg : SchedulerConfig) (callId : UInt32) (keys : List Str)
    (a : InflightFuncArgs) (st : SchedState) :
    ∃ keyArgs missing,(fetchKeys cfg callId keys a st).1=
      ⟨a.funcName,a.sessionId,keyArgs,missing,a.argFlag⟩ := by
  induction keys generalizing a st with
  | nil => exact ⟨_,_,rfl⟩
  | cons key keys ih =>
    rw [fetchKeys]
    dsimp only
    split
    · exact ih _ st
    · exact ih _ _

namespace CallInvariant

variable {ok : Invocation → Prop} {okWaiting : InflightFuncArgs → Prop} {P : SchedEvent → Prop}
  {Q : SchedState → Prop} {cfg : SchedulerConfig} {st : SchedState}

/-- What keeps the invariant, also at a fault, ends in it. -/
theorem ends {α : Type} {final : α → SchedState} {x : Outcome α}
    (hx : Leads (fun a b => Q a → Q b) st final x) (hst : Q st) : Ends Q final x :=
  hx.ends fun _ h => h hst

variable (h : CallInvariant ok okWaiting P Q)

include h

theorem toExecutor (executor : UInt8) (msg : Str) :
    P (.sent (.toExecutor executor msg)) := h.sent _ nofun

theorem forwardPassed {site : ForwardSite} {call : ForwardRequest} (hsite : site≠.overflow)
    (hcall : Passed ok call) (hst : Q st) : Ends Q id (forwardCallViaHelper cfg site st call) := by
  obtain ⟨original,hok,hsession,happ⟩ := hcall.exists
  refine ends (h.forwardCallViaHelper (fun coord msg hm hs => ?_) st) (h.passed st site call hsite hcall hst)
  exact h.forwarded original coord msg hok (hm.trans happ.symm) (hs.trans hsession.symm)

theorem schedule {call : Invocation} (hok : ok call) (origin : Origin) (hst : Q st) :
    Ends Q id (scheduleFuncCall cfg origin st call) := by
  have hlog : Q (st.log (.scheduled origin call)) := h.log st _ (h.scheduled origin call hok) hst
  unfold scheduleFuncCall
  dsimp only
  split
  · rename_i executor pool _
    have hpool := h.pool _ pool hlog
    have hready := h.tick _ (h.sessionClient _ call.sessionId hpool)
    exact (ends (h.sendToExecuter (h.toExecutor _ _) _) hready).bind
      fun u _ hu => h.noteHints u call _ hok hu
  · have hpool := h.pool _ (lookup st.pool call.funcName) hlog
    split
    · have hclock := h.tick _ hpool
      refine h.delay _ _ (List.forall_mem_append.mpr ⟨h.delayed _ hclock,fun c hc => ?_⟩) hclock
      rw [List.mem_singleton.mp hc]
      exact hok
    · split
      · exact hpool
      · refine (ends (leads_orFault (h.refl _) _) hpool).bind fun args hargs _ => ?_
        refine ends (h.forwardCallViaHelper (fun coord msg hm hs => ?_) _)
          (h.overflow _ origin call args hok (orFault_eq_ok hargs) List.getLast?_concat hpool)
        exact h.forwarded call coord msg hok hm hs

theorem directInvocation {appName : Str} {deps : USet Str} {isDataPacking : UInt8}
    {info : ObjectInfo}
    (hok : ∀ func∈deps.elems,ok ⟨info.sessionId,appName,func,(directArgs isDataPacking info).1,
      (directArgs isDataPacking info).2⟩) (hst : Q st) :
    Ends Q id (directInvocation cfg st appName deps isDataPacking info) := by
  have hall : ∀ (funcs : List Str) (u : SchedState),(∀ func∈funcs,func∈deps.elems) → Q u →
      Ends Q id (funcs.foldlM (scheduleDirect cfg info.sessionId appName
        (directArgs isDataPacking info)) u) := fun funcs u hsub hu =>
    ends_foldlM (fun v func hf hv => h.schedule (hok func (hsub func hf)) .direct hv) hu
  unfold SchedulerLoop.directInvocation
  dsimp only
  split
  · split
    · rename_i hmore
      refine (hall _ st (fun func hf => List.mem_of_mem_take hf) hst).bind fun u _ hu => ?_
      split
      · exact hu
      · refine h.forwardPassed (by simp) ⟨?_,?_⟩ hu
        · intro hnil
          have hlen := congrArg List.length hnil
          rw [List.length_drop,List.length_nil] at hlen
          omega
        · rw [List.forall₂_map_right_iff,List.forall₂_same]
          exact fun func hf => hok func (List.mem_of_mem_drop hf)
    · exact hall _ st (fun _ hf => hf) hst
  · split
    · rename_i hm
      exact h.schedule (hok _ (USet.mem_def.mp hm)) .direct hst
    · exact hst

theorem checkTrigger {bk : BucketKey} {sessionId : Session}
    (hok : ∀ m∈(checkObjectArrival cfg st bk).2.1,∀ u,Q u → ok ⟨sessionId,
      u.tables.bucketAppMap.getD bk.bucket [],m.funcName,m.funcArgs,m.argFlag⟩) (hst : Q st) :
    Ends Q Prod.snd (checkTrigger cfg st bk sessionId) := by
  have hargs : Q (checkObjectArrival cfg st bk).2.2 :=
    h.activeFuncMetadatas bk.bucket _ _ (h.arrivedAt cfg st bk hst)
  unfold Scheduling.checkTrigger
  refine (ends_foldlM (fun u m hm hu => ?_) hargs).bind fun u _ hu => hu
  exact h.schedule (hok m hm u hu) .trigger (h.bucketApp u bk.bucket hu)

theorem triggerCheck {isDataPacking : UInt8} {info : ObjectInfo}
    (hobject : SoundObject ok Q cfg isDataPacking info) (hst : Q st) :
    Ends Q id (triggerCheck cfg st isDataPacking info) := by
  rw [triggerCheck_eq]
  refine (h.checkTrigger (hobject.triggered st hst) hst).bind fun r _ hr => ?_
  exact h.numbers _ _ _ (h.notified (fun _ _ => h.sent _ nofun) _ isDataPacking info r.1 r.2 hr)

theorem recvEphemeral {isDataPacking : UInt8} {info : ObjectInfo}
    (hobject : SoundObject ok Q cfg isDataPacking info) (hst : Q st) :
    Ends Q id (recvEphemeral cfg st isDataPacking info) := by
  have hrec : Ends Q id (recordObject st isDataPacking info) :=
    ends (h.recordObject (fun st vals _ _ hst => h.keyLenMap _ _ (h.keyValMap st vals hst)) st
      isDataPacking) hst
  rw [recvEphemeral_eq]
  refine hrec.bind fun st1 hst1 hq => ?_
  have hread := h.consulted st1 info.srcFunction hq
  split
  · rename_i deps hdeps
    exact h.directInvocation (hobject.direct st st1 hst hst1 deps hdeps) hread
  · split
    · exact h.triggerCheck hobject hread
    · exact hread

theorem recvExecutor {msg : Str} (hmsg : Sound ok okWaiting Q cfg (.executor msg)) (hst : Q st) :
    Ends Q id (recvExecutor cfg st msg) := by
  have hkept : Leads (fun a b => Q a → Q b) st id (SchedulerLoop.recvExecutor cfg st msg) := by
    refine (h.toReadFrame.recvExecutor (fun _ _ h => h) (fun _ _ => h.sent _ nofun)
      (fun _ executorId reqId store key => ?_) (fun hk packing info hinfo => ?_)
      fun _ executorId reqId packing info => ?_).leads
    · exact (h.recvGet (fun _ _ => h.sent _ nofun) (fun _ _ => h.sent _ nofun)
        (fun _ => h.toExecutor _ _) h.gets st store key).or fun _ _ h => h
    · exact (h.recvEphemeral (hmsg hk packing info hinfo) hst).leads.or fun _ _ h => h
    · exact (h.recvPersistent h.puts (fun _ _ _ => h.sent _ nofun) st executorId reqId packing
        info).or fun _ _ h => h
  exact ends hkept hst

theorem admitRequest {appName : Str} {sessionId : Session} {req : FunctionRequest}
    (hreq : SoundRequest ok okWaiting appName sessionId req) (hst : Q st) :
    Ends Q id (admitRequest cfg appName sessionId st req) := by
  unfold SchedulerLoop.admitRequest
  dsimp only
  split
  · obtain ⟨keys,missing,hr1⟩ := fetchKeys_request cfg st.callId (requestArgs req).1
      ⟨req.name,sessionId,[],∅,(requestArgs req).2⟩ st
    have hfetch : Q (fetchKeys cfg st.callId (requestArgs req).1
        ⟨req.name,sessionId,[],∅,(requestArgs req).2⟩ st).2 :=
      h.fetchKeys (fun _ _ => h.sent _ nofun) _ _ _ st hst
    generalize fetchKeys cfg st.callId (requestArgs req).1
      ⟨req.name,sessionId,[],∅,(requestArgs req).2⟩ st=r at hr1 hfetch ⊢
    have hlog := h.log _ _ (h.requested st.callId r.1) hfetch
    split
    · exact h.schedule (hreq.keyed _ _) _ (h.sizedArgs _ _ hlog)
    · refine h.wait _ _ _ ?_ hlog
      rw [hr1]
      exact hreq.waiting keys missing
  · rename_i hflag
    exact h.schedule (hreq.valued hflag) _ hst

theorem recvCall {call : FunctionCall} (hcall : Sound ok okWaiting Q cfg (.call call)) (hst : Q st) :
    Ends Q id (recvCall cfg st call) := by
  have hopen : Q (openCall st call) :=
    h.clients _ _ (h.addresses st (call.requests.foldl cacheAddresses st.keyAddressCache) hst)
  exact ends_foldlM (fun u req hr hu =>
    (h.admitRequest (hcall req hr) hu).map fun v hv => h.numbers v _ _ hv) hopen

theorem arriveKey (key : Str) (callId : UInt32) (hst : Q st) :
    Ends Q id (arriveKey cfg key st callId) := by
  have hwaiting := h.arrive _ key (h.waiting st hst callId)
  have hset := h.wait st callId _ hwaiting hst
  unfold SchedulerLoop.arriveKey
  dsimp only
  split
  · have hfull := h.sizedArgs (st.callIdInflightArgsMap.getD callId .unset).keyArgs _ hset
    refine (h.schedule (h.complete _ _ hfull hwaiting _) _ (h.funcApp _ _ hfull)).bind
      fun u _ hu => h.settle u callId hu
  · exact hset

theorem recvDataMessage (msg : Str) (hst : Q st) : Ends Q id (recvDataMessage cfg st msg) := by
  unfold SchedulerLoop.recvDataMessage
  refine (ends (leads_orFault (h.refl st) _) hst).bind fun keyLen _ _ => ?_
  dsimp only
  split
  · refine (ends (h.answerWaiting (fun _ _ => h.toExecutor _ _) h.gets _ _)
      (h.keyLenMap _ _ (h.shm st _ hst))).bind fun u _ hu => ?_
    split
    · exact hu
    · exact (ends_foldlM (fun v callId _ hv => h.arriveKey _ callId hv) hu).bind
        fun v _ hv => h.awaited v _ hv
  · exact hst

theorem retryDelayed (avail : ℕ) (hst : Q st) : Ends Q id (retryDelayed cfg avail st) := by
  induction avail generalizing st with
  | zero => exact hst
  | succ avail ih =>
    rw [SchedulerLoop.retryDelayed]
    split
    · exact hst
    · rename_i call rest hq
      have hok := h.delayed st hst call (by rw [hq]; exact List.mem_cons_self)
      refine (h.schedule hok .delayed hst).bind fun u _ hu => ih ?_
      exact h.delay u _ (fun c hc => h.delayed u hu c (List.mem_of_mem_tail hc)) hu

theorem expireDelayed (now : ℤ) {calls : List DelayFunctionCall}
    (hcalls : ∀ call∈calls,ok call.toInvocation) (hst : Q st) :
    Ends Q id (expireDelayed cfg now calls st) := by
  induction calls generalizing st with
  | nil => exact h.delay st [] hcalls hst
  | cons call calls ih =>
    obtain ⟨hcall,hrest⟩ := List.forall_mem_cons.mp hcalls
    have hexpire : Ends Q id (expireCall cfg st call) := by
      unfold expireCall
      split
      · exact hst
      · exact h.forwardPassed (by simp) ⟨List.cons_ne_nil _ _,.cons hcall .nil⟩ hst
    rw [SchedulerLoop.expireDelayed]
    split
    · exact hexpire.bind fun u _ hu => ih hrest hu
    · exact h.delay st _ hcalls hst

theorem delayForwarding (hst : Q st) : Ends Q id (delayForwarding cfg st) := by
  unfold SchedulerLoop.delayForwarding
  split
  · exact hst
  · refine (h.retryDelayed _ hst).bind fun u _ hu => ?_
    exact h.expireDelayed _ (h.delayed u hu) (h.tick u hu)

theorem rerunCheck (reportEnd : ℤ) (fuel : ℕ) (hst : Q st) :
    Ends Q id (rerunCheck cfg reportEnd fuel st) := by
  induction fuel generalizing st with
  | zero => exact hst
  | succ fuel ih =>
    rw [SchedulerLoop.rerunCheck]
    split
    · exact hst
    · rename_i item hitem
      split
      · have hcalls : ∀ m∈((pointerTrigger st.tables item.triggerPtr).map fun t =>
            t.actionForRerun item.session).getD [],∀ u,Q u → ok ⟨item.session,
              u.tables.funcAppMap.getD m.funcName [],m.funcName,m.funcArgs,m.argFlag⟩ := by
          cases ht : pointerTrigger st.tables item.triggerPtr with
          | none => exact fun m hm => absurd hm List.not_mem_nil
          | some t => exact fun m hm => h.rerun st item t m hst (firstCheck_mem hitem) ht hm
        refine (ends_foldlM (fun u m hm hu => ?_) hst).bind fun u _ hu => ih ?_
        · exact h.schedule (hcalls m hm u hu) .rerun (h.funcApp u m.funcName hu)
        · refine h.rerunCheckQueue u _ (fun c hc => ?_) hu
          split at hc
          · cases hc
          · exact List.mem_of_mem_erase hc
      · exact hst

/-- Every step but an update, also one that faults, keeps the invariant. -/
theorem outcome {l : SchedLabel} (hl : Sound ok okWaiting Q cfg l) (hst : Q st) :
    Ends Q id (outcome cfg st l) := by
  cases l with
  | executor msg => exact h.recvExecutor hl hst
  | update msg => cases hl
  | call msg => exact h.recvCall hl hst
  | data msg => exact h.recvDataMessage msg hst
  | kvsGet key value =>
    exact ends (h.answerWaiting (fun _ _ => h.toExecutor _ _) h.gets _ _)
      (h.keyLenMap _ _ (h.shm st _ hst))
  | kvsPut key => exact ends (h.recvKvsPut (fun _ _ => h.toExecutor _ _) h.puts st key) hst
  | delay => exact h.delayForwarding hst
  | report fuel =>
    exact (h.rerunCheck _ fuel (h.tick st hst)).bind
      fun u _ hu => h.updateStatus (fun _ _ => h.sent _ nofun) u _ hu
  | write name data => exact h.shm st _ hst

end CallInvariant

end Pheromone.CallRules
