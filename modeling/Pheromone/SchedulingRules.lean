import Pheromone.FaultingRuns
import Pheromone.SchedulerLoop

/-!
# Rules for scheduling

A relation that contains the elementary changes of scheduling contains what
scheduling does, at its end and at a fault.
-/

namespace Pheromone.SchedulingRules

open UnorderedContainers FaultingRuns CommonNames TriggerPrimitives OperationMessages
open WorkerUpdates ExecutorPool SchedulerState Scheduling SchedulerLoop

/-- A relation that contains the elementary changes of scheduling, where only
events of a kind are recorded. -/
structure Frame (P : SchedEvent → Prop) (R : SchedState → SchedState → Prop) : Prop where
  refl : ∀ st,R st st
  /-- One change after the other. -/
  trans : ∀ a b c,R a b → R b c → R a c
  log : ∀ st e,P e → R st (st.log e)
  pool : ∀ (st : SchedState) (pool : Pool),R st {st with pool := pool}
  tick : ∀ st : SchedState,R st {st with tick := st.tick+1}
  ioThreadId : ∀ (st : SchedState) (id : UInt32),R st {st with ioThreadId := id}
  sessionClient : ∀ (st : SchedState) (session : Session),R st (sessionClient st session).2
  keyLen : ∀ (st : SchedState) (key : Str),R st (keyLen st key).2
  /-- The coordinator of an application is read. -/
  appCoord : ∀ (st : SchedState) (app : Str),R st {st with
    tables := {st.tables with appCoordMap := st.tables.appCoordMap.touch app ⟨[],0⟩}}

/-- What forwarding records: the request, and a message that carries its
application and its session. -/
def ForwardEvent (site : ForwardSite) (call : ForwardRequest) (e : SchedEvent) : Prop :=
  e=.forwarding site call ∨
    ∃ coord msg,e=.sent (.forward coord msg) ∧ msg.appName=call.appName ∧ msg.sessionId=call.sessionId

/-- What scheduling records after the call itself: the message to an
executor, or what forwarding the call records. -/
def CallEvent (call : Invocation) (e : SchedEvent) : Prop :=
  (∃ executor client,e=.sent (.toExecutor executor (callMessage call client))) ∨
    ∃ args,overflowArgs call=some args ∧ ForwardEvent .overflow
      ⟨call.sessionId,call.appName,[call.funcName],[args],call.argFlag⟩ e

variable {st : SchedState}

theorem leads_orFault {α : Type} {R : SchedState → SchedState → Prop} (h : R st st) (x : Option α) :
    Leads R st (fun _ => st) (orFault st x) := by
  cases x <;> exact h

theorem orFault_eq_ok {α : Type} {x : Option α} {a : α} (h : orFault st x=.ok a) : x=some a := by
  cases x with
  | none => cases h
  | some b => exact congrArg some (Except.ok.inj h)

variable {P : SchedEvent → Prop} {R E : SchedState → SchedState → Prop} {cfg : SchedulerConfig}
variable {starts : Origin → Invocation → Prop}

namespace Frame

variable (h : Frame P R)

include h

theorem sendToExecuter {executor : UInt8} {msg : Str} (hP : P (.sent (.toExecutor executor msg)))
    (st : SchedState) : Leads R st id (sendToExecuter cfg st executor msg) := by
  unfold SchedulerState.sendToExecuter
  split
  · exact h.log st _ hP
  · exact h.refl st

theorem ioThread (st : SchedState) : R st (ioThread cfg st).2 := by
  unfold SchedulerState.ioThread
  split
  · exact h.ioThreadId st _
  · exact h.refl st

theorem realDataArgs (argFlag : ℤ) (ts : List (Str×Str×Str)) (st : SchedState) :
    Leads R st Prod.snd (realDataArgs argFlag ts st) := by
  induction ts generalizing st with
  | nil => exact h.refl st
  | cons t ts ih =>
    rw [Scheduling.realDataArgs]
    refine Leads.after h.trans (h.keyLen st (tripleName t)) ?_
    refine (leads_orFault (h.refl _) _).bind h.trans fun data _ => ?_
    exact (ih _).bind h.trans fun tail _ => h.refl _

theorem realDataArgsVec (argFlag : ℤ) (tss : List (List (Str×Str×Str))) (st : SchedState) :
    Leads R st Prod.snd (realDataArgsVec argFlag tss st) := by
  induction tss generalizing st with
  | nil => exact h.refl st
  | cons ts tss ih =>
    rw [Scheduling.realDataArgsVec]
    refine (h.realDataArgs argFlag ts st).bind h.trans fun head _ => ?_
    exact (ih _).bind h.trans fun tail _ => h.refl _

theorem keyedArguments (argFlag : ℤ) (ts : List (Str×Str×Str)) (st : SchedState) :
    R st (keyedArguments cfg argFlag ts st).2 := by
  induction ts generalizing st with
  | nil => exact h.refl st
  | cons t ts ih =>
    rw [Scheduling.keyedArguments]
    exact h.trans _ _ _ (h.ioThreadId st _) (ih _)

theorem forwardArguments (argFlag : ℤ) (args : List Str) (st : SchedState) :
    Leads R st Prod.snd (forwardArguments cfg argFlag args st) := by
  unfold Scheduling.forwardArguments
  split
  · exact (leads_orFault (h.refl _) _).bind h.trans fun ts _ => h.keyedArguments argFlag ts st
  · exact h.refl st

theorem forwardRequests (argFlag : ℤ) (names : List Str) (argsVec : List (List Str))
    (st : SchedState) : Leads R st Prod.snd (forwardRequests cfg argFlag names argsVec st) := by
  induction names generalizing argsVec st with
  | nil => exact h.refl st
  | cons name names ih =>
    cases argsVec with
    | nil => exact h.refl st
    | cons args argsVec =>
      rw [Scheduling.forwardRequests]
      refine (h.forwardArguments argFlag args st).bind h.trans fun head _ => ?_
      exact (ih _ _).bind h.trans fun tail _ => h.refl _

variable {call : ForwardRequest}

/-- The message of a forwarded call is sent in the end. -/
theorem forwardFuncCall (hP : ∀ coord msg,msg.appName=call.appName → msg.sessionId=call.sessionId →
      P (.sent (.forward coord msg))) (respAddress : Address) (st : SchedState) :
    Leads R st id (forwardFuncCall cfg st respAddress call) := by
  unfold Scheduling.forwardFuncCall
  refine (h.forwardRequests call.argFlag call.funcNames call.funcArgsVec st).bind h.trans fun r _ => ?_
  refine h.trans _ _ _ (h.appCoord r.2 call.appName) (h.log _ _ ?_)
  exact hP _ _ rfl rfl

/-- Forwarding records the request and then only sends. -/
theorem forwardCallViaHelper {site : ForwardSite}
    (hP : ∀ coord msg,msg.appName=call.appName → msg.sessionId=call.sessionId →
      P (.sent (.forward coord msg))) (st : SchedState) :
    Leads R (st.log (.forwarding site call)) id (forwardCallViaHelper cfg site st call) := by
  have hsend : ∀ (st : SchedState) (argsVec : List (List Str)) (argFlag : ℤ),
      Leads R st id (Scheduling.forwardFuncCall cfg (SchedulerState.sessionClient st call.sessionId).2
        (SchedulerState.sessionClient st call.sessionId).1
        {call with funcArgsVec := argsVec,argFlag := argFlag}) := by
    intro st argsVec argFlag
    have hrest : Leads R (SchedulerState.sessionClient st call.sessionId).2 id
        (Scheduling.forwardFuncCall cfg (SchedulerState.sessionClient st call.sessionId).2
          (SchedulerState.sessionClient st call.sessionId).1
          {call with funcArgsVec := argsVec,argFlag := argFlag}) := by
      apply h.forwardFuncCall
      exact hP
    exact hrest.after h.trans (h.sessionClient st call.sessionId)
  unfold Scheduling.forwardCallViaHelper
  dsimp only
  split
  · refine (leads_orFault (h.refl _) _).bind h.trans fun ts _ => ?_
    refine (leads_orFault (h.refl _) _).bind h.trans fun total _ => ?_
    split
    · exact (h.realDataArgsVec call.argFlag ts _).bind h.trans fun r _ => hsend r.2 r.1 0
    · exact hsend _ call.funcArgsVec call.argFlag
  · exact hsend _ call.funcArgsVec call.argFlag

theorem forward {site : ForwardSite}
    (hP : ∀ e,ForwardEvent site call e → P e) (st : SchedState) :
    Leads R st id (Scheduling.forwardCallViaHelper cfg site st call) := by
  refine Leads.after h.trans (h.log st _ (hP _ (Or.inl rfl))) ?_
  exact h.forwardCallViaHelper (fun coord msg happ hsession =>
    hP _ (Or.inr ⟨coord,msg,rfl,happ,hsession⟩)) st

/-- Scheduling records the call; what follows are its events, a place in the
queue or notes for re-execution. -/
theorem scheduleFuncCall {call : Invocation} (hP : ∀ e,CallEvent call e → P e)
    (hdelay : ∀ (st : SchedState) time,R st {st with
      delayCallQueue := st.delayCallQueue++[⟨call,time⟩]})
    (hnote : ∀ st time,R st (noteHints call time st)) (origin : Origin) (st : SchedState) :
    Leads R (st.log (.scheduled origin call)) id (scheduleFuncCall cfg origin st call) := by
  unfold Scheduling.scheduleFuncCall
  dsimp only
  split
  · rename_i executor pool _
    refine Leads.after h.trans (h.pool _ pool) ?_
    refine Leads.after h.trans (h.sessionClient _ call.sessionId) ?_
    refine Leads.after h.trans (h.tick _) ?_
    refine (h.sendToExecuter ?_ _).bind h.trans fun st _ => hnote st _
    exact hP _ (Or.inl ⟨executor,_,rfl⟩)
  · refine Leads.after h.trans (h.pool _ (lookup st.pool call.funcName)) ?_
    split
    · exact h.trans _ _ _ (h.tick _) (hdelay _ _)
    · split
      · exact h.refl _
      · refine (leads_orFault (h.refl _) _).bind h.trans fun args hargs => ?_
        refine h.forward (fun e he => hP e (Or.inr ?_)) _
        exact ⟨args,orFault_eq_ok hargs,he⟩

theorem schedule {call : Invocation} {origin : Origin}
    (hsched : P (.scheduled origin call)) (hP : ∀ e,CallEvent call e → P e)
    (hdelay : ∀ (st : SchedState) time,R st {st with
      delayCallQueue := st.delayCallQueue++[⟨call,time⟩]})
    (hnote : ∀ st time,R st (noteHints call time st)) (st : SchedState) :
    Leads R st id (Scheduling.scheduleFuncCall cfg origin st call) :=
  (h.scheduleFuncCall hP hdelay hnote origin st).after h.trans (h.log st _ hsched)

theorem sizedArgs (names : List Str) (st : SchedState) : R st (sizedArgs names st).2 := by
  induction names generalizing st with
  | nil => exact h.refl st
  | cons name names ih => exact h.trans _ _ _ (h.keyLen st name) (ih _)

theorem activeFuncMetadata (bucket : Bucket) (argFlag : ℤ) (actions : List TriggerAction)
    (st : SchedState) : R st (activeFuncMetadata bucket argFlag actions st).2 := by
  induction actions generalizing argFlag st with
  | nil => exact h.refl st
  | cons action actions ih =>
    rw [Scheduling.activeFuncMetadata]
    dsimp only
    split
    · exact ih 0 st
    · exact h.trans _ _ _ (h.sizedArgs _ st) (ih argFlag _)

theorem activeFuncMetadatas (bucket : Bucket) (results : List (Trigger×List TriggerAction))
    (st : SchedState) : R st (activeFuncMetadatas bucket results st).2 := by
  induction results generalizing st with
  | nil => exact h.refl st
  | cons r results ih =>
    exact h.trans _ _ _ (h.activeFuncMetadata bucket (r.1.triggerOption+1) r.2 st) (ih _)

variable {key : Str}

theorem sendDataReq (hP : ∀ ioThread,P (.sent (.dataReq ioThread key))) (st : SchedState) :
    R st (sendDataReq cfg st key) :=
  h.trans _ _ _ (h.ioThread st) (h.log _ _ (hP _))

theorem getKvsAsync (hP : ∀ ioThread,P (.sent (.getKvs ioThread key))) (st : SchedState) :
    R st (getKvsAsync cfg st key) :=
  h.trans _ _ _ (h.ioThread st) (h.log _ _ (hP _))

theorem putKvsAsync {value : Str} (hP : ∀ ioThread,P (.sent (.putKvs ioThread key value)))
    (st : SchedState) :
    R st (putKvsAsync cfg st key value) := h.trans _ _ _ (h.ioThread st) (h.log _ _ (hP _))

theorem notifyPut (hP : ∀ coord req,P (.sent (.notify coord req))) (st : SchedState)
    (bk : BucketKey) (activeTriggers : List Str) (respAddress : Address) (payload : Str) :
    R st (notifyPut cfg st bk activeTriggers respAddress payload) := by
  unfold SchedulerState.notifyPut
  split
  · exact h.refl st
  · exact h.trans _ _ _ (h.ioThreadId st _) (h.log _ _ (hP _ _))

section Answers

variable {body : Str} (hP : ∀ executor reqId,P (.sent (.toExecutor executor (response reqId body))))

include hP

theorem answers (reqs : List InflightIORequest) (st : SchedState) :
    Leads R st id (reqs.foldlM (answer cfg body) st) :=
  leads_foldlM h.refl h.trans (fun st _ _ => h.sendToExecuter (hP _ _) st) st

theorem answerWaiting (hgets : ∀ (st : SchedState) gets,R st {st with keyRemoteGetMap := gets})
    (st : SchedState) (key : Str) : Leads R st id (answerWaiting cfg st key body) :=
  (h.answers hP _ st).bind h.trans fun st _ => hgets st _

end Answers

theorem recvKvsPut (hP : ∀ executor reqId,P (.sent (.toExecutor executor (response reqId []))))
    (hputs : ∀ (st : SchedState) puts,R st {st with keyKsvPutMap := puts}) (st : SchedState)
    (key : Str) : Leads R st id (recvKvsPut cfg st key) :=
  (h.answers hP _ st).bind h.trans fun st _ => hputs st _

/-- Recording an object sets its length and may set its value. -/
theorem recordObject {info : ObjectInfo}
    (hset : ∀ (st : SchedState) vals size,
      vals=st.keyValMap ∨ vals=st.keyValMap.set info.objName info.value → R st {st with
        keyValMap := vals,keyLenMap := st.keyLenMap.set info.objName size})
    (st : SchedState) (isDataPacking : UInt8) :
    Leads R st id (recordObject st isDataPacking info) := by
  unfold SchedulerLoop.recordObject
  split
  · exact hset st _ _ (Or.inr rfl)
  · split
    · exact (leads_orFault (h.refl st) _).bind h.trans fun size _ => hset st _ _ (Or.inl rfl)
    · exact h.refl st

theorem updateStatus (hP : ∀ coord avail,P (.sent (.status coord avail))) (st : SchedState)
    (avail : ℕ) : R st (updateStatus cfg st avail) := by
  unfold SchedulerState.updateStatus
  induction cfg.routingThreads generalizing st with
  | nil => exact h.refl st
  | cons coord threads ih => exact h.trans _ _ _ (h.log st _ (hP coord avail)) (ih _)

end Frame

/-- A relation that also contains the changes of the tables that the loop
only reads or keeps for others: applications, addresses, clients and shared
memory. -/
structure ReadFrame (P : SchedEvent → Prop) (R : SchedState → SchedState → Prop) : Prop
    extends Frame P R where
  funcApp : ∀ (st : SchedState) (func : Str),R st (funcApp st func).2
  /-- What is known of an application is read. -/
  appInfo : ∀ (st : SchedState) (app : Str),R st {st with
    tables := {st.tables with appInfoMap := st.tables.appInfoMap.touch app .unset}}
  /-- The application of a bucket is read. -/
  bucketApp : ∀ (st : SchedState) (bucket : Bucket),R st {st with
    tables := {st.tables with bucketAppMap := st.tables.bucketAppMap.touch bucket []}}
  /-- Addresses of objects are remembered. -/
  addresses : ∀ (st : SchedState) cache,R st {st with keyAddressCache := cache}
  /-- Clients of sessions are remembered. -/
  clients : ∀ (st : SchedState) clients,R st {st with sessionClientAddrMap := clients}
  shm : ∀ (st : SchedState) shm,R st {st with shm := shm}

/-- What is left alone by reading tables, picking threads and assigning
executors. -/
structure Idle (st st' : SchedState) : Prop where
  trace : st'.trace=st.trace
  delayCallQueue : st'.delayCallQueue=st.delayCallQueue
  rerunCheckQueue : st'.rerunCheckQueue=st.rerunCheckQueue
  keyValMap : st'.keyValMap=st.keyValMap
  keyLenMap : ∀ key size,st.keyLenMap.find? key=some size → st'.keyLenMap.find? key=some size
  keyRemoteGetMap : st'.keyRemoteGetMap=st.keyRemoteGetMap
  keyKsvPutMap : st'.keyKsvPutMap=st.keyKsvPutMap
  numbers : st'.callId=st.callId ∧ st'.issued=st.issued
  /-- Requests that wait for keys. -/
  waiting : st'.callIdInflightArgsMap=st.callIdInflightArgsMap ∧ st'.keyCallIdMap=st.keyCallIdMap
  tick : st.tick≤ st'.tick
  /-- Triggers, and the identity of the next one. -/
  triggers : st'.tables.bucketTriggersMap=st.tables.bucketTriggersMap ∧
    st'.tables.removed=st.tables.removed ∧ st'.tables.nextId=st.tables.nextId
  hints : st'.tables.funcTriggerTimeoutMap=st.tables.funcTriggerTimeoutMap
  coords : st'.tables.bucketCoordMap=st.tables.bucketCoordMap
  /-- Applications of functions, as they are read. -/
  funcApps : ∀ func,st'.tables.funcAppMap.getD func []=st.tables.funcAppMap.getD func []
  /-- What is known of applications. -/
  appInfos : ∀ app,st'.tables.appInfoMap.getD app .unset=st.tables.appInfoMap.getD app .unset
  bucketApps : ∀ bucket,st'.tables.bucketAppMap.getD bucket []=st.tables.bucketAppMap.getD bucket []

theorem Idle.refl (st : SchedState) : Idle st st :=
  ⟨rfl,rfl,rfl,rfl,fun _ _ h => h,rfl,rfl,⟨rfl,rfl⟩,⟨rfl,rfl⟩,le_refl _,⟨rfl,rfl,rfl⟩,rfl,rfl,
    fun _ => rfl,fun _ => rfl,fun _ => rfl⟩

/-- Known objects stay known. -/
theorem Idle.contains {st st' : SchedState} (h : Idle st st') {key : Str}
    (hk : st.keyLenMap.contains key=true) : st'.keyLenMap.contains key=true := by
  obtain ⟨size,hsize⟩ := UMap.contains_eq_true_iff.mp hk
  exact UMap.contains_eq_true_iff.mpr ⟨size,h.keyLenMap key size hsize⟩

theorem idle_keyLen (st : SchedState) (key : Str) : Idle st (keyLen st key).2 := by
  refine {Idle.refl st with keyLenMap := fun other size hsize => ?_}
  show (st.keyLenMap.touch key 0).find? other=some size
  rw [UMap.find?_touch]
  split
  · rename_i he
    rw [←he,UMap.getD,hsize]
    rfl
  · exact hsize

/-- A relation that allows whatever leaves all this alone. -/
theorem ReadFrame.of_idle (hidle : ∀ st st',Idle st st' → R st st')
    (htrans : ∀ a b c,R a b → R b c → R a c) (hlog : ∀ st e,P e → R st (st.log e)) :
    ReadFrame P R where
  refl st := hidle _ _ (.refl st)
  trans := htrans
  log := hlog
  pool st _ := hidle _ _ {Idle.refl st with}
  tick st := hidle _ _ {Idle.refl st with tick := Nat.le_succ _}
  ioThreadId st _ := hidle _ _ {Idle.refl st with}
  sessionClient st _ := hidle _ _ {Idle.refl st with}
  keyLen st key := hidle _ _ (idle_keyLen st key)
  appCoord st _ := hidle _ _ {Idle.refl st with}
  funcApp st func := hidle _ _
    {Idle.refl st with funcApps := fun other => UMap.getD_touch _ func other []}
  appInfo st app := hidle _ _
    {Idle.refl st with appInfos := fun other => UMap.getD_touch _ app other _}
  bucketApp st bucket := hidle _ _
    {Idle.refl st with bucketApps := fun other => UMap.getD_touch _ bucket other []}
  addresses st _ := hidle _ _ {Idle.refl st with}
  clients st _ := hidle _ _ {Idle.refl st with}
  shm st _ := hidle _ _ {Idle.refl st with}

/-- A relation that also contains the use of numbers and the waiting for
keys. -/
structure TableFrame (P : SchedEvent → Prop) (R : SchedState → SchedState → Prop) : Prop
    extends ReadFrame P R where
  numbers : ∀ (st : SchedState) callId issued,R st {st with callId := callId,issued := issued}
  /-- Keys begin or cease to be awaited. -/
  awaited : ∀ (st : SchedState) awaited,R st {st with keyCallIdMap := awaited}

/-- A relation that contains the changes of all tables in which calls wait
or are noted, too. -/
structure LoopFrame (P : SchedEvent → Prop) (R : SchedState → SchedState → Prop) : Prop
    extends TableFrame P R where
  noteHints : ∀ (st : SchedState) (call : Invocation) (time : ℤ),R st (noteHints call time st)
  delayCallQueue : ∀ (st : SchedState) queue,R st {st with delayCallQueue := queue}
  /-- Checks for re-execution are served. -/
  rerunCheckQueue : ∀ (st : SchedState) queue,(∀ item∈queue,item∈st.rerunCheckQueue) →
    R st {st with rerunCheckQueue := queue}
  /-- Requests begin or cease to wait for keys. -/
  inflight : ∀ (st : SchedState) inflight,R st {st with callIdInflightArgsMap := inflight}

/-- Events of every step: requests, forwarded and delayed calls, and all
messages except those to executors that are not calls. -/
def Routine : SchedEvent → Prop
  | .requested _ _ => True
  | .scheduled (.request _) _ => True
  | .scheduled .delayed _ => True
  | .scheduled _ _ => False
  | .forwarding _ _ => True
  | .sent (.toExecutor _ msg) => msg.head?=some 1
  | .sent _ => True

/-- Events of scheduling and forwarding, after the record of the call. -/
def Calling : SchedEvent → Prop
  | .forwarding _ _ => True
  | .sent (.toExecutor _ msg) => msg.head?=some 1
  | .sent (.forward _ _) => True
  | _ => False

variable {e : SchedEvent}

theorem calling_of_forwardEvent {site : ForwardSite} {call : ForwardRequest}
    (h : ForwardEvent site call e) : Calling e := by
  rcases h with rfl|⟨coord,msg,rfl,-,-⟩ <;> trivial

theorem calling_of_callEvent {call : Invocation} (h : CallEvent call e) : Calling e := by
  rcases h with ⟨executor,client,rfl⟩|⟨args,-,h⟩
  · exact rfl
  · exact calling_of_forwardEvent h

theorem routine_of_calling (h : Calling e) : Routine e := by
  cases e with
  | requested _ _ => trivial
  | scheduled _ _ => cases h
  | forwarding _ _ => trivial
  | sent out =>
    cases out with
    | toExecutor _ _ => exact h
    | _ => trivial

theorem calling_of_routine (hP : ∀ e,Routine e → P e) :
    ∀ e,Calling e → P e := fun e he => hP e (routine_of_calling he)

theorem routine_request (hP : ∀ e,Routine e → P e) (cid : UInt32) (call : Invocation) :
    P (.scheduled (.request cid) call) := hP _ trivial

/-- A pointer after a call has been noted for an identity. -/
def notePointer (call : Invocation) (id : ℕ) (p : TriggerPointer) : TriggerPointer :=
  if p.id=id then {p with trigger :=
    p.trigger.notifySourceFunc ⟨call.funcName,call.funcArgs,call.argFlag⟩ call.sessionId}
  else p

theorem notifyPointer_bucket (call : Invocation) (id : ℕ) (w : WorkerTables) (bucket : Bucket) :
    (notifyPointer call id w).bucketTriggersMap.getD bucket []=
      (w.bucketTriggersMap.getD bucket []).map (notePointer call id) :=
  UMap.getD_mapVals (List.map (notePointer call id)) w.bucketTriggersMap bucket []

theorem notifyPointer_removed (call : Invocation) (id : ℕ) (w : WorkerTables) :
    (notifyPointer call id w).removed=w.removed.map (notePointer call id) := rfl

theorem notePointer_id (call : Invocation) (id : ℕ) (p : TriggerPointer) :
    (notePointer call id p).id=p.id := by
  unfold notePointer
  split <;> rfl

/-- The state in which an object has arrived at the triggers of its bucket. -/
def arrivedAt (cfg : SchedulerConfig) (st : SchedState) (bk : BucketKey) : SchedState :=
  let t := readClock cfg st
  let pointers := st.tables.bucketTriggersMap.getD bk.bucket []
  {t.2 with
    tables := {t.2.tables with
      bucketTriggersMap := t.2.tables.bucketTriggersMap.set bk.bucket
        (pointers.zipWith (fun p r => {p with trigger := r.1})
          (arrivals t.1 (pointers.map TriggerPointer.trigger) bk))}}

theorem checkObjectArrival_eq (cfg : SchedulerConfig) (st : SchedState) (bk : BucketKey) :
    checkObjectArrival cfg st bk=
      (firedNames (arrivals (cfg.clock st.tick)
        ((st.tables.bucketTriggersMap.getD bk.bucket []).map TriggerPointer.trigger) bk),
      activeFuncMetadatas bk.bucket (arrivals (cfg.clock st.tick)
        ((st.tables.bucketTriggersMap.getD bk.bucket []).map TriggerPointer.trigger) bk)
        (arrivedAt cfg st bk)) := rfl

/-- The report of an object after its check, with the triggers that have fired. -/
def notified (cfg : SchedulerConfig) (bk : BucketKey) (isDataPacking : UInt8) (info : ObjectInfo)
    (fired : List Str) (st : SchedState) : SchedState :=
  let c := SchedulerState.sessionClient st info.sessionId
  if isDataPacking=1 then notifyPut cfg c.2 bk fired c.1 info.value
  else if isDataPacking=2 then notifyPut cfg c.2 bk fired c.1 []
  else st

theorem triggerCheck_eq (cfg : SchedulerConfig) (st : SchedState) (isDataPacking : UInt8)
    (info : ObjectInfo) : triggerCheck cfg st isDataPacking info=
      checkTrigger cfg st (BucketKey.ofSessionKey info.bucket info.sessionKey) info.sessionId >>=
        fun r =>
          let st := notified cfg (BucketKey.ofSessionKey info.bucket info.sessionKey) isDataPacking
            info r.1 r.2
          .ok {st with
            callId := st.callId+UInt32.ofNat r.1.length
            issued := st.issued+r.1.length} := rfl

variable {cfg : SchedulerConfig} {st1 : SchedState}

theorem checkTrigger_none {bk : BucketKey} {names : List Str}
    (h : checkObjectArrival cfg st bk=(names,[],st1)) (sessionId : Session) :
    checkTrigger cfg st bk sessionId=.ok (names,st1) := by
  unfold checkTrigger
  rw [h]
  rfl

theorem checkTrigger_one {bk : BucketKey} {names : List Str} {m : TriggerFunctionMetadata}
    (h : checkObjectArrival cfg st bk=(names,[m],st1)) (sessionId : Session) :
    checkTrigger cfg st bk sessionId=
      (scheduleTriggered cfg bk.bucket sessionId st1 m).map fun st => (names,st) := by
  unfold checkTrigger
  rw [h]
  dsimp only
  rw [List.foldlM_cons]
  cases scheduleTriggered cfg bk.bucket sessionId st1 m <;> rfl

/-- The application whose dependencies are consulted for the objects of a
function. -/
def consultedApp (st : SchedState) (func : Str) : Str := st.tables.funcAppMap.getD func []

/-- The functions that the objects of a function start directly, if any are
known. -/
def directTargets (st : SchedState) (func : Str) : Option (USet Str) :=
  (st.tables.appInfoMap.getD (consultedApp st func) .unset).directDeps.find? func

/-- The state after they have been looked up. -/
def consulted (st : SchedState) (func : Str) : SchedState :=
  let app := SchedulerState.funcApp st func
  {app.2 with
    tables := {app.2.tables with appInfoMap := app.2.tables.appInfoMap.touch app.1 .unset}}

/-- An ephemeral object is recorded; then it starts the direct targets of its
function, or is checked, or nothing follows. -/
theorem recvEphemeral_eq (cfg : SchedulerConfig) (st : SchedState) (isDataPacking : UInt8)
    (info : ObjectInfo) : recvEphemeral cfg st isDataPacking info=
      recordObject st isDataPacking info >>= fun st =>
        match directTargets st info.srcFunction with
        | some deps => directInvocation cfg (consulted st info.srcFunction)
            (consultedApp st info.srcFunction) deps isDataPacking info
        | none => if info.bucket≠bucketNameDirectInvoc
            then triggerCheck cfg (consulted st info.srcFunction) isDataPacking info
            else .ok (consulted st info.srcFunction) := rfl

/-- An object of a function without direct targets is checked. -/
theorem recvEphemeral_check {isDataPacking : UInt8} {info : ObjectInfo}
    (hrec : recordObject st isDataPacking info=.ok st1)
    (hnone : directTargets st1 info.srcFunction=none) (hb : info.bucket≠bucketNameDirectInvoc) :
    recvEphemeral cfg st isDataPacking info=
      triggerCheck cfg (consulted st1 info.srcFunction) isDataPacking info := by
  rw [recvEphemeral_eq,hrec]
  show (match directTargets st1 info.srcFunction with
    | some deps => _
    | none => _)=_
  rw [hnone]
  exact if_pos hb

namespace ReadFrame

variable (h : ReadFrame P R)

include h

theorem consulted (st : SchedState) (func : Str) : R st (consulted st func) :=
  h.trans _ _ _ (h.funcApp st func) (h.appInfo _ _)

theorem notified (hP : ∀ coord req,P (.sent (.notify coord req))) (bk : BucketKey)
    (isDataPacking : UInt8) (info : ObjectInfo) (fired : List Str) (st : SchedState) :
    R st (notified cfg bk isDataPacking info fired st) := by
  have hput : ∀ payload,R st (SchedulerState.notifyPut cfg
      (SchedulerState.sessionClient st info.sessionId).2 bk fired
      (SchedulerState.sessionClient st info.sessionId).1 payload) := fun payload =>
    h.trans _ _ _ (h.sessionClient st info.sessionId)
      (h.notifyPut hP _ bk fired _ payload)
  unfold SchedulingRules.notified
  dsimp only
  split
  · exact hput info.value
  · split
    · exact hput []
    · exact h.refl st

theorem recvPersistent (hputs : ∀ (st : SchedState) puts,R st {st with keyKsvPutMap := puts})
    (hP : ∀ ioThread key value,P (.sent (.putKvs ioThread key value))) (st : SchedState)
    (executorId reqId isDataPacking : UInt8) (info : ObjectInfo) :
    Leads R st id (recvPersistent cfg st executorId reqId isDataPacking info) := by
  unfold SchedulerLoop.recvPersistent
  refine (leads_orFault (h.refl st) _).bind h.trans fun output _ => ?_
  have hput : R st (if isDataPacking=1 ∨ isDataPacking=2 then
      SchedulerState.putKvsAsync cfg st info.sessionKey output else st) := by
    split
    · exact h.putKvsAsync (fun _ => hP _ _ _) st
    · exact h.refl st
  exact h.trans _ _ _ hput (hputs _ _)

theorem recvOutput (hP : ∀ address msg,P (.sent (.clientResponse address msg))) (st : SchedState)
    (isDataPacking : UInt8) (info : ObjectInfo) :
    Leads R st id (recvOutput st isDataPacking info) := by
  unfold SchedulerLoop.recvOutput
  refine (leads_orFault (h.refl st) _).bind h.trans fun output _ => ?_
  refine h.trans _ _ _ (h.sessionClient st info.sessionId) ?_
  exact h.trans _ _ _ (h.funcApp _ info.srcFunction) (h.log _ _ (hP _ _))

end ReadFrame

namespace TableFrame

variable (h : TableFrame P R)

include h

theorem counted (st : SchedState) (n : ℕ) :
    R st {st with callId := st.callId+UInt32.ofNat n,issued := st.issued+n} := h.numbers st _ _

theorem fetchKeys (hP : ∀ ioThread key,P (.sent (.dataReq ioThread key))) (callId : UInt32)
    (args : List Str) (a : InflightFuncArgs) (st : SchedState) :
    R st (fetchKeys cfg callId args a st).2 := by
  induction args generalizing a st with
  | nil => exact h.refl st
  | cons arg args ih =>
    rw [SchedulerLoop.fetchKeys]
    dsimp only
    split
    · exact ih _ st
    · have hreq : R st (if st.keyCallIdMap.contains arg=true then st else
          SchedulerState.sendDataReq cfg st arg) := by
        split
        · exact h.refl st
        · exact h.sendDataReq (fun _ => hP _ _) st
      exact h.trans _ _ _ hreq (h.trans _ _ _ (h.awaited _ _) (ih _ _))

end TableFrame

/-- Messages that are not calls and not answers to executors, and requests. -/
def Aside : SchedEvent → Prop
  | .requested _ _ => True
  | .sent (.toExecutor _ _) => False
  | .sent (.forward _ _) => False
  | .sent _ => True
  | _ => False

theorem routine_of_aside (h : Aside e) : Routine e := by
  cases e with
  | requested _ _ => trivial
  | scheduled _ _ => cases h
  | forwarding _ _ => cases h
  | sent out =>
    cases out with
    | toExecutor _ _ => cases h
    | _ => trivial

/-- A relation that contains what the loop does around calls, and with them
as a whole: the scheduling of the calls that may be started, and the
forwarding of several direct targets. Another relation may hold at faults. -/
structure StartFrame (cfg : SchedulerConfig) (P : SchedEvent → Prop)
    (starts : Origin → Invocation → Prop) (R E : SchedState → SchedState → Prop) : Prop
    extends ReadFrame P R where
  /-- A fault where the relation holds. -/
  fault : ∀ a b,R a b → E a b
  /-- A fault after a part without. -/
  faultAfter : ∀ a b c,R a b → E b c → E a c
  schedule : ∀ (st : SchedState) origin call,starts origin call →
    LeadsOr R E st id (scheduleFuncCall cfg origin st call)
  batch : ∀ (st : SchedState) call,LeadsOr R E st id (forwardCallViaHelper cfg .batch st call)

/-- A relation that contains the handling of requests, too. -/
structure ServiceFrame (cfg : SchedulerConfig) (P : SchedEvent → Prop)
    (starts : Origin → Invocation → Prop) (R E : SchedState → SchedState → Prop) : Prop
    extends TableFrame P R,StartFrame cfg P starts R E where
  /-- Requests begin or cease to wait for keys. -/
  inflight : ∀ (st : SchedState) inflight,R st {st with callIdInflightArgsMap := inflight}

/-- A relation that also contains the removal of checks for re-execution. -/
structure CallFrame (cfg : SchedulerConfig) (P : SchedEvent → Prop)
    (starts : Origin → Invocation → Prop) (R E : SchedState → SchedState → Prop) : Prop
    extends ServiceFrame cfg P starts R E where
  /-- Checks for re-execution are served. -/
  rerunCheckQueue : ∀ (st : SchedState) queue,(∀ item∈queue,item∈st.rerunCheckQueue) →
    R st {st with rerunCheckQueue := queue}

namespace StartFrame

variable (h : StartFrame cfg P starts R E)

include h

section Parts

variable {α β : Type} {st : SchedState} {final : α → SchedState} {x : Outcome α}

theorem bind {final' : β → SchedState} {f : α → Outcome β} (hx : LeadsOr R E st final x)
    (hf : ∀ a,x=.ok a → LeadsOr R E (final a) final' (f a)) : LeadsOr R E st final' (x >>= f) :=
  hx.bind h.trans h.faultAfter hf

theorem after {st1 : SchedState} (hx : LeadsOr R E st1 final x) (hst : R st st1) :
    LeadsOr R E st final x := hx.after h.trans h.faultAfter hst

theorem each {l : List β} {f : SchedState → β → Outcome SchedState}
    (hf : ∀ st,∀ b∈l,LeadsOr R E st id (f st b)) (st : SchedState) :
    LeadsOr R E st id (l.foldlM f st) := leadsOr_foldlM h.refl h.trans h.faultAfter hf st

end Parts

variable {info : ObjectInfo}

theorem directInvocation {appName : Str}
    (hstart : ∀ call : Invocation,call.sessionId=info.sessionId → call.appName=appName →
      starts .direct call)
    (st : SchedState) (deps : USet Str) (isDataPacking : UInt8) :
    LeadsOr R E st id (directInvocation cfg st appName deps isDataPacking info) := by
  have hone : ∀ (st : SchedState) (func : Str),LeadsOr R E st id
      (scheduleDirect cfg info.sessionId appName (directArgs isDataPacking info) st func) :=
    fun st func => h.schedule st _ _ (hstart _ rfl rfl)
  have hall : ∀ (funcs : List Str) (st : SchedState),LeadsOr R E st id (funcs.foldlM
      (scheduleDirect cfg info.sessionId appName (directArgs isDataPacking info)) st) :=
    fun funcs => h.each fun st func _ => hone st func
  unfold SchedulerLoop.directInvocation
  dsimp only
  split
  · split
    · refine h.bind (hall _ st) fun st _ => ?_
      split
      · exact h.refl st
      · exact h.batch st _
    · exact hall _ st
  · split
    · exact hone st _
    · exact h.refl st

variable {st : SchedState}

theorem checkTrigger {bk : BucketKey}
    {sessionId : Session} (harrive : R st (arrivedAt cfg st bk))
    (hstart : ∀ call : Invocation,call.sessionId=sessionId → starts .trigger call) :
    LeadsOr R E st Prod.snd (checkTrigger cfg st bk sessionId) := by
  unfold Scheduling.checkTrigger
  rw [checkObjectArrival_eq]
  have hone : ∀ (st : SchedState) (m : TriggerFunctionMetadata),
      LeadsOr R E st id (scheduleTriggered cfg bk.bucket sessionId st m) := fun st m =>
    h.after (h.schedule _ _ _ (hstart _ rfl)) (h.bucketApp st bk.bucket)
  have hall : ∀ (ms : List TriggerFunctionMetadata) (st : SchedState) (names : List Str),
      LeadsOr R E st Prod.snd (ms.foldlM (scheduleTriggered cfg bk.bucket sessionId) st >>=
        fun st => .ok (names,st)) := fun ms st names =>
    h.bind (h.each (fun st m _ => hone st m) st) fun st _ => h.refl st
  refine h.after (hall _ _ _) (h.trans _ _ _ harrive ?_)
  exact h.activeFuncMetadatas bk.bucket _ _

/-- Checking and reporting an object uses one number per trigger that fires. -/
theorem triggerCheck (hP : ∀ coord req,P (.sent (.notify coord req)))
    (hcount : ∀ (st : SchedState) n,R st {st with
      callId := st.callId+UInt32.ofNat n,issued := st.issued+n})
    (harrive : R st (arrivedAt cfg st (BucketKey.ofSessionKey info.bucket info.sessionKey)))
    (hstart : ∀ call : Invocation,call.sessionId=info.sessionId → starts .trigger call)
    (isDataPacking : UInt8) : LeadsOr R E st id (triggerCheck cfg st isDataPacking info) := by
  rw [triggerCheck_eq]
  refine h.bind (h.checkTrigger harrive hstart) fun r _ => ?_
  exact h.trans _ _ _ (h.notified hP _ isDataPacking info r.1 r.2)
    (hcount _ _)

/-- What follows the record of an ephemeral object. -/
theorem recorded (hP : ∀ coord req,P (.sent (.notify coord req)))
    (hcount : ∀ (st : SchedState) n,R st {st with
      callId := st.callId+UInt32.ofNat n,issued := st.issued+n})
    (harrive : ∀ (st : SchedState) bk,R st (arrivedAt cfg st bk))
    (hdirect : ∀ call,starts .direct call) (htrigger : ∀ call,starts .trigger call)
    {isDataPacking : UInt8} {st1 : SchedState} (hrec : recordObject st isDataPacking info=.ok st1) :
    LeadsOr R E st1 id (recvEphemeral cfg st isDataPacking info) := by
  have htouch := h.consulted st1 info.srcFunction
  rw [recvEphemeral_eq,hrec]
  dsimp only [Bind.bind,Except.bind]
  split
  · exact h.after (h.directInvocation (fun call _ _ => hdirect call) _ _ _) htouch
  · split
    · exact h.after (h.triggerCheck hP hcount (harrive _ _) (fun call _ => htrigger call) _) htouch
    · exact htouch

theorem recvEphemeral (hP : ∀ coord req,P (.sent (.notify coord req)))
    (hcount : ∀ (st : SchedState) n,R st {st with
      callId := st.callId+UInt32.ofNat n,issued := st.issued+n})
    (harrive : ∀ (st : SchedState) bk,R st (arrivedAt cfg st bk))
    (hdirect : ∀ call,starts .direct call) (htrigger : ∀ call,starts .trigger call)
    {isDataPacking : UInt8} (hrecord : LeadsOr R E st id (recordObject st isDataPacking info)) :
    LeadsOr R E st id (recvEphemeral cfg st isDataPacking info) := by
  cases hrec : recordObject st isDataPacking info with
  | error st1 =>
    rw [hrec] at hrecord
    rw [SchedulerLoop.recvEphemeral,hrec]
    exact hrecord
  | ok st1 =>
    rw [hrec] at hrecord
    exact h.after (h.recorded hP hcount harrive hdirect htrigger hrec) hrecord

theorem retryDelayed (hstart : ∀ call,starts .delayed call)
    (hqueue : ∀ (st : SchedState) queue,R st {st with delayCallQueue := queue}) (avail : ℕ)
    (st : SchedState) : LeadsOr R E st id (retryDelayed cfg avail st) := by
  induction avail generalizing st with
  | zero => exact h.refl st
  | succ avail ih =>
    rw [SchedulerLoop.retryDelayed]
    split
    · exact h.refl st
    · refine h.bind (h.schedule st _ _ (hstart _)) fun st1 _ => ?_
      exact h.after (ih _) (hqueue st1 _)

theorem expireDelayed (hqueue : ∀ (st : SchedState) queue,R st {st with delayCallQueue := queue})
    (hexpiry : ∀ (st : SchedState) call,LeadsOr R E st id (forwardCallViaHelper cfg .expiry st call))
    (now : ℤ) (calls : List DelayFunctionCall) (st : SchedState) :
    LeadsOr R E st id (expireDelayed cfg now calls st) := by
  induction calls generalizing st with
  | nil => exact hqueue st _
  | cons call calls ih =>
    rw [SchedulerLoop.expireDelayed]
    split
    · have hcall : LeadsOr R E st id (expireCall cfg st call) := by
        unfold expireCall
        split
        · exact h.refl st
        · exact hexpiry st _
      exact h.bind hcall fun st1 _ => ih st1
    · exact hqueue st _

theorem delayForwarding (hstart : ∀ call,starts .delayed call)
    (hqueue : ∀ (st : SchedState) queue,R st {st with delayCallQueue := queue})
    (hexpiry : ∀ (st : SchedState) call,LeadsOr R E st id (forwardCallViaHelper cfg .expiry st call))
    (st : SchedState) : LeadsOr R E st id (delayForwarding cfg st) := by
  unfold SchedulerLoop.delayForwarding
  split
  · exact h.refl st
  · refine h.bind (h.retryDelayed hstart hqueue _ st) fun st1 _ => ?_
    exact h.after (h.expireDelayed hqueue hexpiry _ _ _) (h.tick st1)

variable (hchecks : ∀ (st : SchedState) queue,(∀ item∈queue,item∈st.rerunCheckQueue) →
  R st {st with rerunCheckQueue := queue})

include hchecks

theorem rerunCheck (hstart : ∀ call,starts .rerun call) (reportEnd : ℤ) (fuel : ℕ) (st : SchedState) :
    LeadsOr R E st id (rerunCheck cfg reportEnd fuel st) := by
  induction fuel generalizing st with
  | zero => exact h.fault _ _ (h.refl st)
  | succ fuel ih =>
    rw [SchedulerLoop.rerunCheck]
    split
    · exact h.refl st
    · split
      · refine h.bind (h.each (fun st m _ => ?_) st) fun st1 _ => ?_
        · exact h.after (h.schedule _ _ _ (hstart _)) (h.funcApp st m.funcName)
        · refine h.after (ih _) (hchecks st1 _ fun item hitem => ?_)
          split at hitem
          · cases hitem
          · exact List.mem_of_mem_erase hitem
      · exact h.refl st

theorem reportTimer (hP : ∀ coord avail,P (.sent (.status coord avail)))
    (hstart : ∀ call,starts .rerun call) (fuel : ℕ) (st : SchedState) : LeadsOr R E st id (reportTimer cfg fuel st) := by
  unfold SchedulerLoop.reportTimer
  refine h.after ?_ (h.tick st)
  exact h.bind (h.rerunCheck hchecks hstart _ fuel _)
    fun st1 _ => h.updateStatus hP st1 _

end StartFrame

namespace ServiceFrame

variable {st : SchedState}
variable (h : ServiceFrame cfg P starts R E)

include h

theorem admitRequest (hdata : ∀ ioThread key,P (.sent (.dataReq ioThread key)))
    (hrequested : ∀ cid args,P (.requested cid args)) (hstart : ∀ cid call,starts (.request cid) call)
    (appName : Str) (sessionId : Session) (st : SchedState) (req : FunctionRequest) :
    LeadsOr R E st id (admitRequest cfg appName sessionId st req) := by
  unfold SchedulerLoop.admitRequest
  dsimp only
  split
  · generalize hr : SchedulerLoop.fetchKeys cfg st.callId (requestArgs req).1
      ⟨req.name,sessionId,[],∅,(requestArgs req).2⟩ st=r
    have hfetch : R st r.2 := hr ▸ h.fetchKeys hdata _ _ _ st
    have hlog : R st (r.2.log (.requested st.callId r.1)) :=
      h.trans _ _ _ hfetch (h.log _ _ (hrequested _ _))
    split
    · exact h.after (h.after (h.schedule _ _ _ (hstart _ _)) (h.sizedArgs _ _)) hlog
    · exact h.trans _ _ _ hlog (h.inflight _ _)
  · exact h.schedule st _ _ (hstart _ _)

theorem recvCall (hdata : ∀ ioThread key,P (.sent (.dataReq ioThread key)))
    (hrequested : ∀ cid args,P (.requested cid args))
    (hstart : ∀ cid call,starts (.request cid) call) (st : SchedState)
    (call : FunctionCall) : LeadsOr R E st id (recvCall cfg st call) := by
  have hopen : R st (openCall st call) :=
    h.trans _ _ _ (h.addresses st (call.requests.foldl cacheAddresses st.keyAddressCache))
      (h.clients _ (st.sessionClientAddrMap.set call.sessionId call.respAddress))
  have hone : ∀ (st : SchedState) (req : FunctionRequest),
      LeadsOr R E st id (recvRequest cfg call.appName call.sessionId st req) := fun st req =>
    (h.admitRequest hdata hrequested hstart call.appName call.sessionId st req).map h.trans
      fun st _ => h.numbers st _ _
  exact h.after (h.each (fun st req _ => hone st req) _) hopen

theorem arriveKey (hstart : ∀ cid call,starts (.request cid) call)
    (key : Str) (st : SchedState) (cid : UInt32) : LeadsOr R E st id (arriveKey cfg key st cid) := by
  unfold SchedulerLoop.arriveKey
  dsimp only
  split
  · refine h.bind ?_ fun st _ => h.inflight st _
    refine h.after (h.schedule _ _ _ (hstart _ _)) ?_
    refine h.trans _ _ _ (h.trans _ _ _ (h.inflight st _) (h.sizedArgs _ _)) (h.funcApp _ _)
  · exact h.inflight st _

/-- Data arrives, given what recording it and answering executors changes. -/
theorem recvData (hstart : ∀ cid call,starts (.request cid) call)
    {key : Str} {size : UInt32}
    (hanswer : LeadsOr R E st id (answerWaiting cfg {st with
      keyLenMap := st.keyLenMap.set key size} key [size.toUInt8])) :
    LeadsOr R E st id (recvData cfg st key size) := by
  refine h.bind hanswer fun st _ => ?_
  dsimp only [id]
  split
  · exact h.refl st
  · exact h.bind (h.each (fun st cid _ => h.arriveKey hstart key st cid) st)
      fun st _ => h.awaited st _

theorem recvDataMessage (hstart : ∀ cid call,starts (.request cid) call) {msg : Str}
    (hanswer : ∀ (st : SchedState) key size,LeadsOr R E st id (answerWaiting cfg {st with
      keyLenMap := st.keyLenMap.set key size} key [size.toUInt8])) :
    LeadsOr R E st id (recvDataMessage cfg st msg) := by
  unfold SchedulerLoop.recvDataMessage
  refine h.bind ((leads_orFault (h.refl st) _).or h.fault) fun keyLen _ => ?_
  dsimp only
  split
  · exact h.after (h.recvData hstart (hanswer _ _ _)) (h.shm st _)
  · exact h.fault _ _ (h.refl st)

end ServiceFrame

namespace LoopFrame

variable (h : LoopFrame P R)

include h

theorem schedule (hP : ∀ e,Calling e → P e) {origin : Origin} {call : Invocation}
    (hsched : P (.scheduled origin call)) (st : SchedState) :
    Leads R st id (scheduleFuncCall cfg origin st call) :=
  h.toFrame.schedule hsched (fun e he => hP e (calling_of_callEvent he))
    (fun st _ => h.delayCallQueue st _) (fun st time => h.noteHints st call time) st

theorem forward (hP : ∀ e,Calling e → P e) (site : ForwardSite) (call : ForwardRequest)
    (st : SchedState) : Leads R st id (forwardCallViaHelper cfg site st call) :=
  h.toFrame.forward (fun e he => hP e (calling_of_forwardEvent he)) st

/-- A call is started where its record is allowed. -/
theorem callFrame (hP : ∀ e,Calling e → P e) :
    CallFrame cfg P (fun origin call => P (.scheduled origin call)) R R where
  toTableFrame := h.toTableFrame
  fault _ _ h := h
  faultAfter := h.trans
  schedule st _ _ hsched := (h.schedule hP hsched st).or fun _ _ h => h
  batch st call := (h.forward hP .batch call st).or fun _ _ h => h
  rerunCheckQueue := h.rerunCheckQueue
  inflight := h.inflight

variable {info : ObjectInfo}

theorem directInvocation (hP : ∀ e,Calling e → P e) {appName : Str}
    (hstart : ∀ call : Invocation,call.sessionId=info.sessionId →
      call.appName=appName → P (.scheduled .direct call)) (st : SchedState) (deps : USet Str)
    (isDataPacking : UInt8) :
    Leads R st id (directInvocation cfg st appName deps isDataPacking info) :=
  ((h.callFrame hP).directInvocation hstart st deps isDataPacking).leads

variable {st : SchedState}

theorem recvEphemeral (hP : ∀ e,Routine e → P e)
    {isDataPacking : UInt8}
    (hrecord : Leads R st id (recordObject st isDataPacking info))
    (harrive : ∀ (st : SchedState) bk,R st (arrivedAt cfg st bk))
    (hdirect : ∀ call,P (.scheduled .direct call)) (htrigger : ∀ call,P (.scheduled .trigger call)) :
    Leads R st id (recvEphemeral cfg st isDataPacking info) :=
  ((h.callFrame (calling_of_routine hP)).recvEphemeral (fun _ _ => hP _ trivial) h.counted harrive
    hdirect htrigger (hrecord.or fun _ _ h => h)).leads

theorem arriveKey (hP : ∀ e,Routine e → P e) (key : Str) (st : SchedState) (cid : UInt32) :
    Leads R st id (arriveKey cfg key st cid) :=
  ((h.callFrame (calling_of_routine hP)).arriveKey (routine_request hP) key st cid).leads

theorem delayForwarding (hP : ∀ e,Routine e → P e) (st : SchedState) :
    Leads R st id (delayForwarding cfg st) :=
  ((h.callFrame (calling_of_routine hP)).delayForwarding (fun _ => hP _ trivial) h.delayCallQueue
    (fun st call => (h.forward (calling_of_routine hP) .expiry call st).or fun _ _ h => h) st).leads

end LoopFrame

section Weaker

variable {S : SchedState → SchedState → Prop} (hS : ∀ a b,R a b → S a b)
  (htrans : ∀ a b c,S a b → S b c → S a c)

include hS htrans

theorem ReadFrame.mono (h : ReadFrame P R) : ReadFrame P S where
  refl st := hS _ _ (h.refl st)
  trans := htrans
  log st e he := hS _ _ (h.log st e he)
  pool st pool := hS _ _ (h.pool st pool)
  tick st := hS _ _ (h.tick st)
  ioThreadId st id := hS _ _ (h.ioThreadId st id)
  sessionClient st session := hS _ _ (h.sessionClient st session)
  keyLen st key := hS _ _ (h.keyLen st key)
  appCoord st app := hS _ _ (h.appCoord st app)
  funcApp st func := hS _ _ (h.funcApp st func)
  appInfo st app := hS _ _ (h.appInfo st app)
  bucketApp st bucket := hS _ _ (h.bucketApp st bucket)
  addresses st cache := hS _ _ (h.addresses st cache)
  clients st clients := hS _ _ (h.clients st clients)
  shm st shm := hS _ _ (h.shm st shm)

theorem StartFrame.mono (h : StartFrame cfg P starts R R) : StartFrame cfg P starts S S where
  toReadFrame := h.toReadFrame.mono hS htrans
  fault _ _ h := h
  faultAfter := htrans
  schedule st origin call hstart :=
    ((h.schedule st origin call hstart).leads.mono fun _ => hS _ _).or fun _ _ h => h
  batch st call := ((h.batch st call).leads.mono fun _ => hS _ _).or fun _ _ h => h

end Weaker

/-- A message of an executor asks for an object, sends one, reports a status
or is passed over; one that is too short is read past its end. -/
theorem recvExecutor_cases (cfg : SchedulerConfig) (st : SchedState) (msg : Str) :
    recvExecutor cfg st msg=.error st ∨ recvExecutor cfg st msg=.ok st ∨
      (∃ pool,recvExecutor cfg st msg=.ok {st with pool := pool}) ∨
      (∃ executorId reqId store key,(msg++[nulChar])[1]?=some 1 ∧
        recvExecutor cfg st msg=recvGet cfg st executorId reqId store key) ∨
      ∃ executorId kind reqId packing,(msg++[nulChar])[1]?=some kind ∧ 2≤kind ∧ kind≤4 ∧
        (msg++[nulChar])[3]?=some packing ∧
        recvExecutor cfg st msg=recvObject cfg st executorId kind reqId packing (cString msg 4) := by
  unfold recvExecutor
  dsimp only [orFault,bind,Except.bind]
  cases (msg++[nulChar])[0]? with
  | none => exact Or.inl rfl
  | some address =>
    cases (msg++[nulChar])[1]? with
    | none => exact Or.inl rfl
    | some kind =>
      dsimp only
      by_cases hget : kind=1
      · rw [if_pos hget]
        cases (msg++[nulChar])[2]? with
        | none => exact Or.inl rfl
        | some store =>
          cases (msg++[nulChar])[3]? with
          | none => exact Or.inl rfl
          | some reqId =>
            cases (msg++[nulChar])[4]? with
            | none => exact Or.inl rfl
            | some size =>
              dsimp only
              split
              · exact Or.inr (Or.inr (Or.inr (Or.inl ⟨_,reqId,_,_,congrArg some hget,rfl⟩)))
              · exact Or.inl rfl
      · rw [if_neg hget]
        by_cases hsend : 2≤kind ∧ kind≤4
        · rw [if_pos hsend]
          cases (msg++[nulChar])[2]? with
          | none => exact Or.inl rfl
          | some reqId =>
            cases (msg++[nulChar])[3]? with
            | none => exact Or.inl rfl
            | some packing =>
              dsimp only
              split
              · exact Or.inr (Or.inr (Or.inr (Or.inr
                  ⟨_,kind,reqId,packing,rfl,hsend.1,hsend.2,rfl,rfl⟩)))
              · exact Or.inl rfl
        · rw [if_neg hsend]
          split
          · exact Or.inr (Or.inr (Or.inl ⟨_,rfl⟩))
          · split
            · exact Or.inr (Or.inr (Or.inl ⟨_,rfl⟩))
            · exact Or.inr (Or.inl rfl)

namespace ReadFrame

variable (h : ReadFrame P R)

include h

theorem recvGet (hdata : ∀ ioThread key,P (.sent (.dataReq ioThread key)))
    (hkvs : ∀ ioThread key,P (.sent (.getKvs ioThread key))) {executorId reqId : UInt8}
    (hanswer : ∀ size,P (.sent (.toExecutor executorId
      (response reqId (DelimitedText.decimal size)))))
    (hgets : ∀ (st : SchedState) gets,R st {st with keyRemoteGetMap := gets}) (st : SchedState)
    (fromEpheStore : Bool) (keyName : Str) :
    Leads R st id (recvGet cfg st executorId reqId fromEpheStore keyName) := by
  unfold SchedulerLoop.recvGet
  split
  · split
    · exact h.sendToExecuter (hanswer _) st
    · exact h.trans _ _ _ (h.sendDataReq (fun _ => hdata _ _) st) (hgets _ _)
  · refine (leads_orFault (h.refl st) _).bind h.trans fun key _ => ?_
    exact h.trans _ _ _ (h.getKvsAsync (fun _ => hkvs _ _) st) (hgets _ _)

/-- Requests for objects, ephemeral and durable objects are what a message
of an executor adds to the rules. -/
theorem recvExecutor (hE : ∀ a b,R a b → E a b)
    (hP : ∀ address msg,P (.sent (.clientResponse address msg))) {st : SchedState} {msg : Str}
    (hget : (msg++[nulChar])[1]?=some 1 → ∀ executorId reqId store key,
      LeadsOr R E st id (SchedulerLoop.recvGet cfg st executorId reqId store key))
    (hobject : (msg++[nulChar])[1]?=some 2 → ∀ packing info,objectInfo (cString msg 4)=some info →
      LeadsOr R E st id (recvEphemeral cfg st packing info))
    (hdurable : (msg++[nulChar])[1]?=some 3 → ∀ executorId reqId packing info,
      LeadsOr R E st id (SchedulerLoop.recvPersistent cfg st executorId reqId packing info)) :
    LeadsOr R E st id (recvExecutor cfg st msg) := by
  rcases recvExecutor_cases cfg st msg with
    he|he|⟨pool,he⟩|⟨executorId,reqId,store,key,hkind,he⟩|
      ⟨executorId,kind,reqId,packing,hkind,-,-,-,he⟩
  · exact he ▸ hE _ _ (h.refl st)
  · exact he ▸ h.refl st
  · exact he ▸ h.pool st pool
  · exact he ▸ hget hkind executorId reqId store key
  · rw [he]
    unfold recvObject
    split
    · exact h.refl st
    · rename_i info hinfo
      split
      · rename_i hephemeral
        exact hobject (hkind.trans (congrArg some hephemeral)) packing info hinfo
      · split
        · rename_i hkeep
          exact hdurable (hkind.trans (congrArg some hkeep)) executorId reqId packing _
        · exact (h.recvOutput hP st packing _).or hE

end ReadFrame

namespace ServiceFrame

/-- Every step but an update stays within a relation that contains what
messages of executors, answers to them, the delay loop and the periodic part
do. -/
theorem outcome (h : ServiceFrame cfg P starts R E) (hP : ∀ e,Aside e → P e)
    (hrequest : ∀ cid call,starts (.request cid) call) {st : SchedState} {l : SchedLabel}
    (hl : ∀ msg,l≠.update msg)
    (hexecutor : ∀ msg,l=.executor msg → LeadsOr R E st id (SchedulerLoop.recvExecutor cfg st msg))
    (hanswer : ∀ (st : SchedState) key size body,body≠[] → LeadsOr R E st id (answerWaiting cfg {st with
      keyLenMap := st.keyLenMap.set key size} key body))
    (hput : ∀ key,l=.kvsPut key → LeadsOr R E st id (recvKvsPut cfg st key))
    (hdelay : l=.delay → LeadsOr R E st id (SchedulerLoop.delayForwarding cfg st))
    (hreport : ∀ fuel,l=.report fuel → LeadsOr R E st id (SchedulerLoop.reportTimer cfg fuel st)) :
    LeadsOr R E st id (outcome cfg st l) := by
  cases l with
  | executor msg => exact hexecutor msg rfl
  | update msg => exact absurd rfl (hl msg)
  | call msg => exact h.recvCall (fun _ _ => hP _ trivial) (fun _ _ => hP _ trivial) hrequest st msg
  | data msg =>
    exact h.recvDataMessage hrequest fun st key size => hanswer st key size _ (List.cons_ne_nil _ _)
  | kvsGet key value =>
    exact h.after (hanswer _ _ _ _ (DelimitedText.decimal_ne_nil _)) (h.shm st _)
  | kvsPut key => exact hput key rfl
  | delay => exact hdelay rfl
  | report fuel => exact hreport fuel rfl
  | write name data => exact h.shm st _

end ServiceFrame

namespace CallFrame

/-- Every step but an update stays within a relation that contains what
messages of executors, answers to them and the delay loop do. -/
theorem outcome (h : CallFrame cfg P starts R E) (hP : ∀ e,Aside e → P e)
    (hrequest : ∀ cid call,starts (.request cid) call) (hrerun : ∀ call,starts .rerun call)
    {st : SchedState} {l : SchedLabel} (hl : ∀ msg,l≠.update msg)
    (hexecutor : ∀ msg,l=.executor msg → LeadsOr R E st id (SchedulerLoop.recvExecutor cfg st msg))
    (hanswer : ∀ (st : SchedState) key size body,body≠[] → LeadsOr R E st id (answerWaiting cfg {st with
      keyLenMap := st.keyLenMap.set key size} key body))
    (hput : ∀ key,l=.kvsPut key → LeadsOr R E st id (recvKvsPut cfg st key))
    (hdelay : l=.delay → LeadsOr R E st id (SchedulerLoop.delayForwarding cfg st)) :
    LeadsOr R E st id (outcome cfg st l) :=
  h.toServiceFrame.outcome hP hrequest hl hexecutor hanswer hput hdelay
    fun fuel _ => h.reportTimer h.rerunCheckQueue (fun _ _ => hP _ trivial) hrerun fuel st

end CallFrame

namespace LoopFrame

variable (h : LoopFrame P R)

include h

theorem recvGet (hP : ∀ e,Routine e → P e) {executorId reqId : UInt8}
    (hanswer : ∀ size,P (.sent (.toExecutor executorId
      (response reqId (DelimitedText.decimal size)))))
    (hgets : ∀ (st : SchedState) gets,R st {st with keyRemoteGetMap := gets}) (st : SchedState)
    (fromEpheStore : Bool) (keyName : Str) :
    Leads R st id (recvGet cfg st executorId reqId fromEpheStore keyName) :=
  h.toReadFrame.recvGet (fun _ _ => hP _ trivial) (fun _ _ => hP _ trivial) hanswer hgets st
    fromEpheStore keyName

theorem recvExecutor (hP : ∀ e,Routine e → P e) {st : SchedState} {msg : Str}
    (hget : (msg++[nulChar])[1]?=some 1 → ∀ executorId reqId store key,
      Leads R st id (SchedulerLoop.recvGet cfg st executorId reqId store key))
    (hobject : (msg++[nulChar])[1]?=some 2 → ∀ packing info,objectInfo (cString msg 4)=some info →
      Leads R st id (SchedulerLoop.recvEphemeral cfg st packing info))
    (hdurable : (msg++[nulChar])[1]?=some 3 → ∀ executorId reqId packing info,
      Leads R st id (recvPersistent cfg st executorId reqId packing info)) :
    Leads R st id (recvExecutor cfg st msg) :=
  (h.toReadFrame.recvExecutor (fun _ _ h => h) (fun _ _ => hP _ trivial)
    (fun hk e r store key => (hget hk e r store key).or fun _ _ h => h)
    (fun hk packing info hinfo => (hobject hk packing info hinfo).or fun _ _ h => h)
    fun hk e r packing info => (hdurable hk e r packing info).or fun _ _ h => h).leads

/-- Every step but an update stays within a relation that contains what
messages of executors and answers to them do. -/
theorem outcome (hP : ∀ e,Routine e → P e)
    (hrerun : ∀ call,P (.scheduled .rerun call)) {st : SchedState} {l : SchedLabel}
    (hl : ∀ msg,l≠.update msg)
    (hexecutor : ∀ msg,l=.executor msg → Leads R st id (SchedulerLoop.recvExecutor cfg st msg))
    (hanswer : ∀ (st : SchedState) key size body,body≠[] → Leads R st id (answerWaiting cfg {st with
      keyLenMap := st.keyLenMap.set key size} key body))
    (hput : ∀ key,l=.kvsPut key → Leads R st id (recvKvsPut cfg st key)) :
    Leads R st id (outcome cfg st l) :=
  ((h.callFrame (calling_of_routine hP)).outcome (fun e he => hP e (routine_of_aside he))
    (routine_request hP) hrerun hl (fun msg he => (hexecutor msg he).or fun _ _ h => h)
    (fun st key size body hbody => (hanswer st key size body hbody).or fun _ _ h => h)
    (fun key he => (hput key he).or fun _ _ h => h)
    fun _ => (h.delayForwarding hP st).or fun _ _ h => h).leads

end LoopFrame

/-- A relation that contains what every step but an update does: any event,
and any change of the recorded objects, of the waiting executors and of the
triggers that an object passes. -/
structure StepFrame (R : SchedState → SchedState → Prop) : Prop
    extends LoopFrame (fun _ => True) R where
  keyLenMap : ∀ (st : SchedState) lens,R st {st with keyLenMap := lens}
  keyValMap : ∀ (st : SchedState) vals,R st {st with keyValMap := vals}
  /-- Executors begin or cease to wait for an object. -/
  gets : ∀ (st : SchedState) gets,R st {st with keyRemoteGetMap := gets}
  /-- Executors begin or cease to wait for a durable write. -/
  puts : ∀ (st : SchedState) puts,R st {st with keyKsvPutMap := puts}
  arrivedAt : ∀ cfg (st : SchedState) bk,R st (arrivedAt cfg st bk)

namespace StepFrame

variable (h : StepFrame R)

include h

theorem recvEphemeral (st : SchedState) (isDataPacking : UInt8) (info : ObjectInfo) :
    Leads R st id (recvEphemeral cfg st isDataPacking info) :=
  h.toLoopFrame.recvEphemeral (fun _ _ => trivial) (h.toFrame.recordObject
      (fun st vals _ _ => h.trans _ _ _ (h.keyValMap st vals) (h.keyLenMap _ _)) st isDataPacking)
    (h.arrivedAt cfg) (fun _ => trivial) fun _ => trivial

theorem recvGet (st : SchedState) (executorId reqId : UInt8) (fromEpheStore : Bool) (keyName : Str) :
    Leads R st id (recvGet cfg st executorId reqId fromEpheStore keyName) :=
  h.toLoopFrame.recvGet (fun _ _ => trivial) (fun _ => trivial) h.gets st fromEpheStore keyName

theorem recvExecutor (st : SchedState) (msg : Str) : Leads R st id (recvExecutor cfg st msg) :=
  h.toLoopFrame.recvExecutor (fun _ _ => trivial) (fun _ => h.recvGet st)
    (fun _ packing info _ => h.recvEphemeral st packing info)
    fun _ => h.toReadFrame.recvPersistent h.puts (fun _ _ _ => trivial) st

/-- Every step but an update stays within the relation. -/
theorem outcome (st : SchedState) {l : SchedLabel} (hl : ∀ msg,l≠.update msg) :
    Leads R st id (outcome cfg st l) := by
  refine h.toLoopFrame.outcome (fun _ _ => trivial) (fun _ => trivial) hl
    (fun msg _ => h.recvExecutor st msg) (fun st key size body _ => ?_) (fun key _ => ?_)
  · exact (h.answerWaiting (fun _ _ => trivial) h.gets _ key).after h.trans (h.keyLenMap st _)
  · exact h.recvKvsPut (fun _ _ => trivial) h.puts st key

end StepFrame

variable {st' : SchedState}

/-- A step without fault has an outcome. -/
theorem step_eq_some {l : SchedLabel} (h : step cfg st l=some st') : outcome cfg st l=.ok st' := by
  unfold step at h
  cases hr : outcome cfg st l with
  | ok a =>
    rw [hr] at h
    exact congrArg Except.ok (Option.some.inj h)
  | error a =>
    rw [hr] at h
    cases h

/-- A step is an update of the tables or has another outcome. -/
theorem step_within {l : SchedLabel} (h : step cfg st l=some st')
    (hupdate : ∀ tables,R st {(readClock cfg st).2 with tables := tables})
    (hother : (∀ msg,l≠.update msg) → LeadsOr R (fun _ _ => True) st id (outcome cfg st l)) :
    R st st' := by
  have hout := step_eq_some h
  by_cases hl : ∃ msg,l=.update msg
  · obtain ⟨msg,rfl⟩ := hl
    obtain ⟨tables,-,rfl⟩ := map_eq_ok hout
    exact hupdate tables
  · exact (hother fun msg he => hl ⟨msg,he⟩).ok hout

variable {queue : List RerunCheckQueueItem} {item : RerunCheckQueueItem}

theorem firstCheck_mem (h : firstCheck queue=some item) : item∈queue := by
  induction queue generalizing item with
  | nil => cases h
  | cons first rest ih =>
    rw [firstCheck] at h
    split at h
    · exact Option.some.inj h ▸ List.mem_cons_self
    · rename_i other hother
      split at h
      · exact List.mem_cons_of_mem _ (ih (hother.trans h))
      · exact Option.some.inj h ▸ List.mem_cons_self

theorem firstCheck_eq_none (h : firstCheck queue=none) : queue=[] := by
  cases queue with
  | nil => rfl
  | cons first rest =>
    rw [firstCheck] at h
    split at h
    · cases h
    · split at h <;> cases h

theorem firstCheck_le (h : firstCheck queue=some item) :
    ∀ other∈queue,item.checkTime≤other.checkTime := by
  induction queue generalizing item with
  | nil => cases h
  | cons first rest ih =>
    rw [firstCheck] at h
    intro other hother
    cases hrest : firstCheck rest with
    | none =>
      rw [hrest] at h
      cases h
      rw [firstCheck_eq_none hrest] at hother
      rw [List.mem_singleton.mp hother]
    | some best =>
      rw [hrest] at h
      have hbest := ih hrest
      dsimp only at h
      split at h
      · cases h
        rcases List.mem_cons.mp hother with rfl|hother
        · omega
        · exact hbest other hother
      · cases h
        rcases List.mem_cons.mp hother with rfl|hother
        · exact le_refl _
        · have hle := hbest other hother
          omega

/-- Checks that come no earlier leave it first. -/
theorem firstCheck_append {new : List RerunCheckQueueItem} (h : firstCheck queue=some item)
    (hnew : ∀ x∈new,item.checkTime≤x.checkTime) : firstCheck (queue++new)=some item := by
  induction queue generalizing item with
  | nil => cases h
  | cons first rest ih =>
    rw [firstCheck] at h
    rw [List.cons_append,firstCheck]
    cases hrest : firstCheck rest with
    | none =>
      rw [hrest] at h
      cases h
      rw [firstCheck_eq_none hrest,List.nil_append]
      cases hfirst : firstCheck new with
      | none => rfl
      | some x =>
        have hle := hnew x (firstCheck_mem hfirst)
        exact if_neg (by omega)
    | some best =>
      rw [hrest] at h
      dsimp only at h
      split at h
      · rename_i hlt
        cases h
        rw [ih hrest hnew]
        exact if_pos hlt
      · rename_i hge
        cases h
        cases hall : firstCheck (rest++new) with
        | none => rfl
        | some x =>
          refine if_neg ?_
          rcases List.mem_append.mp (firstCheck_mem hall) with hx|hx
          · have hle := firstCheck_le hrest x hx
            omega
          · have hle := hnew x hx
            omega

/-- Only events of a kind have been recorded. -/
def Records (P : SchedEvent → Prop) (st st' : SchedState) : Prop :=
  ∃ events,st'.trace=st.trace++events ∧ ∀ e∈events,P e

theorem records_of_eq (h : st'.trace=st.trace) : Records P st st' := ⟨[],by simp [h],nofun⟩

theorem Records.trans {st'' : SchedState} (h : Records P st st') (h' : Records P st' st'') :
    Records P st st'' := by
  obtain ⟨events,htrace,hevents⟩ := h
  obtain ⟨events',htrace',hevents'⟩ := h'
  refine ⟨events++events',?_,List.forall_mem_append.mpr ⟨hevents,hevents'⟩⟩
  rw [htrace',htrace,List.append_assoc]

/-- No field of an object's message holds the delimiter. -/
theorem delimiter_not_mem_info {params : Str} {info : ObjectInfo} (h : objectInfo params=some info) :
    ∀ field∈[info.sessionId,info.srcFunction,info.tgtFunction,info.bucket,info.sessionKey,info.value],
      kDelimiterChar∉field := by
  intro field hfield
  unfold objectInfo at h
  split at h
  · rename_i sessionId srcFunction tgtFunction bucket sessionKey value rest hs
    cases h
    have hfields : DelimitedText.fields kDelimiterChar params=
      [sessionId,srcFunction,tgtFunction,bucket,sessionKey,value]++rest := hs
    refine DelimitedText.not_mem_of_mem_fields (s:=params) ?_
    rw [hfields]
    exact List.mem_append_left rest hfield
  · cases h

/-- Noting a call changes triggers, hints and checks only. -/
theorem noteHints_eq (call : Invocation) (time : ℤ) (st : SchedState) :
    noteHints call time st={st with
      tables := (noteHints call time st).tables
      rerunCheckQueue := (noteHints call time st).rerunCheckQueue} := by
  unfold noteHints
  refine List.foldlRecOn (motive:=fun st' : SchedState =>
    st'={st with tables := st'.tables,rerunCheckQueue := st'.rerunCheckQueue}) _ _ rfl ?_
  intro st' h hint _
  rw [noteHint,h]

theorem noteHints_trace (call : Invocation) (time : ℤ) (st : SchedState) :
    (noteHints call time st).trace=st.trace := by rw [noteHints_eq]

/-- A call is sent to the executor that is assigned to it. -/
theorem scheduleFuncCall_placed {cfg : SchedulerConfig} {st : SchedState} {call : Invocation}
    {executor : UInt8} {pool : Pool}
    (hassign : assignExecutor cfg.toSchedConfig st.pool call.funcName=some (executor,pool))
    (hchannel : executor∈cfg.executors) (origin : Origin) :
    ∃ st',scheduleFuncCall cfg origin st call=.ok st' ∧ st'.pool=pool ∧
      st'.trace=st.trace++[.scheduled origin call,.sent (.toExecutor executor
        (callMessage call (st.sessionClientAddrMap.getD call.sessionId [])))] := by
  have hassign' : assignExecutor cfg.toSchedConfig (st.log (.scheduled origin call)).pool
      call.funcName=some (executor,pool) := hassign
  unfold scheduleFuncCall
  dsimp only
  rw [hassign']
  dsimp only
  rw [sendToExecuter,if_pos hchannel]
  refine ⟨_,rfl,?_,?_⟩
  · rw [noteHints_eq]
    rfl
  · rw [noteHints_trace]
    exact List.append_assoc st.trace [_] [_]

/-- Every executor with a status has a channel; both are set up together. -/
def Connected (cfg : SchedulerConfig) (m : UMap UInt8 UInt8) : Prop :=
  ∀ e status,m.find? e=some status → e∈cfg.executors

/-- All executors have channels, and one can take a function: it is empty, or
it is available and shared or has been sent calls of the function. -/
def Ready (cfg : SchedulerConfig) (pool : Pool) (func : Str) : Prop :=
  Connected cfg pool.executorStatusMap ∧ ∃ p∈pool.executorStatusMap.entries,
    p.2=0 ∨ p.2=1 ∧ (cfg.sharedExecutor=true ∨ p.1∈pool.functionExecutorMap.getD func ∅)

theorem Connected.assigned {cfg : SchedulerConfig} {pool pool' : Pool} {func : Str} {e : UInt8}
    (h : Connected cfg pool.executorStatusMap)
    (hassign : assignExecutor cfg.toSchedConfig pool func=some (e,pool')) : e∈cfg.executors := by
  rcases status_of_mem_candidates (assignExecutor_spec hassign).1 with hs|hs
  · exact h e 0 hs
  · exact h e 1 hs

/-- A worker that is ready for the function of a call sends it to an executor. -/
theorem scheduleFuncCall_sent {cfg : SchedulerConfig} {st : SchedState} {call : Invocation}
    (h : Ready cfg st.pool call.funcName) (origin : Origin) :
    ∃ st' executor,scheduleFuncCall cfg origin st call=.ok st' ∧
      st'.trace=st.trace++[.scheduled origin call,.sent (.toExecutor executor
        (callMessage call (st.sessionClientAddrMap.getD call.sessionId [])))] := by
  obtain ⟨p,hp,hfree⟩ := h.2
  obtain ⟨⟨executor,pool⟩,hassign⟩ :=
    Option.ne_none_iff_exists'.mp (assignExecutor_of_free hp hfree)
  obtain ⟨st',hok,-,htrace⟩ := scheduleFuncCall_placed hassign (h.1.assigned hassign) origin
  exact ⟨st',executor,hok,htrace⟩

theorem noteHints_hintless {call : Invocation} (time : ℤ)
    (h : st.tables.funcTriggerTimeoutMap.getD call.funcName []=[]) :
    noteHints call time st={st with
      tables := {st.tables with
        funcTriggerTimeoutMap := st.tables.funcTriggerTimeoutMap.touch call.funcName []}} := by
  unfold noteHints
  dsimp only
  rw [h]
  rfl

/-- Picking an I/O thread changes nothing else. -/
theorem ioThread_eq (cfg : SchedulerConfig) (st : SchedState) :
    ∃ id,(ioThread cfg st).2={st with ioThreadId := id} := by
  unfold ioThread
  split
  · exact ⟨_,rfl⟩
  · exact ⟨st.ioThreadId,rfl⟩

/-- The calls of the actions of one trigger start their functions. -/
theorem activeFuncMetadata_funcNames (bucket : Bucket) (argFlag : ℤ) (actions : List TriggerAction)
    (st : SchedState) :
    (activeFuncMetadata bucket argFlag actions st).1.map TriggerFunctionMetadata.funcName=
      actions.map TriggerAction.function := by
  induction actions generalizing argFlag st with
  | nil => rfl
  | cons action actions ih =>
    rw [activeFuncMetadata]
    dsimp only
    split
    · exact congrArg (action.function::·) (ih 0 st)
    · exact congrArg (action.function::·) (ih argFlag _)

theorem activeFuncMetadatas_funcNames (bucket : Bucket) (rs : List (Trigger×List TriggerAction))
    (st : SchedState) :
    (activeFuncMetadatas bucket rs st).1.map TriggerFunctionMetadata.funcName=
      rs.flatMap fun r => r.2.map TriggerAction.function := by
  induction rs generalizing st with
  | nil => rfl
  | cons r rs ih =>
    rw [activeFuncMetadatas]
    dsimp only
    rw [List.map_append,activeFuncMetadata_funcNames,ih,List.flatMap_cons]

/-- Recording an object changes its value, if that is packed, and its length. -/
theorem recordObject_ok {isDataPacking : UInt8} {info : ObjectInfo}
    (h : recordObject st isDataPacking info=.ok st') :
    ∃ lens,st'={st with
      keyValMap := if isDataPacking=1 then st.keyValMap.set info.objName info.value else st.keyValMap
      keyLenMap := lens} ∧
      ∀ name,name≠info.objName → lens.find? name=st.keyLenMap.find? name := by
  have hset : ∀ (size : UInt32) name,name≠info.objName →
      (st.keyLenMap.set info.objName size).find? name=st.keyLenMap.find? name :=
    fun size name hne => by rw [UMap.find?_set,if_neg hne]
  unfold recordObject at h
  by_cases hp : isDataPacking=1
  · rw [if_pos hp] at h
    rw [if_pos hp]
    exact ⟨_,(Except.ok.inj h).symm,hset _⟩
  · rw [if_neg hp] at h
    rw [if_neg hp]
    split at h
    · obtain ⟨size,-,hsize⟩ := bind_eq_ok h
      exact ⟨_,(Except.ok.inj hsize).symm,hset _⟩
    · exact ⟨_,(Except.ok.inj h).symm,fun _ _ => rfl⟩

/-- Everything but the records themselves leaves them alone. -/
theorem records_frame (P : SchedEvent → Prop) : LoopFrame P (Records P) where
  toReadFrame := .of_idle (fun _ _ h => records_of_eq h.trace) (fun _ _ _ h h' => h.trans h')
    fun _ e he => ⟨[e],rfl,List.forall_mem_singleton.mpr he⟩
  noteHints st call time := records_of_eq (noteHints_trace call time st)
  delayCallQueue _ _ := records_of_eq rfl
  rerunCheckQueue _ _ _ := records_of_eq rfl
  numbers _ _ _ := records_of_eq rfl
  inflight _ _ := records_of_eq rfl
  awaited _ _ := records_of_eq rfl

end Pheromone.SchedulingRules
