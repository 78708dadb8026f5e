import Pheromone.ObjectDispatch
import Pheromone.BucketNetwork

/-!
# The scheduler as a worker of the bucket network

A step of the scheduler checks one object against the triggers of its bucket
or none. For each bucket with a known coordinator every run is therefore one
of a worker of the bucket network.
-/

namespace Pheromone.WorkerRefinement

open UnorderedContainers GuardedRuns FaultingRuns CommonNames TriggerPrimitives OperationMessages
open WorkerUpdates BucketNetwork SchedulerState Scheduling SchedulerLoop SchedulingRules
open ObjectDispatch ObjectTransport

/-- No coordinator is told of an object. -/
def Untold (e : SchedEvent) : Prop := notification? e=none

/-- No object has been checked. -/
structure Unchecked (st st' : SchedState) : Prop where
  events : Records Untold st st'
  triggers : ∀ bucket,AllNoted (st.tables.bucketTriggers bucket) (st'.tables.bucketTriggers bucket)
  coords : st'.tables.bucketCoordMap=st.tables.bucketCoordMap

/-- One object has been checked. -/
structure Checked (cfg : SchedulerConfig) (bk : BucketKey) (st st' : SchedState) : Prop where
  /-- The triggers of its bucket have taken it. -/
  taken : AllNoted ((results cfg st bk).map Prod.fst) (st'.tables.bucketTriggers bk.bucket)
  /-- The triggers of other buckets have not taken it. -/
  others : ∀ bucket,bucket≠bk.bucket →
    AllNoted (st.tables.bucketTriggers bucket) (st'.tables.bucketTriggers bucket)
  coords : st'.tables.bucketCoordMap=st.tables.bucketCoordMap
  /-- What the triggers ask for has been started. -/
  fired : (since st st').filterMap triggered?=
    (results cfg st bk).flatMap fun r => r.2.map TriggerAction.function
  /-- The coordinator, if it is known, has been told of this object alone. -/
  told : ∃ client address payload,(since st st').filterMap notification?=
    (st.tables.bucketCoordMap.find? bk.bucket).toList.map fun coord => (coord,⟨client,
      [⟨bk.bucket,bk.key,bk.session,[address],payload⟩],firedNames (results cfg st bk)⟩)

/-- Messages where objects are packed or announced with their size and the
coordinator's updates are clears. -/
def Proper : SchedLabel → Prop
  | .update msg => msg.msgType=1
  | .executor msg => (msg++[nulChar])[1]?=some 2 →
      (msg++[nulChar])[3]?=some 1 ∨ (msg++[nulChar])[3]?=some 2
  | _ => True

variable {cfg : SchedulerConfig} {st st' : SchedState}

theorem Unchecked.untold (h : Unchecked st st') : (since st st').filterMap notification?=[] := by
  obtain ⟨events,htrace,hevents⟩ := h.events
  rw [since_eq htrace]
  exact List.filterMap_eq_nil_iff.mpr hevents

theorem unchecked_of_eq (htrace : st'.trace=st.trace)
    (htriggers : st'.tables.bucketTriggersMap=st.tables.bucketTriggersMap)
    (hcoords : st'.tables.bucketCoordMap=st.tables.bucketCoordMap) : Unchecked st st' :=
  ⟨records_of_eq htrace,(adds_of_eq htrace htriggers hcoords).triggers,hcoords⟩

theorem unchecked_frame : LoopFrame Untold Unchecked where
  toReadFrame := .of_idle (fun _ _ h => unchecked_of_eq h.trace h.triggers.1 h.coords)
    (fun _ _ _ h h' => ⟨h.events.trans h'.events,
      fun bucket => (h.triggers bucket).trans (h'.triggers bucket),h'.coords.trans h.coords⟩)
    fun _ e he => ⟨⟨[e],rfl,List.forall_mem_singleton.mpr he⟩,fun _ => AllNoted.refl _,rfl⟩
  noteHints st call time := ⟨records_of_eq (noteHints_trace call time st),
    (adds_noteHints call time st).triggers,(adds_noteHints call time st).coords⟩
  delayCallQueue _ _ := unchecked_of_eq rfl rfl rfl
  rerunCheckQueue _ _ _ := unchecked_of_eq rfl rfl rfl
  numbers _ _ _ := unchecked_of_eq rfl rfl rfl
  inflight _ _ := unchecked_of_eq rfl rfl rfl
  awaited _ _ := unchecked_of_eq rfl rfl rfl

/-- Scheduling and forwarding check nothing. -/
theorem untold_of_calling (e : SchedEvent) (h : Calling e) : Untold e := by
  cases e with
  | requested _ _ => cases h
  | scheduled _ _ => cases h
  | forwarding _ _ => exact rfl
  | sent out =>
    cases out with
    | notify _ _ => cases h
    | _ => exact rfl

/-- Messages of executors that send no ephemeral object. -/
theorem recvExecutor_unchecked {msg : Str} (hkind : (msg++[nulChar])[1]?≠some 2) :
    LeadsOr Unchecked Unchecked st id (recvExecutor cfg st msg) := by
  refine unchecked_frame.toReadFrame.recvExecutor (fun _ _ h => h) (fun _ _ => rfl)
    (fun _ executorId reqId store key => ?_) (fun h => absurd h hkind)
    fun _ executorId reqId packing info => ?_
  · exact (unchecked_frame.toReadFrame.recvGet (fun _ _ => rfl) (fun _ _ => rfl)
      (fun _ => rfl) (fun _ _ => unchecked_of_eq rfl rfl rfl) st store key).or fun _ _ h => h
  · exact (unchecked_frame.toReadFrame.recvPersistent (fun _ _ => unchecked_of_eq rfl rfl rfl)
      (fun _ _ _ => rfl) st executorId reqId packing info).or fun _ _ h => h

/-- Steps that take no message of an executor and no update. -/
theorem outcome_unchecked {l : SchedLabel} (hupdate : ∀ msg,l≠.update msg)
    (hexecutor : ∀ msg,l≠.executor msg) : LeadsOr Unchecked Unchecked st id (outcome cfg st l) := by
  have hcalls := @LoopFrame.callFrame _ _ cfg unchecked_frame untold_of_calling
  have hanswer : ∀ (st : SchedState) key size body,LeadsOr Unchecked Unchecked st id
      (answerWaiting cfg {st with keyLenMap := st.keyLenMap.set key size} key body) :=
    fun st key size body => hcalls.after ((unchecked_frame.answerWaiting (fun _ _ => rfl)
      (fun _ _ => unchecked_of_eq rfl rfl rfl) _ key).or fun _ _ h => h) (unchecked_of_eq rfl rfl rfl)
  cases l with
  | executor msg => exact absurd rfl (hexecutor msg)
  | update msg => exact absurd rfl (hupdate msg)
  | call msg =>
    exact hcalls.recvCall (fun _ _ => rfl) (fun _ _ => rfl) (fun _ _ => rfl) st msg
  | data msg =>
    exact hcalls.recvDataMessage (fun _ _ => rfl) fun st key size => hanswer st key size _
  | kvsGet key value => exact hcalls.after (hanswer _ _ _ _) (unchecked_frame.shm st _)
  | kvsPut key =>
    exact (unchecked_frame.recvKvsPut (fun _ _ => rfl) (fun _ _ => unchecked_of_eq rfl rfl rfl)
      st key).or fun _ _ h => h
  | delay =>
    exact hcalls.delayForwarding (fun _ => rfl) unchecked_frame.delayCallQueue
      (fun st call => (unchecked_frame.forward untold_of_calling .expiry call st).or fun _ _ h => h) st
  | report fuel =>
    exact hcalls.reportTimer unchecked_frame.rerunCheckQueue (fun _ _ => rfl)
      (fun _ => rfl) fuel st
  | write name data => exact unchecked_frame.shm st _

variable {bk : BucketKey} {isDataPacking : UInt8} {info : ObjectInfo}

theorem notified_told (cfg : SchedulerConfig) (bk : BucketKey) (info : ObjectInfo)
    (hpacking : isDataPacking=1 ∨ isDataPacking=2) (fired : List Str) (st : SchedState) :
    ∃ client address payload,Adds [] ((st.tables.bucketCoordMap.find? bk.bucket).toList.map
      fun coord => (coord,⟨client,[⟨bk.bucket,bk.key,bk.session,[address],payload⟩],fired⟩)) st
        (notified cfg bk isDataPacking info fired st) := by
  cases hcoord : st.tables.bucketCoordMap.find? bk.bucket with
  | some coord =>
    obtain ⟨client,address,payload,h⟩ := notified_adds cfg info hpacking fired hcoord
    exact ⟨client,address,payload,h⟩
  | none =>
    refine ⟨[],[],[],?_⟩
    have hput : ∀ payload,Adds [] [] st (notifyPut cfg (sessionClient st info.sessionId).2 bk fired
        (sessionClient st info.sessionId).1 payload) := by
      intro payload
      rw [notifyPut,show (sessionClient st info.sessionId).2.tables.bucketCoordMap.find? bk.bucket=none
        from hcoord]
      exact adds_of_eq rfl rfl rfl
    rcases hpacking with rfl|rfl
    · exact hput info.value
    · exact hput []

theorem arrivedAt_other {bucket : Bucket} (hb : bucket≠bk.bucket) :
    (arrivedAt cfg st bk).tables.bucketTriggers bucket=st.tables.bucketTriggers bucket :=
  congrArg (List.map _) ((UMap.getD_set _ _ _ _ _).trans (if_neg hb))

theorem triggerCheck_checked (hpacking : isDataPacking=1 ∨ isDataPacking=2)
    (h : triggerCheck cfg st isDataPacking info=.ok st') :
    Checked cfg (BucketKey.ofSessionKey info.bucket info.sessionKey) st st' := by
  generalize hbk : BucketKey.ofSessionKey info.bucket info.sessionKey=bk
  rw [triggerCheck_eq,hbk] at h
  obtain ⟨⟨names,st1⟩,hcheck,hrest⟩ := bind_eq_ok h
  cases hrest
  obtain ⟨rfl,hadds⟩ := checkTrigger_adds hcheck
  obtain ⟨client,address,payload,hnote⟩ :=
    notified_told cfg bk info hpacking (firedNames (results cfg st bk)) st1
  have hall := hadds.trans hnote
  obtain ⟨events,htrace,hstarts,hnotes,-⟩ := hall.events
  have hsince : since st (notified cfg bk isDataPacking info (firedNames (results cfg st bk)) st1)=
      events := since_eq htrace
  refine ⟨?_,fun bucket hb => ?_,hall.coords,?_,?_⟩
  · rw [←arrivedAt_bucketTriggers]
    exact hall.triggers bk.bucket
  · rw [←arrivedAt_other hb]
    exact hall.triggers bucket
  · exact (congrArg _ hsince).trans (hstarts.trans (List.append_nil _))
  · rw [hadds.coords] at hnotes
    exact ⟨client,address,payload,(congrArg _ hsince).trans hnotes⟩

/-- An ephemeral object is checked unless its sender has direct targets. -/
theorem recvEphemeral_checks (hpacking : isDataPacking=1 ∨ isDataPacking=2)
    (h : recvEphemeral cfg st isDataPacking info=.ok st') :
    Unchecked st st' ∨ ∃ bk,Checked cfg bk st st' := by
  rw [recvEphemeral_eq] at h
  obtain ⟨st1,hrec,h⟩ := bind_eq_ok h
  obtain ⟨lens,rfl,-⟩ := recordObject_ok hrec
  split at h
  · left
    have hstarted := (unchecked_frame.directInvocation untold_of_calling (fun _ _ _ => rfl)
      _ _ _).ok h
    refine unchecked_frame.trans _ _ _ ?_ hstarted
    exact unchecked_of_eq rfl rfl rfl
  · split at h
    · obtain ⟨htaken,hothers,hcoords,hfired,htold⟩ := triggerCheck_checked hpacking h
      exact Or.inr ⟨_,htaken,hothers,hcoords,hfired,htold⟩
    · cases h
      exact Or.inl (unchecked_of_eq rfl rfl rfl)

/-- A step that is no update checks one object or none. -/
theorem step_checks {l : SchedLabel} (hl : Proper l) (hupdate : ∀ msg,l≠.update msg)
    (h : step cfg st l=some st') : Unchecked st st' ∨ ∃ bk,Checked cfg bk st st' := by
  have hout := step_eq_some h
  by_cases hexecutor : ∃ msg,l=.executor msg
  · obtain ⟨msg,rfl⟩ := hexecutor
    by_cases hkind : (msg++[nulChar])[1]?=some 2
    · rcases recvExecutor_cases cfg st msg with
        he|he|⟨pool,he⟩|⟨executorId,reqId,store,key,hget,-⟩|
          ⟨executorId,kind,reqId,packing,hsend,-,-,hpacking,he⟩
      · cases he.symm.trans hout
      · cases he.symm.trans hout
        exact Or.inl (unchecked_frame.refl st)
      · cases he.symm.trans hout
        exact Or.inl (unchecked_frame.pool st pool)
      · cases hkind.symm.trans hget
      · cases hkind.symm.trans hsend
        have hobject : recvObject cfg st executorId 2 reqId packing (cString msg 4)=.ok st' :=
          he.symm.trans hout
        unfold recvObject at hobject
        split at hobject
        · cases hobject
          exact Or.inl (unchecked_frame.refl st)
        · refine recvEphemeral_checks ?_ hobject
          have hbyte := hl hkind
          rw [hpacking] at hbyte
          exact hbyte.imp Option.some.inj Option.some.inj
    · exact Or.inl ((recvExecutor_unchecked hkind).ok hout)
  · exact Or.inl ((outcome_unchecked hupdate fun msg he => hexecutor ⟨msg,he⟩).ok hout)

/-- What the notifications among events say about a bucket. -/
def reportsOn (bucket : Bucket) (events : List SchedEvent) : List Notification :=
  (events.filterMap notification?).flatMap fun p =>
    (p.2.addresses.filter fun a => decide (a.bucket=bucket)).map fun a =>
      ⟨getBucketKeyFromAddr a,p.2.activeTriggerNames⟩

/-- Functions that the triggers of a bucket start in a turn. -/
def startsOn (bucket : Bucket) (events : List SchedEvent) : List Str :=
  if reportsOn bucket events=[] then [] else events.filterMap triggered?

/-- The update that a message is. -/
def update? : SchedLabel → Option UpdateCoordMsg
  | .update msg => some msg
  | _ => none

/-- What the turns of a run record. -/
def turns (cfg : SchedulerConfig) : SchedState → List SchedLabel → List (List SchedEvent)
  | _,[] => []
  | st,l::ls => match SchedulerLoop.step cfg st l with
    | none => []
    | some st' => since st st'::turns cfg st' ls

variable {ι : Type*} [DecidableEq ι]

/-- A worker of the network takes updates, starts functions, reports objects
and ends up with triggers. -/
structure Moves (w : ι) (taken : List UpdateCoordMsg) (starts : List Str)
    (reports : List Notification) (triggers : List Trigger) (n m : BucketNet ι) : Prop where
  workers : m.workers=Function.update n.workers w triggers
  notifications : m.notifications=Function.update n.notifications w (n.notifications w++reports)
  /-- Updates are taken from its link. -/
  updates : n.updates w=taken++m.updates w
  /-- Other links are as they were. -/
  links : ∀ v,v≠w → m.updates v=n.updates v
  /-- What fires is what it starts. -/
  fired : ∃ fs,m.fired=n.fired++fs ∧
    fs.map (fun f => (f.node,f.action.function))=starts.map fun func => (some w,func)
  /-- The coordinator does not move. -/
  coord : m.coord=n.coord ∧ m.nodes=n.nodes

variable {bucket : Bucket} {w : ι} {n m : BucketNet ι}

theorem Moves.trans {p : BucketNet ι} {taken taken' : List UpdateCoordMsg} {starts starts' : List Str}
    {reports reports' : List Notification} {ts ts' : List Trigger}
    (h : Moves w taken starts reports ts n m) (h' : Moves w taken' starts' reports' ts' m p) :
    Moves w (taken++taken') (starts++starts') (reports++reports') ts' n p := by
  obtain ⟨fs,hfs,hstarts⟩ := h.fired
  obtain ⟨fs',hfs',hstarts'⟩ := h'.fired
  refine ⟨?_,?_,?_,fun v hv => (h'.links v hv).trans (h.links v hv),⟨fs++fs',?_,?_⟩,
    h'.coord.1.trans h.coord.1,h'.coord.2.trans h.coord.2⟩
  · rw [h'.workers,h.workers,Function.update_idem]
  · rw [h'.notifications,h.notifications,Function.update_idem,Function.update_self,List.append_assoc]
  · rw [h.updates,h'.updates,List.append_assoc]
  · rw [hfs',hfs,List.append_assoc]
  · rw [List.map_append,hstarts,hstarts',List.map_append]

theorem modify_middle {α : Type*} (a : List α) (t : α) (b : List α) (f : α → α) :
    (a++t::b).modify a.length f=a++f t::b :=
  List.modifyTailIdx_add (List.modifyHead f) 0 a (t::b)

variable (n w bucket) in
/-- Triggers of a worker that notes lead to. -/
def ByNotes (ts : List Trigger) : Prop :=
  ∃ ls,run (BucketNetwork.step bucket) n ls=some {n with workers := Function.update n.workers w ts}

theorem ByNotes.note {a b : List Trigger} {t : Trigger} (h : ByNotes bucket w n (a++t::b))
    (call : TriggerFunctionMetadata) (session : Session) :
    ByNotes bucket w n (a++t.notifySourceFunc call session::b) := by
  obtain ⟨ls,hls⟩ := h
  refine ⟨ls++[.note w a.length call session],run_append_eq_some.mpr ⟨_,hls,?_⟩⟩
  simp only [run,BucketNetwork.step,noteSource,Function.update_self,modify_middle,
    Function.update_idem,Option.bind_some]

/-- Triggers that have noted calls are reached by notes. -/
theorem byNotes_of_allNoted {ts : List Trigger} (h : AllNoted (n.workers w) ts) :
    ByNotes bucket w n ts := by
  have hall : ∀ us ts,AllNoted us ts → ∀ a,ByNotes bucket w n (a++us) → ByNotes bucket w n (a++ts) := by
    intro us ts h
    induction h with
    | nil => exact fun _ h => h
    | @cons u t us ts hnoted _ ih =>
      intro a ha
      obtain ⟨calls,rfl⟩ := hnoted
      have hone := List.foldlRecOn (motive:=fun t => ByNotes bucket w n (a++t::us)) calls _ ha
        fun t ht c _ => ht.note c.1 c.2
      rw [List.append_cons] at hone ⊢
      exact ih _ hone
  exact hall _ ts h [] ⟨[],by simp⟩

variable (bucket) in
/-- The network can follow a turn that takes the given updates. -/
def Follows (w : ι) (taken : List UpdateCoordMsg) (st st' : SchedState) (n : BucketNet ι) : Prop :=
  ∃ ls m,run (BucketNetwork.step bucket) n ls=some m ∧ Moves w taken
    (startsOn bucket (since st st')) (reportsOn bucket (since st st'))
    (st'.tables.bucketTriggers bucket) n m

/-- Triggers of the bucket have noted calls at most, and nothing is said of it. -/
theorem follows_aside (hn : n.workers w=st.tables.bucketTriggers bucket)
    (hnoted : AllNoted (st.tables.bucketTriggers bucket) (st'.tables.bucketTriggers bucket))
    (hnone : reportsOn bucket (since st st')=[]) : Follows bucket w [] st st' n := by
  obtain ⟨ls,hls⟩ : ByNotes bucket w n (st'.tables.bucketTriggers bucket) :=
    byNotes_of_allNoted (hn ▸ hnoted)
  refine ⟨ls,_,hls,rfl,?_,rfl,fun _ _ => rfl,⟨[],(List.append_nil _).symm,?_⟩,rfl,rfl⟩
  · rw [hnone,List.append_nil,Function.update_eq_self]
  · rw [startsOn,if_pos hnone]
    rfl

variable (bucket) in
theorem reportsOn_checked (hst : Checked cfg bk st st') :
    reportsOn bucket (since st st')=if bk.bucket=bucket ∧
      (st.tables.bucketCoordMap.find? bk.bucket).isSome
        then [⟨bk,firedNames (results cfg st bk)⟩] else [] := by
  obtain ⟨client,address,payload,hnotes⟩ := hst.told
  rw [reportsOn,hnotes]
  cases st.tables.bucketCoordMap.find? bk.bucket with
  | none => simp
  | some coord =>
    by_cases hb : bk.bucket=bucket
    · subst hb
      simp [getBucketKeyFromAddr]
    · simp [hb]

/-- An object of the bucket is a put, with notes. -/
theorem follows_put (hst : Checked cfg bk st st') {coord : HandlerThread}
    (hcoord : st.tables.bucketCoordMap.find? bk.bucket=some coord)
    (hn : n.workers w=st.tables.bucketTriggers bk.bucket) : Follows bk.bucket w [] st st' n := by
  have hreports := reportsOn_checked bk.bucket hst
  rw [if_pos ⟨rfl,Option.isSome_of_eq_some hcoord⟩] at hreports
  have htaken := hst.taken
  have hfired := hst.fired
  unfold results at hreports htaken hfired
  rw [←hn] at hreports htaken hfired
  generalize cfg.clock st.tick=now at hreports htaken hfired
  have hworker : (put n w bk now).workers w=(arrivals now (n.workers w) bk).map Prod.fst :=
    Function.update_self ..
  obtain ⟨ls,hls⟩ : ByNotes bk.bucket w (put n w bk now) (st'.tables.bucketTriggers bk.bucket) :=
    byNotes_of_allNoted (hworker ▸ htaken)
  refine ⟨.put w bk.key bk.session now::ls,_,run_cons_eq_some.mpr ⟨_,rfl,hls⟩,?_,?_,rfl,
    fun _ _ => rfl,⟨_,rfl,?_⟩,rfl,rfl⟩
  · exact Function.update_idem ..
  · rw [hreports]
    rfl
  · rw [startsOn,hreports,if_neg (List.cons_ne_nil _ _),hfired]
    simp only [List.map_map,namedActions,List.map_flatMap]
    rfl

/-- A clear that is next on the link of the worker is taken from it. -/
theorem follows_update {msg : UpdateCoordMsg} {rest : List UpdateCoordMsg} (htype : msg.msgType=1)
    (hn : n.workers w=st.tables.bucketTriggers bucket) (hlink : n.updates w=msg::rest)
    (hs : SchedulerLoop.step cfg st (.update msg)=some st') :
    st'.tables.bucketCoordMap=st.tables.bucketCoordMap ∧ Follows bucket w [msg] st st' n := by
  obtain ⟨v,hv,rfl⟩ := map_eq_ok (step_eq_some hs)
  have hv : recvUpdate _ st.tables msg=some v := orFault_eq_ok hv
  rw [recvUpdate_clear htype] at hv
  cases hv
  have hnone : since st {(readClock cfg st).2 with tables := msg.triggers.foldl clearEntity st.tables}=
      [] := since_eq (List.append_nil _).symm
  refine ⟨?_,[.update w],recvClear bucket n w msg rest,?_,?_,?_,?_,fun v hv => ?_,
    ⟨[],(List.append_nil _).symm,?_⟩,rfl,rfl⟩
  · exact List.foldlRecOn (motive:=fun u : WorkerTables => u.bucketCoordMap=st.tables.bucketCoordMap)
      _ _ rfl fun _ hu _ _ => hu
  · simp only [run,BucketNetwork.step,hlink,Option.bind_some]
  · exact congrArg (Function.update n.workers w) (hn ▸ (foldl_clearEntity_bucketTriggers ..).symm)
  · rw [hnone]
    exact (Function.update_eq_self ..).symm.trans (congrArg _ (List.append_nil _).symm)
  · have hrest : (recvClear bucket n w msg rest).updates w=rest := Function.update_self ..
    rw [hlink,hrest]
    rfl
  · exact Function.update_of_ne hv ..
  · rw [hnone]
    rfl

theorem step_follows {l : SchedLabel} {coord : HandlerThread} (hl : Proper l)
    (hcoord : st.tables.bucketCoordMap.find? bucket=some coord)
    (hn : n.workers w=st.tables.bucketTriggers bucket) (hlink : (update? l).toList<+:n.updates w)
    (hs : SchedulerLoop.step cfg st l=some st') :
    st'.tables.bucketCoordMap=st.tables.bucketCoordMap ∧
      Follows bucket w (update? l).toList st st' n := by
  by_cases hupdate : ∃ msg,l=.update msg
  · obtain ⟨msg,rfl⟩ := hupdate
    obtain ⟨rest,hrest⟩ := hlink
    exact follows_update hl hn hrest.symm hs
  · have hnone : update? l=none := by
      cases l with
      | update msg => exact absurd ⟨msg,rfl⟩ hupdate
      | _ => rfl
    rw [hnone]
    rcases step_checks hl (fun msg he => hupdate ⟨msg,he⟩) hs with hst|⟨bk,hst⟩
    · refine ⟨hst.coords,follows_aside hn (hst.triggers bucket) ?_⟩
      rw [reportsOn,hst.untold]
      rfl
    · refine ⟨hst.coords,?_⟩
      by_cases hb : bk.bucket=bucket
      · subst hb
        exact follows_put hst hcoord hn
      · exact follows_aside hn (hst.others bucket (Ne.symm hb))
          ((reportsOn_checked bucket hst).trans (if_neg fun h => hb h.1))

/-- Every run of a scheduler is, for each bucket whose coordinator it knows,
a run of one worker of the bucket network, with the same triggers, the same
notifications and the same functions started. -/
theorem scheduler_refines_worker (cfg : SchedulerConfig) (bucket : Bucket) (w : ι)
    (labels : List SchedLabel) (st st' : SchedState) (n : BucketNet ι) (coord : HandlerThread)
    (hcoord : st.tables.bucketCoordMap.find? bucket=some coord)
    (hn : n.workers w=st.tables.bucketTriggers bucket) (hl : ∀ l∈labels,Proper l)
    (hlink : labels.filterMap update?<+:n.updates w)
    (hrun : run (SchedulerLoop.step cfg) st labels=some st') :
    ∃ ls m,run (BucketNetwork.step bucket) n ls=some m ∧ Moves w (labels.filterMap update?)
      ((turns cfg st labels).flatMap (startsOn bucket))
      ((turns cfg st labels).flatMap (reportsOn bucket)) (st'.tables.bucketTriggers bucket) n m := by
  induction labels generalizing st n with
  | nil =>
    cases hrun
    refine ⟨[],n,rfl,?_,?_,rfl,fun _ _ => rfl,⟨[],(List.append_nil _).symm,rfl⟩,rfl,rfl⟩
    · rw [←hn,Function.update_eq_self]
    · exact (Function.update_eq_self ..).symm.trans (congrArg _ (List.append_nil _).symm)
  | cons l labels ih =>
    obtain ⟨st1,hs,hrun⟩ := run_cons_eq_some.mp hrun
    obtain ⟨hproper,hl⟩ := List.forall_mem_cons.mp hl
    have hsplit : (l::labels).filterMap update?=(update? l).toList++labels.filterMap update? := by
      cases l <;> rfl
    rw [hsplit] at hlink ⊢
    obtain ⟨hcoords,ls,m,hls,hm⟩ :=
      step_follows hproper hcoord hn ((List.prefix_append _ _).trans hlink) hs
    have hworker : m.workers w=st1.tables.bucketTriggers bucket := by
      rw [hm.workers,Function.update_self]
    rw [hm.updates,List.prefix_append_right_inj] at hlink
    obtain ⟨ls',p,hls',hp⟩ := ih st1 m (hcoords ▸ hcoord) hworker hl hlink hrun
    refine ⟨ls++ls',p,run_append_eq_some.mpr ⟨m,hls,hls'⟩,?_⟩
    simp only [turns,hs,List.flatMap_cons]
    exact hm.trans hp

/-- The object of a source, after the worker was told of the join. -/
theorem scheduler_refines_worker_joined : ∃ st st' ls m,
    run (SchedulerLoop.step sampleConfig) (.start sampleConfig 1) [.update (joinedUpdate [])]=some st ∧
    run (SchedulerLoop.step sampleConfig) st [joinedObject]=some st' ∧
    run (BucketNetwork.step (str "b_h"))
      (.start (fun _ : Unit => st.tables.bucketTriggers (str "b_h")) []) ls=some m ∧
    m.workers ()=st'.tables.bucketTriggers (str "b_h") ∧ m.fired≠[] := by
  have hcomputed : ((run (SchedulerLoop.step sampleConfig) (.start sampleConfig 1)
      [.update (joinedUpdate [])]).bind fun st =>
        (run (SchedulerLoop.step sampleConfig) st [joinedObject]).map fun _ => decide
          ((st.tables.bucketCoordMap.find? (str "b_h")).isSome=true ∧
            (turns sampleConfig st [joinedObject]).flatMap (startsOn (str "b_h"))≠[]))=
      some true := by decide +kernel
  obtain ⟨st,hrun,hrest⟩ := Option.bind_eq_some_iff.mp hcomputed
  obtain ⟨st',hobject,hdecided⟩ := Option.map_eq_some_iff.mp hrest
  obtain ⟨hsome,hstarts⟩ := of_decide_eq_true hdecided
  obtain ⟨coord,hcoord⟩ := Option.isSome_iff_exists.mp hsome
  obtain ⟨ls,m,hls,hm⟩ := scheduler_refines_worker sampleConfig (str "b_h") () [joinedObject] st st'
    (.start (fun _ => st.tables.bucketTriggers (str "b_h")) []) coord hcoord rfl
    (List.forall_mem_singleton.mpr fun _ => Or.inl rfl) List.nil_prefix hobject
  refine ⟨st,st',ls,m,hrun,hobject,hls,?_,fun hnil => hstarts ?_⟩
  · rw [hm.workers,Function.update_self]
  · obtain ⟨fs,hfs,hmap⟩ := hm.fired
    rw [hnil] at hfs
    rw [(List.append_eq_nil_iff.mp hfs.symm).2] at hmap
    exact List.map_eq_nil_iff.mp hmap.symm

end Pheromone.WorkerRefinement
