import Pheromone.SchedulingRules

/-!
# Moves of the scheduler that concern re-execution

A step of the scheduler is a sequence of moves: a call is scheduled, an object
arrives, an update is applied, a due check is served, or none of these is
touched. Scheduled calls are recorded with their time.
-/

namespace Pheromone.RerunMoves

open FaultingRuns GuardedRuns CommonNames TriggerPrimitives OperationMessages WorkerUpdates
open ExecutorPool SchedulerState Scheduling SchedulerLoop SchedulingRules

/-- A call that was scheduled. -/
structure Execution where
  /-- The reading of the clock. -/
  time : ℤ
  /-- Who asked for it. -/
  origin : Origin
  call : Invocation
  /-- The hints of its function at that time. -/
  hints : List RerunTriggerTimeout
  /-- Whether an executor took it. -/
  taken : Bool
  deriving DecidableEq

/-- A scheduler with the calls that it has scheduled. -/
structure Recorded where
  /-- The scheduler. -/
  st : SchedState
  /-- The calls, oldest first. -/
  executions : List Execution

/-- The hints of a function. -/
def hintsOf (w : WorkerTables) (func : Str) : List RerunTriggerTimeout :=
  w.funcTriggerTimeoutMap.getD func []

/-- The calls that a trigger would have executed again for a session. -/
def outstanding (w : WorkerTables) (id : ℕ) (session : Session) : List TriggerFunctionMetadata :=
  ((pointerTrigger w id).map fun t => t.actionForRerun session).getD []

/-- What scheduling a call adds to the record. -/
def recordOf (cfg : SchedulerConfig) (origin : Origin) (st : SchedState) (call : Invocation) :
    Execution :=
  ⟨cfg.clock st.tick,origin,call,hintsOf st.tables call.funcName,
    (assignExecutor cfg.toSchedConfig st.pool call.funcName).isSome⟩

/-- Schedule a call. -/
def schedule (cfg : SchedulerConfig) (origin : Origin) (r : Recorded) (call : Invocation) :
    Option Recorded :=
  (scheduleFuncCall cfg origin r.st call).toOption.map fun st =>
    ⟨st,r.executions++[recordOf cfg origin r.st call]⟩

/-- Execute one remembered call again. -/
def reexecute (cfg : SchedulerConfig) (session : Session) (r : Recorded)
    (m : TriggerFunctionMetadata) : Option Recorded :=
  let app := funcApp r.st m.funcName
  schedule cfg .rerun ⟨app.2,r.executions⟩ ⟨session,app.1,m.funcName,m.funcArgs,m.argFlag⟩

/-- Remove the check that is first. -/
def pop (st : SchedState) : SchedState :=
  {st with rerunCheckQueue := match firstCheck st.rerunCheckQueue with
    | none => []
    | some top => st.rerunCheckQueue.erase top}

theorem pop_eq {st : SchedState} {item : RerunCheckQueueItem}
    (h : firstCheck st.rerunCheckQueue=some item) :
    pop st={st with rerunCheckQueue := st.rerunCheckQueue.erase item} := by
  unfold pop
  rw [h]

/-- One round of the rerun check, for an earlier reading of the clock. -/
def serve (cfg : SchedulerConfig) (reading : ℕ) (r : Recorded) : Option Recorded :=
  match firstCheck r.st.rerunCheckQueue with
  | none => none
  | some item => if reading<r.st.tick ∧ item.checkTime≤ cfg.clock reading then
      ((outstanding r.st.tables item.triggerPtr item.session).foldlM
        (reexecute cfg item.session) r).map fun r => {r with st := pop r.st}
    else none

/-- Triggers, hints and checks are as before; the clock may have been read. -/
structure Untouched (st st' : SchedState) : Prop where
  bucketTriggersMap : st'.tables.bucketTriggersMap=st.tables.bucketTriggersMap
  removed : st'.tables.removed=st.tables.removed
  nextId : st'.tables.nextId=st.tables.nextId
  funcTriggerTimeoutMap : st'.tables.funcTriggerTimeoutMap=st.tables.funcTriggerTimeoutMap
  rerunCheckQueue : st'.rerunCheckQueue=st.rerunCheckQueue
  tick : st.tick≤ st'.tick

instance decidableUntouched (st st' : SchedState) : Decidable (Untouched st st') :=
  decidable_of_iff
    ((st'.tables.bucketTriggersMap=st.tables.bucketTriggersMap ∧
      st'.tables.removed=st.tables.removed ∧ st'.tables.nextId=st.tables.nextId) ∧
      st'.tables.funcTriggerTimeoutMap=st.tables.funcTriggerTimeoutMap ∧
      st'.rerunCheckQueue=st.rerunCheckQueue ∧ st.tick≤ st'.tick)
    ⟨fun h => ⟨h.1.1,h.1.2.1,h.1.2.2,h.2.1,h.2.2.1,h.2.2.2⟩,
      fun h => ⟨⟨h.bucketTriggersMap,h.removed,h.nextId⟩,h.funcTriggerTimeoutMap,
        h.rerunCheckQueue,h.tick⟩⟩

/-- The call that an event schedules. -/
def callOf : SchedEvent → Option (Origin×Invocation)
  | .scheduled origin call => some (origin,call)
  | _ => none

/-- In addition, no call has been scheduled. -/
structure Quiet (st st' : SchedState) : Prop extends Untouched st st' where
  /-- The calls of the trace. -/
  calls : st'.trace.filterMap callOf=st.trace.filterMap callOf

instance decidableQuiet (st st' : SchedState) : Decidable (Quiet st st') :=
  decidable_of_iff (Untouched st st' ∧ st'.trace.filterMap callOf=st.trace.filterMap callOf)
    ⟨fun h => ⟨h.1,h.2⟩,fun h => ⟨h.toUntouched,h.calls⟩⟩

/-- What can happen: a call is scheduled for the first time or after a delay,
an object arrives at the triggers of its bucket, an update is applied, a
round of the rerun check takes place, or something else changes. -/
inductive Move where
  | schedule (origin : Origin) (call : Invocation)
  | object (bk : BucketKey)
  | update (msg : UpdateCoordMsg)
  | serve (reading : ℕ)
  | aside (change : SchedState → SchedState)

/-- One move. -/
def step (cfg : SchedulerConfig) (r : Recorded) : Move → Option Recorded
  | .schedule origin call => if origin=.rerun then none else schedule cfg origin r call
  | .object bk => some {r with st := arrivedAt cfg r.st bk}
  | .update msg => (SchedulerLoop.step cfg r.st (.update msg)).map fun st => {r with st := st}
  | .serve reading => serve cfg reading r
  | .aside change => if Quiet r.st (change r.st) then some {r with st := change r.st} else none

/-- A scheduler at its start. -/
def start (cfg : SchedulerConfig) (seed : UInt32) : Recorded := ⟨SchedState.start cfg seed,[]⟩

theorem Untouched.refl (st : SchedState) : Untouched st st := ⟨rfl,rfl,rfl,rfl,rfl,le_refl _⟩

variable {st'' : SchedState}

theorem Untouched.trans {st st' : SchedState} (h : Untouched st st') (h' : Untouched st' st'') :
    Untouched st st'' :=
  ⟨h'.bucketTriggersMap.trans h.bucketTriggersMap,h'.removed.trans h.removed,
    h'.nextId.trans h.nextId,h'.funcTriggerTimeoutMap.trans h.funcTriggerTimeoutMap,
    h'.rerunCheckQueue.trans h.rerunCheckQueue,h.tick.trans h'.tick⟩

theorem Quiet.refl (st : SchedState) : Quiet st st := ⟨.refl st,rfl⟩

theorem Quiet.trans {st st' : SchedState} (h : Quiet st st') (h' : Quiet st' st'') :
    Quiet st st'' := ⟨h.toUntouched.trans h'.toUntouched,h'.calls.trans h.calls⟩

/-- What must not change. -/
def concerned (st : SchedState) :=
  (st.tables.bucketTriggersMap,st.tables.removed,st.tables.nextId,st.tables.funcTriggerTimeoutMap,
    st.rerunCheckQueue,st.tick,st.trace)

theorem quiet_of_eq {st st' : SchedState} (h : concerned st'=concerned st) : Quiet st st' := by
  simp only [concerned,Prod.mk.injEq] at h
  obtain ⟨htriggers,hremoved,hnext,hhints,hqueue,htick,htrace⟩ := h
  exact ⟨⟨htriggers,hremoved,hnext,hhints,hqueue,le_of_eq htick.symm⟩,congrArg _ htrace⟩

variable {e : SchedEvent}

/-- An event that schedules no call is recorded. -/
theorem quiet_log (st : SchedState) (he : callOf e=none) : Quiet st (st.log e) := by
  refine ⟨⟨rfl,rfl,rfl,rfl,rfl,le_refl _⟩,?_⟩
  show (st.trace++[e]).filterMap callOf=_
  rw [List.filterMap_append,List.filterMap_cons_none he,List.filterMap_nil,List.append_nil]

/-- Forwarding concerns none of them. -/
theorem quiet_frame : ReadFrame (fun e => callOf e=none) Quiet :=
  .of_idle (fun _ _ h => ⟨⟨h.triggers.1,h.triggers.2.1,h.triggers.2.2,h.hints,h.rerunCheckQueue,
    h.tick⟩,by rw [h.trace]⟩) (fun _ _ _ h h' => h.trans h') fun st _ he => quiet_log st he

theorem callOf_forwardEvent {site : ForwardSite} {req : ForwardRequest}
    (h : ForwardEvent site req e) : callOf e=none := by
  rcases h with rfl|⟨_,_,rfl,-⟩
  · rfl
  · rfl

theorem callOf_aside (h : Aside e) : callOf e=none := by
  cases e with
  | scheduled origin call => cases h
  | _ => rfl

variable {cfg : SchedulerConfig} {origin : Origin} {st st' : SchedState} {call : Invocation}

/-- A call that finds an executor is noted for its hints at the time of the
reading, after changes of other tables. One that does not concerns none of
the triggers, hints and checks. -/
theorem scheduleFuncCall_cases (h : scheduleFuncCall cfg origin st call=.ok st') :
    ∃ u,Quiet (st.log (.scheduled origin call)) u ∧
      ((assignExecutor cfg.toSchedConfig st.pool call.funcName=none ∧ st'=u) ∨
        (assignExecutor cfg.toSchedConfig st.pool call.funcName).isSome ∧
          st'=noteHints call (cfg.clock st.tick) u) := by
  unfold scheduleFuncCall at h
  dsimp only at h
  split at h
  · rename_i executor pool hassign
    obtain ⟨st1,hsend,h⟩ := bind_eq_ok h
    have hsent := (quiet_frame.sendToExecuter rfl _).ok hsend
    refine ⟨st1,?_,Or.inr ⟨Option.isSome_of_eq_some hassign,(Except.ok.inj h).symm⟩⟩
    refine Quiet.trans ?_ hsent
    exact ⟨⟨rfl,rfl,rfl,rfl,rfl,Nat.le_succ _⟩,rfl⟩
  · rename_i hassign
    refine ⟨st',?_,Or.inl ⟨hassign,rfl⟩⟩
    split at h
    · cases h
      exact ⟨⟨rfl,rfl,rfl,rfl,rfl,Nat.le_succ _⟩,rfl⟩
    · split at h
      · cases h
        exact quiet_of_eq rfl
      · obtain ⟨args,-,h⟩ := bind_eq_ok h
        have hforward := (quiet_frame.forward (fun _ => callOf_forwardEvent) _).ok h
        refine Quiet.trans ?_ hforward
        exact quiet_of_eq rfl

theorem noteHints_tick (call : Invocation) (time : ℤ) (st : SchedState) :
    (noteHints call time st).tick=st.tick := by rw [noteHints_eq]

/-- Scheduling does not turn the clock back. -/
theorem scheduleFuncCall_tick (h : scheduleFuncCall cfg origin st call=.ok st') :
    st.tick≤ st'.tick := by
  obtain ⟨u,hu,⟨-,rfl⟩|⟨-,rfl⟩⟩ := scheduleFuncCall_cases h
  · exact hu.tick
  · rw [noteHints_tick]
    exact hu.tick

theorem scheduleFuncCall_calls (h : scheduleFuncCall cfg origin st call=.ok st') :
    st'.trace.filterMap callOf=st.trace.filterMap callOf++[(origin,call)] := by
  have hlog : (st.log (.scheduled origin call)).trace.filterMap callOf=
      st.trace.filterMap callOf++[(origin,call)] := List.filterMap_append
  obtain ⟨u,hu,⟨-,rfl⟩|⟨-,rfl⟩⟩ := scheduleFuncCall_cases h
  · exact hu.calls.trans hlog
  · rw [noteHints_trace]
    exact hu.calls.trans hlog

variable {r r' : Recorded}

theorem schedule_eq_ok (h : schedule cfg origin r call=some r') :
    scheduleFuncCall cfg origin r.st call=.ok r'.st ∧
      r'.executions=r.executions++[recordOf cfg origin r.st call] := by
  obtain ⟨st1,hst,rfl⟩ := Option.map_eq_some_iff.mp h
  cases hx : scheduleFuncCall cfg origin r.st call with
  | error a =>
    rw [hx] at hst
    cases hst
  | ok a =>
    rw [hx] at hst
    cases hst
    exact ⟨rfl,rfl⟩

/-- A call that is scheduled is taken by an executor and noted, or not. -/
theorem schedule_cases (h : schedule cfg origin r call=some r') :
    ∃ u,Untouched r.st u ∧
      (r'=⟨u,r.executions++
        [⟨cfg.clock r.st.tick,origin,call,hintsOf r.st.tables call.funcName,false⟩]⟩ ∨
      (assignExecutor cfg.toSchedConfig r.st.pool call.funcName).isSome ∧
        r'=⟨noteHints call (cfg.clock r.st.tick) u,r.executions++
          [⟨cfg.clock r.st.tick,origin,call,hintsOf r.st.tables call.funcName,true⟩]⟩) := by
  obtain ⟨hst,hexecutions⟩ := schedule_eq_ok h
  obtain ⟨u,hu,hcases⟩ := scheduleFuncCall_cases hst
  have hlog : Untouched r.st (r.st.log (.scheduled origin call)) :=
    ⟨rfl,rfl,rfl,rfl,rfl,le_refl _⟩
  refine ⟨u,hlog.trans hu.toUntouched,?_⟩
  rw [recordOf] at hexecutions
  obtain ⟨st1,executions1⟩ := r'
  dsimp only at hexecutions hcases
  subst hexecutions
  rcases hcases with ⟨hnone,rfl⟩|⟨hsome,rfl⟩
  · rw [hnone]
    exact Or.inl rfl
  · rw [hsome]
    exact Or.inr ⟨rfl,rfl⟩

/-- An update changes the tables and reads the clock. -/
theorem update_cases {msg : UpdateCoordMsg}
    (h : SchedulerLoop.step cfg st (.update msg)=some st') :
    ∃ w,recvUpdate (cfg.clock st.tick) st.tables msg=some w ∧
      st'={st with tables := w,tick := st.tick+1} := by
  obtain ⟨w,hw,rfl⟩ := map_eq_ok (SchedulingRules.step_eq_some h)
  exact ⟨w,orFault_eq_ok hw,rfl⟩

/-- Moves lead from one state to another, whatever has been recorded. -/
def Reaches (cfg : SchedulerConfig) (st st' : SchedState) : Prop :=
  st.tick≤ st'.tick ∧ ∀ executions,∃ moves executions',
    run (step cfg) ⟨st,executions⟩ moves=some ⟨st',executions'⟩

theorem Reaches.trans (h : Reaches cfg st st') (h' : Reaches cfg st' st'') :
    Reaches cfg st st'' := by
  refine ⟨h.1.trans h'.1,fun executions => ?_⟩
  obtain ⟨moves,executions1,hr⟩ := h.2 executions
  obtain ⟨moves',executions2,hr'⟩ := h'.2 executions1
  exact ⟨moves++moves',executions2,run_append_eq_some.mpr ⟨_,hr,hr'⟩⟩

/-- One move. -/
theorem reaches_of_step (move : Move) (htick : st.tick≤ st'.tick)
    (h : ∀ executions,∃ executions',step cfg ⟨st,executions⟩ move=some ⟨st',executions'⟩) :
    Reaches cfg st st' := by
  refine ⟨htick,fun executions => ?_⟩
  obtain ⟨executions',hs⟩ := h executions
  exact ⟨[move],executions',run_cons_eq_some.mpr ⟨_,hs,rfl⟩⟩

theorem reaches_of_quiet (h : Quiet st st') : Reaches cfg st st' :=
  reaches_of_step (.aside fun _ => st') h.tick fun executions => ⟨executions,if_pos h⟩

theorem schedule_eq_some (h : scheduleFuncCall cfg origin st call=.ok st')
    (executions : List Execution) : schedule cfg origin ⟨st,executions⟩ call=
      some ⟨st',executions++[recordOf cfg origin st call]⟩ := by
  unfold schedule
  rw [h]
  rfl

/-- What the loop does around calls, and the scheduling of calls. -/
theorem reaches_service (cfg : SchedulerConfig) :
    ServiceFrame cfg (fun e => callOf e=none) (fun origin _ => origin≠.rerun) (Reaches cfg)
      fun _ _ => True where
  toReadFrame := quiet_frame.mono (fun _ _ => reaches_of_quiet) fun _ _ _ h h' => h.trans h'
  numbers _ _ _ := reaches_of_quiet (quiet_of_eq rfl)
  awaited _ _ := reaches_of_quiet (quiet_of_eq rfl)
  inflight _ _ := reaches_of_quiet (quiet_of_eq rfl)
  fault _ _ _ := trivial
  faultAfter _ _ _ _ _ := trivial
  schedule _ origin call hstart := leadsOr_of_ok fun _ h =>
    reaches_of_step (.schedule origin call) (scheduleFuncCall_tick h)
      fun executions => ⟨_,(if_neg hstart).trans (schedule_eq_some h executions)⟩
  batch st _ := leadsOr_of_ok fun _ h =>
    reaches_of_quiet ((quiet_frame.forward (fun _ => callOf_forwardEvent) st).ok h)

variable {session : Session} {calls : List TriggerFunctionMetadata}

/-- The calls of a served check are recorded as they are scheduled. -/
theorem reexecute_foldlM (h : calls.foldlM (scheduleRerun cfg session) st=.ok st')
    (executions : List Execution) :
    ∃ executions',calls.foldlM (reexecute cfg session) ⟨st,executions⟩=some ⟨st',executions'⟩ := by
  induction calls generalizing st executions with
  | nil =>
    cases h
    exact ⟨executions,rfl⟩
  | cons m calls ih =>
    rw [List.foldlM_cons] at h
    obtain ⟨st1,hone,hrest⟩ := bind_eq_ok h
    obtain ⟨executions',hrest'⟩ := ih hrest (executions++[recordOf cfg .rerun _ _])
    refine ⟨executions',?_⟩
    rw [List.foldlM_cons]
    exact Option.bind_eq_some_iff.mpr ⟨_,schedule_eq_some hone executions,hrest'⟩

theorem scheduleRerun_foldlM_tick (h : calls.foldlM (scheduleRerun cfg session) st=.ok st') :
    st.tick≤ st'.tick := by
  induction calls generalizing st with
  | nil =>
    cases h
    exact le_refl _
  | cons m calls ih =>
    rw [List.foldlM_cons] at h
    obtain ⟨st1,hone,hrest⟩ := bind_eq_ok h
    have htick : (funcApp st m.funcName).2.tick≤ st1.tick := scheduleFuncCall_tick hone
    exact htick.trans (ih hrest)

variable {fuel : ℕ}

/-- The rounds of the rerun check are moves. -/
theorem reaches_rerunCheck {reading : ℕ} (hreading : reading<st.tick)
    (h : rerunCheck cfg (cfg.clock reading) fuel st=.ok st') : Reaches cfg st st' := by
  induction fuel generalizing st with
  | zero => cases h
  | succ fuel ih =>
    rw [rerunCheck] at h
    split at h
    · cases h
      exact reaches_of_quiet (.refl _)
    · rename_i item hitem
      split at h
      · rename_i hdue
        obtain ⟨st1,hcalls,h⟩ := bind_eq_ok h
        have htick := scheduleRerun_foldlM_tick hcalls
        have hround : Reaches cfg st (pop st1) := by
          refine reaches_of_step (.serve reading) htick fun executions => ?_
          obtain ⟨executions',hcalls'⟩ := reexecute_foldlM hcalls executions
          refine ⟨executions',?_⟩
          show serve cfg reading ⟨st,executions⟩=_
          unfold serve
          dsimp only
          rw [hitem]
          dsimp only
          rw [if_pos ⟨hreading,hdue⟩]
          exact Option.map_eq_some_iff.mpr ⟨_,hcalls',rfl⟩
        exact hround.trans (ih (Nat.lt_of_lt_of_le hreading htick) h)
      · cases h
        exact reaches_of_quiet (.refl _)

theorem reaches_reportTimer (h : reportTimer cfg fuel st=.ok st') : Reaches cfg st st' := by
  obtain ⟨st1,hcheck,h⟩ := bind_eq_ok h
  have hread : Reaches cfg st {st with tick := st.tick+1} :=
    reaches_of_quiet (quiet_frame.tick st)
  have hrounds := hread.trans (reaches_rerunCheck (Nat.lt_succ_self st.tick) hcheck)
  have hstatus : Quiet st1 (updateStatus cfg st1
      (getAvailExecutorNum st1.pool.executorStatusMap)) :=
    quiet_frame.updateStatus (fun _ _ => rfl) st1 _
  exact Except.ok.inj h ▸ hrounds.trans (reaches_of_quiet hstatus)

theorem reaches_answerWaiting (st : SchedState) (key : Str) (size : UInt32) (body : Str) :
    LeadsOr (Reaches cfg) (fun _ _ => True) st id (answerWaiting cfg {st with
      keyLenMap := st.keyLenMap.set key size} key body) := by
  have hservice := reaches_service cfg
  have hset : Reaches cfg st {st with keyLenMap := st.keyLenMap.set key size} :=
    reaches_of_quiet (quiet_of_eq rfl)
  exact ((hservice.answerWaiting (fun _ _ => rfl) (fun _ _ => reaches_of_quiet (quiet_of_eq rfl)) _
    key).after hservice.trans hset).or fun _ _ _ => trivial

theorem reaches_recvExecutor (st : SchedState) (msg : Str) :
    LeadsOr (Reaches cfg) (fun _ _ => True) st id (recvExecutor cfg st msg) := by
  have hservice := reaches_service cfg
  refine hservice.toReadFrame.recvExecutor (fun _ _ _ => trivial) (fun _ _ => rfl)
    (fun _ executorId reqId store key => ?_) (fun _ packing info _ => ?_)
    fun _ executorId reqId packing info => ?_
  · exact (hservice.recvGet (fun _ _ => rfl) (fun _ _ => rfl) (fun _ => rfl)
      (fun _ _ => reaches_of_quiet (quiet_of_eq rfl)) st store key).or fun _ _ _ => trivial
  · refine hservice.recvEphemeral (fun _ _ => rfl) hservice.counted (fun st bk => ?_)
      (fun _ he => by cases he) (fun _ he => by cases he) ((hservice.recordObject
        (fun _ _ _ _ => reaches_of_quiet (quiet_of_eq rfl)) st packing).or fun _ _ _ => trivial)
    exact reaches_of_step (.object bk) (Nat.le_succ st.tick) fun executions => ⟨executions,rfl⟩
  · exact (hservice.recvPersistent (fun _ _ => reaches_of_quiet (quiet_of_eq rfl))
      (fun _ _ _ => rfl) st executorId reqId packing info).or fun _ _ _ => trivial

/-- Every step of the scheduler is a sequence of moves. -/
theorem reaches_step {l : SchedLabel} (h : SchedulerLoop.step cfg st l=some st') :
    Reaches cfg st st' := by
  have hout := SchedulingRules.step_eq_some h
  have hservice := reaches_service cfg
  by_cases hupdate : ∃ msg,l=.update msg
  · obtain ⟨msg,rfl⟩ := hupdate
    have htick : st.tick≤ st'.tick := by
      obtain ⟨w,-,rfl⟩ := update_cases h
      exact Nat.le_succ _
    refine reaches_of_step (.update msg) htick fun executions => ⟨executions,?_⟩
    exact Option.map_eq_some_iff.mpr ⟨st',h,rfl⟩
  · have hleads : LeadsOr (Reaches cfg) (fun _ _ => True) st id (outcome cfg st l) := by
      refine hservice.outcome (fun _ => callOf_aside) (fun _ _ he => by cases he)
        (fun msg he => hupdate ⟨msg,he⟩) (fun msg he => ?_)
        (fun st key size body _ => reaches_answerWaiting st key size body) (fun key he => ?_)
        (fun he => ?_) (fun fuel he => ?_)
      · exact reaches_recvExecutor st msg
      · exact (hservice.recvKvsPut (fun _ _ => rfl) (fun _ _ => reaches_of_quiet (quiet_of_eq rfl)) st
          key).or fun _ _ _ => trivial
      · refine hservice.delayForwarding (fun _ he => by cases he) (fun _ _ => ?_)
          (fun st call => ?_) st
        · exact reaches_of_quiet (quiet_of_eq rfl)
        · exact leadsOr_of_ok fun st' h =>
            reaches_of_quiet ((quiet_frame.forward (fun _ => callOf_forwardEvent) st).ok h)
      · exact leadsOr_of_ok fun st' h => reaches_reportTimer h
    exact hleads.ok hout

/-- The record has the calls of the trace. -/
def Recounts (r : Recorded) : Prop :=
  (r.executions.map fun e => (e.origin,e.call))=r.st.trace.filterMap callOf

theorem recounts_schedule (h : Recounts r) (hs : schedule cfg origin r call=some r') :
    Recounts r' := by
  obtain ⟨hst,hexecutions⟩ := schedule_eq_ok hs
  unfold Recounts at h ⊢
  rw [hexecutions,List.map_append,scheduleFuncCall_calls hst,h]
  rfl

theorem recounts_step {move : Move} (h : Recounts r) (hs : step cfg r move=some r') :
    Recounts r' := by
  cases move with
  | schedule origin call =>
    rw [step] at hs
    split at hs
    · cases hs
    · exact recounts_schedule h hs
  | object bk =>
    cases hs
    exact h
  | update msg =>
    obtain ⟨st1,hst,rfl⟩ := Option.map_eq_some_iff.mp hs
    obtain ⟨w,-,rfl⟩ := update_cases hst
    exact h
  | serve reading =>
    rw [step,serve] at hs
    split at hs
    · cases hs
    · split at hs
      · obtain ⟨r1,hcalls,rfl⟩ := Option.map_eq_some_iff.mp hs
        have hone : ∀ session s s' m,Recounts s → reexecute cfg session s m=some s' → Recounts s' := by
          intro session s s' m hs hs'
          have happ : Recounts ⟨(funcApp s.st m.funcName).2,s.executions⟩ := hs
          exact recounts_schedule happ hs'
        have hall : Recounts r1 := foldlM_invariant (fun s s' m _ => hone _ s s' m) h hcalls
        exact hall
      · cases hs
  | aside change =>
    rw [step] at hs
    split at hs
    · rename_i hquiet
      cases hs
      exact h.trans hquiet.calls.symm
    · cases hs

variable {seed : UInt32}

theorem recounts_run {moves : List Move} {r : Recorded}
    (h : run (step cfg) (start cfg seed) moves=some r) : Recounts r :=
  run_invariant (fun _ _ _ hr hs => recounts_step hr hs) (rfl : Recounts (start cfg seed)) h

variable {labels : List SchedLabel}

/-- The moves of a run of the scheduler. -/
theorem moves_of_run (h : run (SchedulerLoop.step cfg) (SchedState.start cfg seed) labels=some st) :
    ∃ moves r,run (step cfg) (start cfg seed) moves=some r ∧ r.st=st := by
  have hstep : ∀ (s : SchedState) (r : Recorded) (l : SchedLabel) (s' : SchedState),r.st=s →
      SchedulerLoop.step cfg s l=some s' →
        ∃ moves r',run (step cfg) r moves=some r' ∧ r'.st=s' := by
    rintro _ r l s' rfl hs
    obtain ⟨moves,executions',hr⟩ := (reaches_step hs).2 r.executions
    exact ⟨moves,_,hr,rfl⟩
  have hstart : (start cfg seed).st=SchedState.start cfg seed := rfl
  exact run_simulation hstep hstart h

/-- Every run of the scheduler is a run of moves, which records the calls of
its trace. -/
theorem run_moves (h : run (SchedulerLoop.step cfg) (SchedState.start cfg seed) labels=some st) :
    ∃ moves r,run (step cfg) (start cfg seed) moves=some r ∧ r.st=st ∧ Recounts r := by
  obtain ⟨moves,r,hr,hst⟩ := moves_of_run h
  exact ⟨moves,r,hr,hst,recounts_run hr⟩

/-- A worker without executor gets a call. -/
theorem run_moves_call : ∃ (cfg : SchedulerConfig) (labels : List SchedLabel) (st : SchedState)
    (moves : List Move) (r : Recorded),run (SchedulerLoop.step cfg) (.start cfg 1) labels=some st ∧
      run (step cfg) (start cfg 1) moves=some r ∧ r.st=st ∧ r.executions≠[] := by
  let cfg : SchedulerConfig := .sample [] 0 1 fun _ => 0
  have hcomputed : ((run (SchedulerLoop.step cfg) (.start cfg 1)
      [.call ⟨str "app",[⟨str "f",[]⟩],[],[],[],str "s",true⟩]).map fun st =>
        decide (st.trace.filterMap callOf≠[]))=some true := by decide +kernel
  obtain ⟨st,hrun,hcalls⟩ := exists_of_decided hcomputed
  obtain ⟨moves,r,hr,hst,hrecounts⟩ := run_moves hrun
  refine ⟨cfg,_,st,moves,r,hrun,hr,hst,fun hnil => hcalls ?_⟩
  rw [←hst,←hrecounts,hnil]
  rfl

end Pheromone.RerunMoves
