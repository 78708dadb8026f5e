import Pheromone.DeadlineQueues
import Pheromone.RerunTimeouts

/-!
# The rounds of the rerun check

Each round serves the first check, whose calls enqueue new ones, and removes
the first. New checks come after all that are due, so the loop ends.
-/

namespace Pheromone.RerunRounds

open UnorderedContainers FaultingRuns CommonNames TriggerPrimitives WorkerUpdates
open SchedulerState Scheduling SchedulerLoop SchedulingRules RerunMoves RerunSlots
open DeadlineQueues GuardedRuns
open RerunTimeouts (secondsConfig secondsConfig_clock_le lateCall)

/-- The checks that are due at a time. -/
def dueChecks (reportEnd : ℤ) (st : SchedState) : List RerunCheckQueueItem :=
  due RerunCheckQueueItem.checkTime reportEnd st.rerunCheckQueue

/-- The checks that are not. -/
def laterChecks (reportEnd : ℤ) (st : SchedState) : List RerunCheckQueueItem :=
  later RerunCheckQueueItem.checkTime reportEnd st.rerunCheckQueue

/-- One round. -/
structure Round where
  /-- The check that is read and whose calls are scheduled. -/
  served : RerunCheckQueueItem
  /-- The checks that these calls enqueue. -/
  pushed : List RerunCheckQueueItem
  /-- The check that is then removed. -/
  popped : Option RerunCheckQueueItem

/-- Schedule the calls of a check. -/
def rescheduled (cfg : SchedulerConfig) (st : SchedState) (item : RerunCheckQueueItem) :
    Outcome SchedState :=
  (outstanding st.tables item.triggerPtr item.session).foldlM (scheduleRerun cfg item.session) st

/-- The completed rounds of the loop from a state and how it ends: no check is
due, or a call of one leaves defined behaviour. -/
inductive Rounds (cfg : SchedulerConfig) (reportEnd : ℤ) :
    SchedState → List Round → Outcome SchedState → Prop
  | stop {st : SchedState}
      (hnone : ∀ item,firstCheck st.rerunCheckQueue=some item → ¬item.checkTime≤ reportEnd) :
      Rounds cfg reportEnd st [] (.ok st)
  | fault {st u : SchedState} {item : RerunCheckQueueItem}
      (hitem : firstCheck st.rerunCheckQueue=some item) (hdue : item.checkTime≤ reportEnd)
      (hcalls : rescheduled cfg st item=.error u) : Rounds cfg reportEnd st [] (.error u)
  | round {st u : SchedState} {item : RerunCheckQueueItem} {pushed : List RerunCheckQueueItem}
      {rounds : List Round} {out : Outcome SchedState}
      (hitem : firstCheck st.rerunCheckQueue=some item) (hdue : item.checkTime≤ reportEnd)
      (hcalls : rescheduled cfg st item=.ok u)
      (hqueue : u.rerunCheckQueue=st.rerunCheckQueue++pushed)
      (hrest : Rounds cfg reportEnd (pop u) rounds out) :
      Rounds cfg reportEnd st (⟨item,pushed,firstCheck u.rerunCheckQueue⟩::rounds) out

variable {cfg : SchedulerConfig} {reportEnd : ℤ} {st st' : SchedState} {rounds : List Round}
  {out : Outcome SchedState}

/-- The loop has the outcome of its rounds as soon as it has a unit of fuel
for each of them and one more. -/
theorem rerunCheck_of_rounds (h : Rounds cfg reportEnd st rounds out) {fuel : ℕ}
    (hfuel : rounds.length<fuel) : rerunCheck cfg reportEnd fuel st=out := by
  induction h generalizing fuel with
  | stop hnone =>
    obtain ⟨fuel,rfl⟩ := Nat.exists_eq_add_one_of_ne_zero (Nat.ne_of_gt hfuel)
    rw [rerunCheck]
    split
    · rfl
    · rename_i item hitem
      rw [if_neg (hnone item hitem)]
  | fault hitem hdue hcalls =>
    obtain ⟨fuel,rfl⟩ := Nat.exists_eq_add_one_of_ne_zero (Nat.ne_of_gt hfuel)
    rw [rescheduled,outstanding] at hcalls
    rw [rerunCheck,hitem]
    dsimp only
    rw [if_pos hdue,hcalls]
    rfl
  | round hitem hdue hcalls _ _ ih =>
    rw [List.length_cons] at hfuel
    obtain ⟨fuel,rfl⟩ := Nat.exists_eq_add_one_of_ne_zero (Nat.ne_of_gt (Nat.zero_lt_of_lt hfuel))
    rw [rescheduled,outstanding] at hcalls
    rw [rerunCheck,hitem]
    dsimp only
    rw [if_pos hdue,hcalls]
    exact ih (by omega)

/-- The clock has been read before, and no check waits less than a
millisecond. -/
structure Timely (cfg : SchedulerConfig) (reading : ℕ) (st : SchedState) : Prop where
  /-- The reading is an earlier one. -/
  read : reading<st.tick
  timeouts : ∀ func,∀ hint∈hintsOf st.tables func,1≤hint.timeout.toNat

/-- Checks are enqueued that are due after a reading of the clock. -/
structure Enqueues (cfg : SchedulerConfig) (reading : ℕ) (st st' : SchedState)
    (pushed : List RerunCheckQueueItem) : Prop where
  /-- The new checks are at the end of the queue. -/
  queue : st'.rerunCheckQueue=st.rerunCheckQueue++pushed
  /-- They are due after the reading. -/
  late : ∀ item∈pushed,cfg.clock reading< item.checkTime
  /-- The clock is not turned back. -/
  tick : st.tick≤ st'.tick
  hints : ∀ func,hintsOf st'.tables func=hintsOf st.tables func

variable {reading : ℕ}

theorem Timely.enqueues {pushed : List RerunCheckQueueItem} (h : Timely cfg reading st)
    (he : Enqueues cfg reading st st' pushed) : Timely cfg reading st' := by
  refine ⟨Nat.lt_of_lt_of_le h.read he.tick,fun func hint hhint => ?_⟩
  rw [he.hints] at hhint
  exact h.timeouts func hint hhint

theorem Enqueues.trans {st'' : SchedState} {pushed pushed' : List RerunCheckQueueItem}
    (h : Enqueues cfg reading st st' pushed) (h' : Enqueues cfg reading st' st'' pushed') :
    Enqueues cfg reading st st'' (pushed++pushed') where
  queue := by rw [h'.queue,h.queue,List.append_assoc]
  late := List.forall_mem_append.mpr ⟨h.late,h'.late⟩
  tick := h.tick.trans h'.tick
  hints func := (h'.hints func).trans (h.hints func)

theorem Enqueues.of_untouched (h : Untouched st st') : Enqueues cfg reading st st' [] where
  queue := by rw [h.rerunCheckQueue,List.append_nil]
  late := List.forall_mem_nil _
  tick := h.tick
  hints func := by rw [hintsOf,hintsOf,h.funcTriggerTimeoutMap]

/-- A call enqueues one check for every hint of its function. -/
theorem noteHints_checks (call : Invocation) (time : ℤ) (st : SchedState) :
    (noteHints call time st).rerunCheckQueue=st.rerunCheckQueue++
        (hintsOf st.tables call.funcName).map (checkOf time call.sessionId) ∧
      ∀ func,hintsOf (noteHints call time st).tables func=hintsOf st.tables func := by
  have hfold : ∀ (hints : List RerunTriggerTimeout) (s : SchedState),
      (hints.foldl (noteHint call time) s).rerunCheckQueue=
          s.rerunCheckQueue++hints.map (checkOf time call.sessionId) ∧
        (hints.foldl (noteHint call time) s).tables.funcTriggerTimeoutMap=
          s.tables.funcTriggerTimeoutMap := by
    intro hints
    induction hints with
    | nil => exact fun s => ⟨(List.append_nil _).symm,rfl⟩
    | cons hint hints ih =>
      intro s
      obtain ⟨hqueue,hmap⟩ := ih (noteHint call time s hint)
      refine ⟨?_,hmap⟩
      rw [List.foldl_cons,hqueue,List.map_cons,noteHint,List.append_assoc]
      rfl
  obtain ⟨hqueue,hmap⟩ := hfold (hintsOf st.tables call.funcName)
    {st with tables := touched st.tables call.funcName}
  refine ⟨hqueue,fun func => ?_⟩
  have htouched := hintsOf_touched st.tables call.funcName func
  rw [hintsOf] at htouched ⊢
  rw [←htouched]
  exact congrArg (fun m : UMap Str (List RerunTriggerTimeout) => m.getD func []) hmap

section Clock

variable (hclock : ∀ m n,m≤n → cfg.clock m≤ cfg.clock n)

include hclock

theorem scheduleFuncCall_enqueues (h : Timely cfg reading st)
    {origin : Origin} {call : Invocation} (hok : scheduleFuncCall cfg origin st call=.ok st') :
    ∃ pushed,Enqueues cfg reading st st' pushed := by
  have hlog : Untouched st (st.log (.scheduled origin call)) := ⟨rfl,rfl,rfl,rfl,rfl,le_refl _⟩
  obtain ⟨u,hu,hcases⟩ := scheduleFuncCall_cases hok
  have hbefore : Enqueues cfg reading st u [] := .of_untouched (hlog.trans hu.toUntouched)
  rcases hcases with ⟨-,rfl⟩|⟨-,rfl⟩
  · exact ⟨[],hbefore⟩
  · obtain ⟨hqueue,hhints⟩ := noteHints_checks call (cfg.clock st.tick) u
    refine ⟨_,hbefore.trans ⟨hqueue,?_,le_of_eq (noteHints_tick _ _ _).symm,hhints⟩⟩
    intro item hitem
    obtain ⟨hint,hhint,rfl⟩ := List.mem_map.mp hitem
    rw [hbefore.hints] at hhint
    have htimeout := h.timeouts call.funcName hint hhint
    have hread := hclock reading st.tick (Nat.le_of_lt h.read)
    show cfg.clock reading<cfg.clock st.tick+hint.timeout.toNat*1000000
    omega

/-- All calls of a check enqueue checks after the reading. -/
theorem foldlM_scheduleRerun_enqueues (h : Timely cfg reading st)
    {session : Session} {calls : List TriggerFunctionMetadata}
    (hok : calls.foldlM (scheduleRerun cfg session) st=.ok st') :
    ∃ pushed,Enqueues cfg reading st st' pushed := by
  induction calls generalizing st with
  | nil =>
    cases hok
    exact ⟨[],.of_untouched (.refl _)⟩
  | cons m calls ih =>
    rw [List.foldlM_cons] at hok
    obtain ⟨st1,hone,hrest⟩ := bind_eq_ok hok
    have happ : Enqueues cfg reading st (funcApp st m.funcName).2 [] :=
      .of_untouched ⟨rfl,rfl,rfl,rfl,rfl,le_refl _⟩
    obtain ⟨pushed,hpushed⟩ := scheduleFuncCall_enqueues hclock (h.enqueues happ) hone
    have hfirst := happ.trans hpushed
    obtain ⟨pushed',hpushed'⟩ := ih (h.enqueues hfirst) hrest
    exact ⟨_,hfirst.trans hpushed'⟩

/-- The state after a round, with what it needs for the next one. -/
theorem round_spec (h : Timely cfg reading st) {u : SchedState} {item : RerunCheckQueueItem}
    (hitem : firstCheck st.rerunCheckQueue=some item)
    (hdue : item.checkTime≤ cfg.clock reading) (hcalls : rescheduled cfg st item=.ok u) :
    ∃ pushed,u.rerunCheckQueue=st.rerunCheckQueue++pushed ∧
      (∀ x∈pushed,cfg.clock reading<x.checkTime) ∧ firstCheck u.rerunCheckQueue=some item ∧
      (pop u).rerunCheckQueue=(st.rerunCheckQueue++pushed).erase item ∧
      Timely cfg reading (pop u) := by
  obtain ⟨pushed,hpushed⟩ := foldlM_scheduleRerun_enqueues hclock h hcalls
  have hfirst : firstCheck u.rerunCheckQueue=some item := by
    rw [hpushed.queue]
    exact firstCheck_append hitem fun x hx => hdue.trans (le_of_lt (hpushed.late x hx))
  have hnext := h.enqueues hpushed
  refine ⟨pushed,hpushed.queue,hpushed.late,hfirst,?_,?_⟩
  · rw [pop_eq hfirst,←hpushed.queue]
  · rw [pop_eq hfirst]
    exact ⟨hnext.read,hnext.timeouts⟩

/-- Every round removes the check it has served, and the rounds drain the
queue. -/
theorem Rounds.drains (h : Rounds cfg (cfg.clock reading) st rounds out) (ht : Timely cfg reading st) :
    (∀ r∈rounds,r.popped=some r.served) ∧
      ∃ queue,Drains RerunCheckQueueItem.checkTime (cfg.clock reading) st.rerunCheckQueue
          (rounds.map fun r => (r.served,r.pushed)) queue ∧
        ∀ st',out=.ok st' → st'.rerunCheckQueue=queue ∧
          ∀ item∈queue,cfg.clock reading< item.checkTime := by
  induction h with
  | @stop st hnone =>
    refine ⟨List.forall_mem_nil _,_,.refl _,fun st' he => ?_⟩
    cases he
    refine ⟨rfl,fun item hitem => ?_⟩
    cases hfirst : firstCheck st.rerunCheckQueue with
    | none =>
      rw [firstCheck_eq_none hfirst] at hitem
      cases hitem
    | some first => exact (not_le.mp (hnone first hfirst)).trans_le (firstCheck_le hfirst item hitem)
  | fault hitem hdue hcalls =>
    refine ⟨List.forall_mem_nil _,_,.refl _,fun st' he => ?_⟩
    cases he
  | @round st u item pushed rounds out hitem hdue hcalls hqueue _ ih =>
    obtain ⟨pushed',hqueue',hlate,hfirst,hpop,htimely⟩ := round_spec hclock ht hitem hdue hcalls
    have hpushed : pushed=pushed' := List.append_cancel_left (hqueue.symm.trans hqueue')
    subst hpushed
    obtain ⟨hpopped,queue,hdrains,hend⟩ := ih htimely
    rw [hpop] at hdrains
    exact ⟨List.forall_mem_cons.mpr ⟨hfirst,hpopped⟩,queue,
      .round (firstCheck_mem hitem) hdue hlate hdrains,hend⟩

theorem exists_rounds (ht : Timely cfg reading st) :
    ∃ rounds out,Rounds cfg (cfg.clock reading) st rounds out := by
  generalize hn : (dueChecks (cfg.clock reading) st).length=n
  induction n using Nat.strong_induction_on generalizing st with
  | _ n ih =>
    by_cases hnone : ∀ item,firstCheck st.rerunCheckQueue=some item →
        ¬item.checkTime≤ cfg.clock reading
    · exact ⟨[],_,.stop hnone⟩
    · push Not at hnone
      obtain ⟨item,hitem,hdue⟩ := hnone
      cases hcalls : rescheduled cfg st item with
      | error u => exact ⟨[],_,.fault hitem hdue hcalls⟩
      | ok u =>
        obtain ⟨pushed,hqueue,hlate,hfirst,hpop,htimely⟩ := round_spec hclock ht hitem hdue hcalls
        have hfewer : (dueChecks (cfg.clock reading) (pop u)).length+1=n := by
          rw [dueChecks,hpop,←hn]
          exact (due_round (firstCheck_mem hitem) hdue hlate).length_eq
        obtain ⟨rounds,out,hrounds⟩ := ih _ (by omega) htimely rfl
        exact ⟨_,out,.round hitem hdue hcalls hqueue hrounds⟩

end Clock

/-- The rerun check ends for all queues and triggers: with fuel for the due
checks the loop has the outcome of its rounds. Every round removes the check
that it has served, no check is served twice, and if the calls stay within
defined behaviour exactly the checks are served that were due at the start;
the others and all new ones remain. -/
theorem rerun_check_serves_due (cfg : SchedulerConfig)
    (hclock : ∀ m n,m≤n → cfg.clock m≤ cfg.clock n) (st : SchedState)
    (htimeouts : ∀ func,∀ hint∈hintsOf st.tables func,1≤hint.timeout.toNat) :
    ∃ rounds out,Rounds cfg (readClock cfg st).1 (readClock cfg st).2 rounds out ∧
      (∀ fuel,(dueChecks (readClock cfg st).1 st).length<fuel →
        rerunCheck cfg (readClock cfg st).1 fuel (readClock cfg st).2=out) ∧
      (∀ r∈rounds,r.popped=some r.served) ∧
      (rounds.map Round.served).Subperm (dueChecks (readClock cfg st).1 st) ∧
      ∀ st',out=.ok st' →
        (rounds.map Round.served).Perm (dueChecks (readClock cfg st).1 st) ∧
        st'.rerunCheckQueue.Perm
          (laterChecks (readClock cfg st).1 st++rounds.flatMap Round.pushed) := by
  have ht : Timely cfg st.tick (readClock cfg st).2 := ⟨Nat.lt_succ_self _,htimeouts⟩
  obtain ⟨rounds,out,hrounds⟩ := exists_rounds hclock ht
  obtain ⟨hpopped,queue,hdrains,hend⟩ := Rounds.drains hclock hrounds ht
  have hserved := hdrains.served
  have hkept := hdrains.kept
  rw [List.map_map] at hserved
  rw [List.flatMap_map] at hkept
  have hsub : (rounds.map Round.served).Subperm (dueChecks (readClock cfg st).1 st) :=
    (List.sublist_append_left _ _).subperm.trans hserved.subperm
  refine ⟨rounds,out,hrounds,fun fuel hfuel => ?_,hpopped,hsub,fun st' he => ?_⟩
  · apply rerunCheck_of_rounds hrounds
    have hlength := hsub.length_le
    rw [List.length_map] at hlength
    exact Nat.lt_of_le_of_lt hlength hfuel
  · obtain ⟨hqueue,hlate⟩ := hend st' he
    rw [due_eq_nil hlate,List.append_nil] at hserved
    rw [later_eq_self hlate] at hkept
    rw [hqueue]
    exact ⟨hserved,hkept⟩

/-- The check of a call whose object does not come is served, and the call
that is executed again has a new one. -/
theorem rerun_check_serves_due_late : ∃ r rounds st',
    run (RerunMoves.step secondsConfig) (start secondsConfig 1) (lateCall.take 4)=some r ∧
    Rounds secondsConfig (readClock secondsConfig r.st).1 (readClock secondsConfig r.st).2 rounds
      (.ok st') ∧
    rounds.map Round.served=[⟨2000000000,str "0123456789abcdef",0⟩] ∧
    (∀ r∈rounds,r.popped=some r.served) ∧
    st'.rerunCheckQueue=[⟨4000000000,str "0123456789abcdef",0⟩] := by
  have hcomputed : ((run (RerunMoves.step secondsConfig) (start secondsConfig 1) (lateCall.take 4)).map
      fun r => decide (r.st.tables.funcTriggerTimeoutMap=UMap.set ∅ (str "f") [⟨0,1000⟩] ∧
        dueChecks (readClock secondsConfig r.st).1 r.st=[⟨2000000000,str "0123456789abcdef",0⟩] ∧
        (rerunCheck secondsConfig (readClock secondsConfig r.st).1 2
            (readClock secondsConfig r.st).2).toOption.map SchedState.rerunCheckQueue=
          some [⟨4000000000,str "0123456789abcdef",0⟩]))=some true := by
    decide +kernel
  obtain ⟨r,hr,hhints,hdue,hend⟩ := exists_of_decided hcomputed
  have htimeouts : ∀ func,∀ hint∈hintsOf r.st.tables func,1≤hint.timeout.toNat := by
    intro func hint hhint
    rw [hintsOf,hhints,UMap.getD_set] at hhint
    split at hhint
    · rw [List.mem_singleton.mp hhint]
      decide
    · cases hhint
  obtain ⟨rounds,out,hrounds,hfuel,hpopped,-,hserved⟩ :=
    rerun_check_serves_due secondsConfig secondsConfig_clock_le r.st htimeouts
  rw [hfuel 2 (by rw [hdue]; decide)] at hend
  cases out with
  | error u => cases hend
  | ok st' =>
    obtain ⟨hperm,-⟩ := hserved st' rfl
    rw [hdue] at hperm
    exact ⟨r,rounds,st',hr,hrounds,List.perm_singleton.mp hperm,hpopped,Option.some.inj hend⟩

end Pheromone.RerunRounds
