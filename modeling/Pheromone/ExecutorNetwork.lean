import Pheromone.GuardedRuns
import Pheromone.ExecutorPool
import Mathlib.Logic.Function.Basic

/-!
# Scheduler and executors exchange calls and reports

Executors report when they take a call, are done with it, or are alive. If no
report of the last kind crosses a call, each has at most one unfinished call.
-/

namespace Pheromone.ExecutorNetwork

open UnorderedContainers GuardedRuns CommonNames ExecutorPool

/-- Scheduler, executors and their channels. -/
structure ExecNet where
  /-- The scheduler's view. -/
  pool : Pool
  /-- Calls on the way to an executor, oldest first, by function. -/
  calls : UInt8 → List Str
  /-- Whether an executor is in the middle of a call. -/
  running : UInt8 → Bool
  /-- Reports on the way to the scheduler, oldest first. -/
  reports : UInt8 → List Report

/-- One step of the scheduler or of an executor. -/
inductive Label where
  | schedule (func : Str)
  | take (e : UInt8)
  | finish (e : UInt8)
  | timer (e : UInt8)
  | report (e : UInt8)
  deriving DecidableEq

/-- Nothing under way, all executors awaited. -/
def ExecNet.start (executors : USet UInt8) (seed : UInt32) : ExecNet :=
  ⟨Pool.start executors seed,fun _ => [],fun _ => false,fun _ => []⟩

/-- An executor sends a report. -/
def ExecNet.send (s : ExecNet) (e : UInt8) (r : Report) : ExecNet :=
  {s with reports := Function.update s.reports e (s.reports e++[r])}

/-- The step function. A call that finds no executor is delayed, forwarded or
dropped elsewhere. An executor reports that it is alive between two calls,
also when one has arrived that it has not taken yet. -/
def step (cfg : SchedConfig) (s : ExecNet) : Label → Option ExecNet
  | .schedule func => match assignExecutor cfg s.pool func with
    | none => some {s with pool := lookup s.pool func}
    | some (e,pool) =>
      some {s with pool := pool,calls := Function.update s.calls e (s.calls e++[func])}
  | .take e => match s.running e,s.calls e with
    | false,_::rest => some ({s with
        calls := Function.update s.calls e rest
        running := Function.update s.running e true}.send e .busy)
    | _,_ => none
  | .finish e => if s.running e=true then
      some ({s with running := Function.update s.running e false}.send e .available)
    else none
  | .timer e => if s.running e=false ∧ s.pool.executorStatusMap.contains e=true then
      some (s.send e .available)
    else none
  | .report e => match s.reports e with
    | [] => none
    | r::rest => some {s with
        pool := recvReport s.pool e r
        reports := Function.update s.reports e rest}

variable {cfg : SchedConfig} {s s' : ExecNet} {l : Label}

/-- Everything one step can do. -/
theorem step_cases (h : step cfg s l=some s') :
    (∃ func,l=.schedule func ∧ s'={s with pool := lookup s.pool func}) ∨
    (∃ func e pool,l=.schedule func ∧ assignExecutor cfg s.pool func=some (e,pool) ∧
      s'={s with pool := pool,calls := Function.update s.calls e (s.calls e++[func])}) ∨
    (∃ e func rest,l=.take e ∧ s.running e=false ∧ s.calls e=func::rest ∧
      s'={s with
        calls := Function.update s.calls e rest
        running := Function.update s.running e true}.send e .busy) ∨
    (∃ e,l=.finish e ∧ s.running e=true ∧
      s'={s with running := Function.update s.running e false}.send e .available) ∨
    (∃ e,l=.timer e ∧ s.running e=false ∧ s'=s.send e .available) ∨
    (∃ e r rest,l=.report e ∧ s.reports e=r::rest ∧ s'={s with
      pool := recvReport s.pool e r
      reports := Function.update s.reports e rest}) := by
  cases l with
  | schedule func =>
    simp only [step] at h
    split at h
    · exact Or.inl ⟨func,rfl,(Option.some.inj h).symm⟩
    · rename_i e pool ha
      exact Or.inr (Or.inl ⟨func,e,pool,rfl,ha,(Option.some.inj h).symm⟩)
  | take e =>
    simp only [step] at h
    split at h
    · rename_i func rest hrun hcalls
      exact Or.inr (Or.inr (Or.inl ⟨e,func,rest,rfl,hrun,hcalls,(Option.some.inj h).symm⟩))
    · cases h
  | finish e =>
    simp only [step] at h
    split at h
    · rename_i hrun
      exact Or.inr (Or.inr (Or.inr (Or.inl ⟨e,rfl,hrun,(Option.some.inj h).symm⟩)))
    · cases h
  | timer e =>
    simp only [step] at h
    split at h
    · rename_i hrun
      exact Or.inr (Or.inr (Or.inr (Or.inr (Or.inl ⟨e,rfl,hrun.1,(Option.some.inj h).symm⟩))))
    · cases h
  | report e =>
    simp only [step] at h
    split at h
    · cases h
    · rename_i r rest hr
      exact Or.inr (Or.inr (Or.inr (Or.inr (Or.inr ⟨e,r,rest,rfl,hr,(Option.some.inj h).symm⟩))))

/-- Calls sent to an executor that it has not finished. -/
def unfinished (s : ExecNet) (e : UInt8) : ℕ :=
  (s.calls e).length+if s.running e=true then 1 else 0

/-- What a step has to respect: a call is scheduled while no executor it may
go to has an availability report under way, and an executor does not report
that it is alive while a call waits for it. -/
def OnTime (cfg : SchedConfig) (s : ExecNet) : Label → Prop
  | .schedule func => ∀ e∈candidates cfg.sharedExecutor s.pool func,Report.available∉s.reports e
  | .timer e => s.calls e=[]
  | _ => True

instance (cfg : SchedConfig) (s : ExecNet) (l : Label) : Decidable (OnTime cfg s l) :=
  match l with
  | .schedule func => inferInstanceAs (Decidable (∀ e∈candidates cfg.sharedExecutor s.pool func,
      Report.available∉s.reports e))
  | .timer e => inferInstanceAs (Decidable (s.calls e=[]))
  | .take _ => isTrue trivial
  | .finish _ => isTrue trivial
  | .report _ => isTrue trivial

/-- The phases of an executor: free, with any reports that end in an
availability; awaited, with one call and no report; or in the middle of a
call whose report is under way or known. -/
inductive Phase (s : ExecNet) (e : UInt8) : Prop where
  | free (hc : s.calls e=[]) (hr : s.running e=false)
      (hq : s.reports e=[] ∨ (s.reports e).getLast?=some .available)
  | awaited (func : Str) (hc : s.calls e=[func]) (hr : s.running e=false) (hq : s.reports e=[])
      (hs : s.pool.executorStatusMap.find? e=some 2)
  | taken (hc : s.calls e=[]) (hr : s.running e=true) (hq : s.reports e=[.busy])
      (hs : s.pool.executorStatusMap.find? e=some 2)
  | busy (hc : s.calls e=[]) (hr : s.running e=true) (hq : s.reports e=[])
      (hs : s.pool.executorStatusMap.find? e=some 3)

variable {e : UInt8}

/-- In every phase there is at most one unfinished call. -/
theorem Phase.unfinished_le (h : Phase s e) : unfinished s e≤1 := by
  unfold unfinished
  cases h with
  | free hc hr _ => simp [hc,hr]
  | awaited _ hc hr _ _ => simp [hc,hr]
  | taken hc hr _ _ => simp [hc,hr]
  | busy hc hr _ _ => simp [hc,hr]

/-- A phase depends only on what concerns the executor. -/
theorem Phase.congr (h : Phase s e) (hc : s'.calls e=s.calls e) (hr : s'.running e=s.running e)
    (hq : s'.reports e=s.reports e)
    (hs : s'.pool.executorStatusMap.find? e=s.pool.executorStatusMap.find? e) : Phase s' e := by
  cases h with
  | free h1 h2 h3 => exact .free (hc.trans h1) (hr.trans h2) (by rwa [hq])
  | awaited func h1 h2 h3 h4 =>
    exact .awaited func (hc.trans h1) (hr.trans h2) (hq.trans h3) (hs.trans h4)
  | taken h1 h2 h3 h4 => exact .taken (hc.trans h1) (hr.trans h2) (hq.trans h3) (hs.trans h4)
  | busy h1 h2 h3 h4 => exact .busy (hc.trans h1) (hr.trans h2) (hq.trans h3) (hs.trans h4)

theorem Phase.free_of_candidate {func : Str} (h : Phase s e)
    (he : e∈candidates cfg.sharedExecutor s.pool func) :
    s.calls e=[] ∧ s.running e=false ∧
      (s.reports e=[] ∨ (s.reports e).getLast?=some .available) := by
  have hs := status_of_mem_candidates he
  cases h with
  | free hc hr hq => exact ⟨hc,hr,hq⟩
  | awaited _ _ _ _ h2 => rw [h2] at hs; simp at hs
  | taken _ _ _ h2 => rw [h2] at hs; simp at hs
  | busy _ _ _ h3 => rw [h3] at hs; simp at hs

/-- A timely step keeps every executor in one of the phases. -/
theorem phase_step (h : ∀ e,Phase s e) (hok : OnTime cfg s l) (hs : step cfg s l=some s') :
    ∀ e,Phase s' e := by
  intro x
  obtain ⟨func,-,rfl⟩|⟨func,e,pool,rfl,ha,rfl⟩|⟨e,func,rest,-,hrun,hcalls,rfl⟩|⟨e,-,hrun,rfl⟩|
    ⟨e,rfl,hrun,rfl⟩|⟨e,r,rest,-,hrep,rfl⟩ := step_cases hs
  · exact (h x).congr rfl rfl rfl (by rw [lookup_executorStatusMap])
  · obtain ⟨hcand,hpool⟩ := assignExecutor_spec ha
    by_cases hx : x=e
    · subst hx
      obtain ⟨hc,hr,hq⟩ := (h x).free_of_candidate hcand
      have hnil : s.reports x=[] := by
        refine hq.resolve_right fun hl => ?_
        exact hok x hcand (List.mem_of_getLast? hl)
      refine .awaited func ?_ hr hnil ?_
      · simp [hc]
      · simp [hpool]
    · refine (h x).congr ?_ rfl rfl ?_
      · simp [hx]
      · simp [hpool,UMap.find?_set_of_ne _ hx]
  · by_cases hx : x=e
    · subst hx
      cases h x with
      | free hc _ _ => rw [hc] at hcalls; cases hcalls
      | awaited func' hc _ hq h2 =>
        rw [hc] at hcalls
        obtain ⟨-,rfl⟩ := List.cons.inj hcalls
        exact .taken (by simp [ExecNet.send]) (by simp [ExecNet.send])
          (by simp [ExecNet.send,hq]) h2
      | taken hc _ _ _ => rw [hc] at hcalls; cases hcalls
      | busy hc _ _ _ => rw [hc] at hcalls; cases hcalls
    · exact (h x).congr (by simp [ExecNet.send,hx]) (by simp [ExecNet.send,hx])
        (by simp [ExecNet.send,hx]) rfl
  · by_cases hx : x=e
    · subst hx
      have hc : s.calls x=[] := by
        cases h x with
        | free hc _ _ => exact hc
        | awaited _ _ hr _ _ => rw [hr] at hrun; cases hrun
        | taken hc _ _ _ => exact hc
        | busy hc _ _ _ => exact hc
      exact .free hc (by simp [ExecNet.send]) (Or.inr (by simp [ExecNet.send]))
    · exact (h x).congr rfl (by simp [ExecNet.send,hx]) (by simp [ExecNet.send,hx]) rfl
  · by_cases hx : x=e
    · subst hx
      exact .free hok hrun (Or.inr (by simp [ExecNet.send]))
    · exact (h x).congr rfl rfl (by simp [ExecNet.send,hx]) rfl
  · by_cases hx : x=e
    · subst hx
      cases h x with
      | free hc hr hq =>
        refine .free hc hr ?_
        simp only [Function.update_self]
        rw [hrep] at hq
        rcases hq with hq|hq
        · cases hq
        · cases rest with
          | nil => exact Or.inl rfl
          | cons r' rest => exact Or.inr (by rwa [List.getLast?_cons_cons] at hq)
      | awaited _ _ _ hq _ => rw [hq] at hrep; cases hrep
      | taken hc hr hq h2 =>
        rw [hq] at hrep
        obtain ⟨rfl,rfl⟩ := List.cons.inj hrep
        exact .busy hc hr (by simp) (by simp [recvReport,Report.status])
      | busy _ _ hq _ => rw [hq] at hrep; cases hrep
    · exact (h x).congr rfl rfl (by simp [hx]) (by simp [recvReport,UMap.find?_set_of_ne _ hx])

/-- In every run whose steps are on time, every executor has at most one
unfinished call, and a call is only ever sent to one without. -/
theorem one_call_per_executor_of_onTime (cfg : SchedConfig) (executors : USet UInt8)
    (seed : UInt32) (l : List Label) {s : ExecNet}
    (hr : run (step cfg) (ExecNet.start executors seed) l=some s)
    (hg : StepsMeet (step cfg) (OnTime cfg) (ExecNet.start executors seed) l) :
    (∀ e,unfinished s e≤1) ∧
      ∀ func e pool,assignExecutor cfg s.pool func=some (e,pool) → unfinished s e=0 := by
  have h : ∀ e,Phase s e := run_invariant_of_steps (fun _ _ _ => phase_step)
    (fun e => Phase.free rfl rfl (Or.inl rfl)) hg hr
  refine ⟨fun e => (h e).unfinished_le,?_⟩
  intro func e pool ha
  obtain ⟨hc,hrun,-⟩ := (h e).free_of_candidate (assignExecutor_spec ha).1
  simp [unfinished,hc,hrun]

/-- The executor reports, gets a call, runs and finishes it and gets another. -/
def timelyRun : List Label :=
  [.timer 0,.report 0,.schedule (str "f"),.take 0,.report 0,.finish 0,.report 0,
    .schedule (str "f")]

theorem one_call_per_executor_of_onTime_timely : ∃ s,
    run (step (.sample 0)) (ExecNet.start (USet.ofList [0]) 1) timelyRun=some s ∧
    s.calls 0=[str "f"] ∧ (∀ e,unfinished s e≤1) ∧
      ∀ func e pool,assignExecutor (.sample 0) s.pool func=some (e,pool) → unfinished s e=0 := by
  refine ⟨_,rfl,rfl,one_call_per_executor_of_onTime (.sample 0) (USet.ofList [0]) 1 timelyRun rfl ?_⟩
  decide +kernel

/-- The second of two reports crosses a call. -/
def crossingRun : List Label :=
  [.timer 0,.report 0,.timer 0,.schedule (str "f"),.report 0,.schedule (str "g")]

/-- The executor is sent a second call before it has taken the first. -/
theorem two_calls_to_one_executor : ∃ s,
    run (step (.sample 0)) (ExecNet.start (USet.ofList [0]) 1) crossingRun=some s ∧
    unfinished s 0=2 := ⟨_,rfl,by decide⟩

end Pheromone.ExecutorNetwork
