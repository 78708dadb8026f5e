import Pheromone.ExecutorNetwork

/-!
# Isolation of functions on executors

Without sharing an executor serves one function, unless a report that it is
alive, received while it is awaited, makes it empty again.
-/

namespace Pheromone.ExecutorIsolation

open UnorderedContainers GuardedRuns CommonNames ExecutorPool ExecutorNetwork

/-- Every executor is listed for at most one function. -/
def Isolated (pool : Pool) : Prop :=
  ∀ e f g,e∈pool.functionExecutorMap.getD f ∅ → e∈pool.functionExecutorMap.getD g ∅ → f=g

/-- The call that a step sends, with its executor. -/
def sentCall? (cfg : SchedConfig) (s : ExecNet) : Label → Option (Str×UInt8)
  | .schedule func => (assignExecutor cfg s.pool func).map fun r => (func,r.1)
  | _ => none

/-- The calls that are sent along a run. -/
def sentCalls (cfg : SchedConfig) : ExecNet → List Label → List (Str×UInt8)
  | _,[] => []
  | s,a::l => (sentCall? cfg s a).toList++((step cfg s a).map fun s' => sentCalls cfg s' l).getD []

/-- No report that an executor is available is received while the executor
is awaited and has been sent calls. -/
def Punctual (s : ExecNet) : Label → Prop
  | .report e => (s.reports e).head?=some .available →
    s.pool.executorStatusMap.find? e=some 2 → ∀ p∈s.pool.functionExecutorMap.entries,e∉p.2
  | _ => True

instance (s : ExecNet) : (l : Label) → Decidable (Punctual s l)
  | .report _ => inferInstanceAs (Decidable (_ → _))
  | .schedule _ | .take _ | .finish _ | .timer _ => isTrue trivial

/-- Executors serve one function each, and those that serve one are not
empty. -/
structure Separate (pool : Pool) : Prop where
  isolated : Isolated pool
  /-- Used executors are not empty. -/
  used : ∀ e f,e∈pool.functionExecutorMap.getD f ∅ →
    ∃ status,pool.executorStatusMap.find? e=some status ∧ status≠0

section

variable {cfg : SchedConfig} {pool pool' : Pool} {func : Str} {e : UInt8}

theorem Separate.lookup (h : Separate pool) (func : Str) : Separate (lookup pool func) where
  isolated e f g hf hg := by
    rw [lookup_functionExecutorMap] at hf hg
    exact h.isolated e f g hf hg
  used e f hf := by
    rw [lookup_functionExecutorMap] at hf
    rw [lookup_executorStatusMap]
    exact h.used e f hf

/-- A call goes to an executor of its function, or to one without. -/
theorem Separate.assign (h : Separate pool) (hshared : cfg.sharedExecutor=false)
    (ha : assignExecutor cfg pool func=some (e,pool')) : Separate pool' := by
  have hown : ∀ f,e∈pool.functionExecutorMap.getD f ∅ → f=func := by
    intro f hf
    rcases owned_or_empty_of_assignExecutor hshared ha with hwarm|hempty
    · exact h.isolated e f func hf hwarm
    · obtain ⟨status,hstatus,hne⟩ := h.used e f hf
      rw [hempty] at hstatus
      exact absurd (Option.some.inj hstatus).symm hne
  constructor
  · intro e' f g hf hg
    rcases (mem_owned_assignExecutor ha).mp hf with ⟨rfl,rfl⟩|hf
    · rcases (mem_owned_assignExecutor ha).mp hg with ⟨rfl,-⟩|hg
      · rfl
      · exact (hown g hg).symm
    · rcases (mem_owned_assignExecutor ha).mp hg with ⟨rfl,rfl⟩|hg
      · exact hown f hf
      · exact h.isolated e' f g hf hg
  · intro e' f hf
    rw [(assignExecutor_spec ha).2,UMap.find?_set]
    split
    · exact ⟨2,rfl,by decide⟩
    · rename_i hother
      rcases (mem_owned_assignExecutor ha).mp hf with ⟨-,rfl⟩|hf
      · exact absurd rfl hother
      · exact h.used e' f hf

/-- A punctual report does not make a used executor empty. -/
theorem Separate.report (h : Separate pool) (r : Report)
    (hr : r=.available → pool.executorStatusMap.find? e=some 2 →
      ∀ f,e∉pool.functionExecutorMap.getD f ∅) : Separate (recvReport pool e r) := by
  refine ⟨h.isolated,fun e' f hf => ?_⟩
  obtain ⟨status,hstatus,hne⟩ := h.used e' f hf
  show ∃ status,(pool.executorStatusMap.set e _).find? e'=some status ∧ status≠0
  rw [UMap.find?_set]
  split
  · rename_i hsame
    subst hsame
    refine ⟨_,rfl,?_⟩
    rw [UMap.getD,hstatus,Option.getD_some]
    cases r with
    | busy => exact (by decide : (3 : UInt8)≠0)
    | available =>
      have htwo : status≠2 := fun htwo => hr rfl (htwo ▸ hstatus) f hf
      rw [Report.status,if_neg (not_or.mpr ⟨hne,htwo⟩)]
      decide
  · exact ⟨status,hstatus,hne⟩

end

variable {e : UInt8} {f : Str}

/-- What is listed for a function is in an entry. -/
theorem mem_entry_of_owned {m : UMap Str (USet UInt8)} (h : e∈m.getD f ∅) :
    ∃ p∈m.entries,e∈p.2 := by
  unfold UMap.getD at h
  cases hf : m.find? f with
  | none =>
    rw [hf] at h
    exact absurd h (USet.not_mem_empty e)
  | some s =>
    rw [hf] at h
    exact ⟨(f,s),UMap.find?_eq_some_iff.mp hf,h⟩

variable {cfg : SchedConfig} {s s' : ExecNet} {l : Label}

theorem separate_step (hshared : cfg.sharedExecutor=false) (h : Separate s.pool)
    (hok : Punctual s l) (hs : step cfg s l=some s') : Separate s'.pool := by
  obtain ⟨func,-,rfl⟩|⟨func,e,pool,-,ha,rfl⟩|⟨e,func,rest,-,-,-,rfl⟩|⟨e,-,-,rfl⟩|⟨e,-,-,rfl⟩|
    ⟨e,r,rest,rfl,hrep,rfl⟩ := step_cases hs
  · exact h.lookup func
  · exact h.assign hshared ha
  · exact h
  · exact h
  · exact h
  · refine h.report r fun hr htwo f hf => ?_
    obtain ⟨p,hp,he⟩ := mem_entry_of_owned hf
    refine hok ?_ htwo p hp he
    rw [hrep,hr]
    rfl

/-- Executors stay listed for the functions whose calls they were sent. -/
theorem owned_step (h : e∈s.pool.functionExecutorMap.getD f ∅) (hs : step cfg s l=some s') :
    e∈s'.pool.functionExecutorMap.getD f ∅ := by
  obtain ⟨func,-,rfl⟩|⟨func,e',pool,-,ha,rfl⟩|⟨e',func,rest,-,-,-,rfl⟩|⟨e',-,-,rfl⟩|⟨e',-,-,rfl⟩|
    ⟨e',r,rest,-,-,rfl⟩ := step_cases hs
  · show e∈(lookup s.pool func).functionExecutorMap.getD f ∅
    rw [lookup_functionExecutorMap]
    exact h
  · exact (mem_owned_assignExecutor ha).mpr (Or.inr h)
  · exact h
  · exact h
  · exact h
  · exact h

theorem owned_of_sentCall {a : Label} (h : sentCall? cfg s a=some (f,e)) (hs : step cfg s a=some s') :
    e∈s'.pool.functionExecutorMap.getD f ∅ := by
  cases a with
  | schedule func =>
    obtain ⟨r,hassign,hpair⟩ := Option.map_eq_some_iff.mp h
    cases hpair
    rw [step,hassign] at hs
    cases hs
    exact (mem_owned_assignExecutor hassign).mpr (Or.inl ⟨rfl,rfl⟩)
  | take _ => cases h
  | finish _ => cases h
  | timer _ => cases h
  | report _ => cases h

theorem owned_of_sentCalls {l : List Label} (h : (f,e)∈sentCalls cfg s l)
    (hr : run (step cfg) s l=some s') : e∈s'.pool.functionExecutorMap.getD f ∅ := by
  induction l generalizing s with
  | nil => cases h
  | cons a l ih =>
    obtain ⟨s1,ha,hrest⟩ := run_cons_eq_some.mp hr
    rw [sentCalls,ha] at h
    rcases List.mem_append.mp h with hfirst|hlater
    · refine run_invariant (fun _ _ _ => owned_step) (owned_of_sentCall ?_ ha) hrest
      exact Option.mem_toList.mp hfirst
    · exact ih hlater hrest

/-- Without sharing, in every run with punctual reports every executor is
listed for and has been sent calls of at most one function. -/
theorem one_function_per_executor (cfg : SchedConfig) (hshared : cfg.sharedExecutor=false)
    (executors : USet UInt8) (seed : UInt32) (l : List Label)
    (hmeet : StepsMeet (step cfg) Punctual (ExecNet.start executors seed) l) (s : ExecNet)
    (hr : run (step cfg) (ExecNet.start executors seed) l=some s) :
    Isolated s.pool ∧ ∀ e f g,(f,e)∈sentCalls cfg (ExecNet.start executors seed) l →
      (g,e)∈sentCalls cfg (ExecNet.start executors seed) l → f=g := by
  have hstart : Separate (ExecNet.start executors seed).pool := by
    refine ⟨fun e f g hf => ?_,fun e f hf => ?_⟩
    · exact absurd hf (USet.not_mem_empty e)
    · exact absurd hf (USet.not_mem_empty e)
  have hsep : Separate s.pool := run_invariant_of_steps
    (fun s a s' h hok hs => separate_step hshared h hok hs) hstart hmeet hr
  refine ⟨hsep.isolated,fun e f g hf hg => ?_⟩
  exact hsep.isolated e f g (owned_of_sentCalls hf hr) (owned_of_sentCalls hg hr)

/-- Two executors report, get calls of two functions, and the first one gets
another call when it has finished. -/
def twoFunctions : List Label :=
  [.timer 0,.report 0,.timer 1,.report 1,.schedule (str "f"),.schedule (str "g"),.take 0,.take 1,
    .report 0,.report 1,.finish 0,.report 0,.schedule (str "f")]

/-- The timed reports of the executors are received before calls are sent. -/
theorem one_function_per_executor_timely : ∃ s,
    run (step (.sample 0)) (ExecNet.start (USet.ofList [0,1]) 1) twoFunctions=some s ∧
      sentCalls (.sample 0) (ExecNet.start (USet.ofList [0,1]) 1) twoFunctions=
        [(str "f",0),(str "g",1),(str "f",0)] ∧
      Isolated s.pool := by
  refine ⟨_,rfl,by decide +kernel,(one_function_per_executor (.sample 0) rfl (USet.ofList [0,1]) 1
    twoFunctions ?_ _ rfl).1⟩
  decide +kernel

/-- A report that crosses the first call makes the executor empty, and it is
sent a call of another function. -/
theorem executor_serves_two_functions : ∃ s,
    run (step (.sample 0)) (ExecNet.start (USet.ofList [0]) 1) crossingRun=some s ∧
      sentCalls (.sample 0) (ExecNet.start (USet.ofList [0]) 1) crossingRun=
        [(str "f",0),(str "g",0)] ∧ ¬Isolated s.pool := by
  refine ⟨_,rfl,by decide +kernel,fun h => ?_⟩
  have hsame : str "f"=str "g" := h 0 _ _ (by decide +kernel) (by decide +kernel)
  exact absurd hsame (by decide)

end Pheromone.ExecutorIsolation
