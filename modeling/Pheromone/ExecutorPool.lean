import Pheromone.CommonNames

/-!
# The scheduler's view of its executors

The scheduler keeps a status per executor: 0 empty, 1 available, 2 awaited,
3 busy. A call goes to an available executor of its function or to an empty
one, with sharing to any that is free, at random.
-/

namespace Pheromone.ExecutorPool

open UnorderedContainers CommonNames

/-- What the scheduler is started with. -/
structure SchedConfig where
  /-- Whether executors serve several functions. -/
  sharedExecutor : Bool
  /-- Microseconds a call may wait for a free executor. -/
  schedDelayTime : UInt32
  /-- Whether calls that find no executor are dropped. -/
  rejectExtraReq : Bool
  /-- Random numbers of the C library. -/
  randR : UInt32 → UInt32×UInt32

/-- Executors serve one function each; the first candidate is always chosen. -/
def SchedConfig.sample (schedDelayTime : UInt32) : SchedConfig :=
  ⟨false,schedDelayTime,false,fun seed => (0,seed)⟩

/-- The executors as the scheduler sees them. -/
structure Pool where
  executorStatusMap : UMap UInt8 UInt8
  /-- Executors that have been sent calls of a function. -/
  functionExecutorMap : UMap Str (USet UInt8)
  /-- Seed of the scheduler's random numbers. -/
  seed : UInt32
  deriving DecidableEq

/-- All executors are awaited at the start. -/
def Pool.start (executors : USet UInt8) (seed : UInt32) : Pool :=
  ⟨⟨executors.elems.map fun e => (e,2),by
    rw [List.map_map]
    exact (List.map_id executors.elems).symm ▸ executors.nodup⟩,∅,seed⟩

/-- Number of free executors. -/
def getAvailExecutorNum (m : UMap UInt8 UInt8) : ℕ :=
  (m.entries.filter fun e => decide (e.2=0 ∨ e.2=1)).length

/-- The loop over the executors: the first warm one ends it; before it, the
cold ones are collected. -/
def availExecutors (sharedExecutor : Bool) (owned : USet UInt8) :
    List (UInt8×UInt8) → List UInt8×List UInt8
  | [] => ([],[])
  | (e,status)::rest =>
    if status=1 ∧ e∈owned then ([e],[])
    else
      let found := availExecutors sharedExecutor owned rest
      (found.1,if status=0 ∨ (sharedExecutor=true ∧ status=1) then e::found.2 else found.2)

/-- The executors among which the random choice is made. -/
def candidates (sharedExecutor : Bool) (pool : Pool) (func : Str) : List UInt8 :=
  let found := availExecutors sharedExecutor (pool.functionExecutorMap.getD func ∅)
    pool.executorStatusMap.entries
  if found.1≠[] then found.1 else found.2

/-- Looking for warm executors creates the function's entry as soon as an
available executor is seen. -/
def lookup (pool : Pool) (func : Str) : Pool :=
  if pool.executorStatusMap.entries.any fun e => decide (e.2=1) then
    {pool with functionExecutorMap := pool.functionExecutorMap.touch func ∅}
  else pool

/-- Choose an executor for a function and mark it awaited. -/
def assignExecutor (cfg : SchedConfig) (pool : Pool) (func : Str) : Option (UInt8×Pool) :=
  let found := availExecutors cfg.sharedExecutor (pool.functionExecutorMap.getD func ∅)
    pool.executorStatusMap.entries
  let pool := lookup pool func
  let chosen := if found.1≠[] then found.1 else found.2
  let draw := cfg.randR pool.seed
  match chosen[draw.1.toNat%chosen.length]? with
  | none => none
  | some e =>
    some (e,{pool with
      executorStatusMap := pool.executorStatusMap.set e 2
      functionExecutorMap := if found.1≠[] then pool.functionExecutorMap else
        pool.functionExecutorMap.set func ((pool.functionExecutorMap.getD func ∅).insert e)
      seed := draw.2})

/-- Reports of an executor. -/
inductive Report where
  | busy
  | available
  deriving DecidableEq

/-- The status after a report; one from an empty or awaited executor makes it
empty, whatever call it was about. -/
def Report.status : Report → UInt8 → UInt8
  | .busy,_ => 3
  | .available,status => if status=0 ∨ status=2 then 0 else 1

/-- Handle a report. -/
def recvReport (pool : Pool) (e : UInt8) (r : Report) : Pool :=
  {pool with
    executorStatusMap := pool.executorStatusMap.set e (r.status (pool.executorStatusMap.getD e 0))}

variable {sharedExecutor : Bool} {owned : USet UInt8} {e : UInt8} {l : List (UInt8×UInt8)}

/-- Only free executors are found. -/
theorem status_of_mem_availExecutors
    (h : e∈(availExecutors sharedExecutor owned l).1 ∨ e∈(availExecutors sharedExecutor owned l).2) :
    (e,0)∈l ∨ (e,1)∈l := by
  induction l with
  | nil => simp [availExecutors] at h
  | cons x l ih =>
    obtain ⟨e',status⟩ := x
    rw [availExecutors] at h
    split at h
    · rename_i hw
      simp only [List.mem_singleton,List.not_mem_nil,or_false] at h
      subst h
      rw [hw.1]
      exact Or.inr List.mem_cons_self
    · simp only at h
      have htail : e∈(availExecutors sharedExecutor owned l).1 ∨
          e∈(availExecutors sharedExecutor owned l).2 → (e,0)∈(e',status)::l ∨ (e,1)∈(e',status)::l :=
        fun h => (ih h).imp (List.mem_cons_of_mem _) (List.mem_cons_of_mem _)
      rcases h with h|h
      · exact htail (Or.inl h)
      · split at h
        · rename_i hc
          rcases List.mem_cons.mp h with rfl|h
          · rcases hc with hc|hc
            · rw [hc]
              exact Or.inl List.mem_cons_self
            · rw [hc.2]
              exact Or.inr List.mem_cons_self
          · exact htail (Or.inr h)
        · exact htail (Or.inr h)

variable {pool : Pool} {func : Str}

/-- A candidate is free. -/
theorem status_of_mem_candidates (h : e∈candidates sharedExecutor pool func) :
    pool.executorStatusMap.find? e=some 0 ∨ pool.executorStatusMap.find? e=some 1 := by
  rw [UMap.find?_eq_some_iff,UMap.find?_eq_some_iff]
  apply status_of_mem_availExecutors
  unfold candidates at h
  dsimp only at h
  split at h
  · exact Or.inl h
  · exact Or.inr h

theorem lookup_executorStatusMap (pool : Pool) (func : Str) :
    (lookup pool func).executorStatusMap=pool.executorStatusMap := by
  unfold lookup
  split <;> rfl

variable {cfg : SchedConfig} {pool' : Pool}

/-- An assignment picks a candidate, awaits it and leaves the others alone. -/
theorem assignExecutor_spec (h : assignExecutor cfg pool func=some (e,pool')) :
    e∈candidates cfg.sharedExecutor pool func ∧
      pool'.executorStatusMap=pool.executorStatusMap.set e 2 := by
  unfold assignExecutor at h
  dsimp only at h
  split at h
  · cases h
  · rename_i e' he
    simp only [Option.some.injEq,Prod.mk.injEq] at h
    obtain ⟨rfl,rfl⟩ := h
    refine ⟨List.mem_of_getElem? he,?_⟩
    rw [lookup_executorStatusMap]

/-- There is an assignment as soon as there is a candidate. -/
theorem assignExecutor_isSome_iff :
    (assignExecutor cfg pool func).isSome=true ↔ candidates cfg.sharedExecutor pool func≠[] := by
  unfold assignExecutor candidates
  dsimp only
  generalize (if (availExecutors cfg.sharedExecutor (pool.functionExecutorMap.getD func ∅)
    pool.executorStatusMap.entries).1≠[] then _ else _)=chosen
  cases chosen with
  | nil => simp
  | cons x rest =>
    have hlt : (cfg.randR (lookup pool func).seed).1.toNat%(x::rest).length<(x::rest).length :=
      Nat.mod_lt _ (Nat.succ_pos _)
    rw [List.getElem?_eq_getElem hlt]
    simp

/-- An executor that may take the function makes the loop find one. -/
theorem availExecutors_ne_nil {p : UInt8×UInt8} (hp : p∈l)
    (hfree : p.2=0 ∨ p.2=1 ∧ (sharedExecutor=true ∨ p.1∈owned)) :
    (availExecutors sharedExecutor owned l).1≠[] ∨ (availExecutors sharedExecutor owned l).2≠[] := by
  induction l with
  | nil => cases hp
  | cons x l ih =>
    obtain ⟨e,status⟩ := x
    rw [availExecutors]
    split
    · exact Or.inl (List.cons_ne_nil _ _)
    · rename_i hwarm
      rcases List.mem_cons.mp hp with rfl|hp
      · have hcold : status=0 ∨ (sharedExecutor=true ∧ status=1) := by
          rcases hfree with hzero|⟨hone,hshared|howned⟩
          · exact Or.inl hzero
          · exact Or.inr ⟨hshared,hone⟩
          · exact absurd ⟨hone,howned⟩ hwarm
        dsimp only
        rw [if_pos hcold]
        exact Or.inr (List.cons_ne_nil _ _)
      · refine (ih hp).imp id fun hrest => ?_
        dsimp only
        split
        · exact List.cons_ne_nil _ _
        · exact hrest

/-- An executor that may take the function is enough for an assignment. -/
theorem assignExecutor_of_free {p : UInt8×UInt8} (hp : p∈pool.executorStatusMap.entries)
    (hfree : p.2=0 ∨ p.2=1 ∧ (cfg.sharedExecutor=true ∨ p.1∈pool.functionExecutorMap.getD func ∅)) :
    assignExecutor cfg pool func≠none := by
  rw [←Option.isSome_iff_ne_none,assignExecutor_isSome_iff]
  unfold candidates
  dsimp only
  have hfound := availExecutors_ne_nil hp hfree
  split
  · assumption
  · rename_i hwarm
    exact hfound.resolve_left hwarm

/-- Warm executors are those of the function; cold ones are empty, or free
and shared. -/
theorem mem_availExecutors :
    (e∈(availExecutors sharedExecutor owned l).1 → e∈owned) ∧
      (e∈(availExecutors sharedExecutor owned l).2 → (e,0)∈l ∨ sharedExecutor=true ∧ (e,1)∈l) := by
  induction l with
  | nil => exact ⟨nofun,nofun⟩
  | cons x l ih =>
    obtain ⟨e',status⟩ := x
    rw [availExecutors]
    split
    · rename_i hwarm
      refine ⟨fun he => ?_,nofun⟩
      rw [List.mem_singleton.mp he]
      exact hwarm.2
    · dsimp only
      have hrest : (e,0)∈l ∨ sharedExecutor=true ∧ (e,1)∈l →
          (e,0)∈(e',status)::l ∨ sharedExecutor=true ∧ (e,1)∈(e',status)::l :=
        Or.imp (List.mem_cons_of_mem _) (And.imp_right (List.mem_cons_of_mem _))
      refine ⟨ih.1,fun he => ?_⟩
      split at he
      · rename_i hcold
        rcases List.mem_cons.mp he with rfl|he
        · rcases hcold with hzero|⟨hshared,hone⟩
          · exact Or.inl (hzero ▸ List.mem_cons_self)
          · exact Or.inr ⟨hshared,hone ▸ List.mem_cons_self⟩
        · exact hrest (ih.2 he)
      · exact hrest (ih.2 he)

theorem lookup_functionExecutorMap (pool : Pool) (func func' : Str) :
    (lookup pool func).functionExecutorMap.getD func' ∅=pool.functionExecutorMap.getD func' ∅ := by
  unfold lookup
  split
  · exact UMap.getD_touch _ _ _ _
  · rfl

/-- The chosen executor becomes one of the function; all others keep their
functions. -/
theorem mem_owned_assignExecutor {func' : Str} {e' : UInt8}
    (h : assignExecutor cfg pool func=some (e,pool')) :
    e'∈pool'.functionExecutorMap.getD func' ∅ ↔
      func'=func ∧ e'=e ∨ e'∈pool.functionExecutorMap.getD func' ∅ := by
  rw [←lookup_functionExecutorMap pool func func']
  unfold assignExecutor at h
  dsimp only at h
  split at h
  · cases h
  · rename_i x hchosen
    cases h
    dsimp only
    split
    · rename_i hwarm
      rw [if_pos hwarm] at hchosen
      have howned := mem_availExecutors.1 (List.mem_of_getElem? hchosen)
      refine ⟨Or.inr,fun h => ?_⟩
      rcases h with ⟨rfl,rfl⟩|h
      · rw [lookup_functionExecutorMap]
        exact howned
      · exact h
    · rw [UMap.getD_set]
      split
      · rename_i hsame
        subst hsame
        rw [USet.mem_insert]
        exact or_congr_left ⟨fun h => ⟨rfl,h⟩,And.right⟩
      · rename_i hother
        exact ⟨Or.inr,fun h => h.resolve_left fun hc => hother hc.1⟩

/-- Without sharing, a call goes to an executor of its function or to an
empty one. -/
theorem owned_or_empty_of_assignExecutor (hshared : cfg.sharedExecutor=false)
    (h : assignExecutor cfg pool func=some (e,pool')) :
    e∈pool.functionExecutorMap.getD func ∅ ∨ pool.executorStatusMap.find? e=some 0 := by
  have hmem := (assignExecutor_spec h).1
  unfold candidates at hmem
  dsimp only at hmem
  split at hmem
  · exact Or.inl (mem_availExecutors.1 hmem)
  · rw [UMap.find?_eq_some_iff]
    refine Or.inr ((mem_availExecutors.2 hmem).resolve_right fun hshares => ?_)
    rw [hshared] at hshares
    exact Bool.false_ne_true hshares.1

theorem getAvailExecutorNum_eq_sum (m : UMap UInt8 UInt8) :
    getAvailExecutorNum m=
      (m.entries.map fun p => if p.2=0 ∨ p.2=1 then 1 else 0).sum := by
  unfold getAvailExecutorNum
  induction m.entries with
  | nil => rfl
  | cons p l ih =>
    rw [List.map_cons,List.sum_cons,←ih,List.filter_cons]
    by_cases hfree : p.2=0 ∨ p.2=1
    · rw [if_pos (decide_eq_true hfree),if_pos hfree,List.length_cons,Nat.add_comm]
    · rw [if_neg fun h => hfree (of_decide_eq_true h),if_neg hfree,Nat.zero_add]

/-- An assignment takes one of the free executors. -/
theorem getAvailExecutorNum_assignExecutor (h : assignExecutor cfg pool func=some (e,pool')) :
    getAvailExecutorNum pool'.executorStatusMap+1=getAvailExecutorNum pool.executorStatusMap := by
  obtain ⟨hmem,hstatus⟩ := assignExecutor_spec h
  rw [hstatus,getAvailExecutorNum_eq_sum,getAvailExecutorNum_eq_sum]
  rcases status_of_mem_candidates hmem with hold|hold
  · exact UMap.sum_set (fun status : UInt8 => if status=0 ∨ status=1 then 1 else 0) hold 2
  · exact UMap.sum_set (fun status : UInt8 => if status=0 ∨ status=1 then 1 else 0) hold 2

end Pheromone.ExecutorPool
