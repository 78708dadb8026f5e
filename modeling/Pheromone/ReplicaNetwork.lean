import Pheromone.GuardedRuns
import Mathlib.Logic.Function.Basic
import Mathlib.Data.Finset.Basic
import Mathlib.Data.List.Perm.Subperm

/-!
# A star network of replicated collectors

A put runs the leaf's replica, fires what it produces and reports the object,
with a mark if it fired. The center runs its own on every report, skips what a
marked one produces, and otherwise fires it and clears the leaves. Links are
first-in first-out; their histories are part of the state.
-/

namespace Pheromone.ReplicaNetwork

/-- A collector: what an arrival does and produces, and what a clear does. -/
structure Replica (σ ω α ς : Type*) where
  /-- New state and produced actions of an arrival. -/
  arrive : σ → ω → σ×List α
  /-- State after a clear of one session. -/
  clear : σ → ς → σ
  /-- Session of an object. -/
  session : ω → ς

/-- The state of the whole network. -/
structure Net (ι σ ω α ς : Type*) where
  /-- Replica of every leaf. -/
  leaf : ι → σ
  /-- Replica of the center. -/
  center : σ
  /-- Reports on the way to the center, oldest first. -/
  up : ι → List (ω×Bool)
  /-- Clears on the way to a leaf, oldest first. -/
  down : ι → List ς
  /-- Leaves the center has heard of. -/
  known : Finset ι
  /-- Fired actions with the leaf that fired, none for the center. -/
  fired : List (Option ι×α)
  /-- Actions the center produced and skipped. -/
  skipped : List α
  /-- All reports ever sent. -/
  sent : List (ι×ω×Bool)
  /-- All reports the center has consumed. -/
  delivered : List (ι×ω×Bool)

/-- One step of the network. -/
inductive Event (ι ω : Type*) where
  | put (i : ι) (o : ω)
  | deliver (i : ι)
  | clear (i : ι)

variable {ι σ ω α ς : Type*} [DecidableEq ι]

/-- The network before the first put: all replicas in one state, nothing under way. -/
def Net.start (s : σ) : Net ι σ ω α ς := ⟨fun _ => s,s,fun _ => [],fun _ => [],∅,[],[],[],[]⟩

namespace Replica

variable (R : Replica σ ω α ς)

/-- A leaf receives an object. -/
def put (n : Net ι σ ω α ς) (i : ι) (o : ω) : Net ι σ ω α ς :=
  let r := R.arrive (n.leaf i) o
  let mark := !r.2.isEmpty
  {n with
    leaf := Function.update n.leaf i r.1
    up := Function.update n.up i (n.up i++[(o,mark)])
    fired := n.fired++r.2.map fun a => (some i,a)
    sent := n.sent++[(i,o,mark)]}

/-- The center consumes the oldest report of a leaf. -/
def deliver (n : Net ι σ ω α ς) (i : ι) (o : ω) (mark : Bool) (rest : List (ω×Bool)) :
    Net ι σ ω α ς :=
  let r := R.arrive n.center o
  let known := insert i n.known
  {n with
    center := r.1
    up := Function.update n.up i rest
    known := known
    down := if mark || r.2.isEmpty then n.down else
      fun j => if j∈known then n.down j++[R.session o] else n.down j
    fired := if mark then n.fired else n.fired++r.2.map fun a => (none,a)
    skipped := if mark then n.skipped++r.2 else n.skipped
    delivered := n.delivered++[(i,o,mark)]}

/-- A leaf consumes its oldest clear. -/
def recvClear (n : Net ι σ ω α ς) (i : ι) (s : ς) (rest : List ς) : Net ι σ ω α ς :=
  {n with
    leaf := Function.update n.leaf i (R.clear (n.leaf i) s)
    down := Function.update n.down i rest}

/-- The step function: consuming from an empty link is not enabled. -/
def step (n : Net ι σ ω α ς) : Event ι ω → Option (Net ι σ ω α ς)
  | .put i o => some (R.put n i o)
  | .deliver i => match n.up i with
    | [] => none
    | (o,mark)::rest => some (R.deliver n i o mark rest)
  | .clear i => match n.down i with
    | [] => none
    | s::rest => some (R.recvClear n i s rest)

variable {m n : Net ι σ ω α ς} {e : Event ι ω}

/-- Everything one step can do. -/
theorem step_cases (h : R.step n e=some m) :
    (∃ i o,e=.put i o ∧ m=R.put n i o) ∨
    (∃ i o mark rest,e=.deliver i ∧ n.up i=(o,mark)::rest ∧ m=R.deliver n i o mark rest) ∨
    (∃ i s rest,e=.clear i ∧ n.down i=s::rest ∧ m=R.recvClear n i s rest) := by
  cases e with
  | put i o => exact Or.inl ⟨i,o,rfl,(Option.some.inj h).symm⟩
  | deliver i =>
    cases hu : n.up i with
    | nil => simp [step,hu] at h
    | cons e rest =>
      obtain ⟨o,mark⟩ := e
      simp only [step,hu,Option.some.injEq] at h
      exact Or.inr (Or.inl ⟨i,o,mark,rest,rfl,hu,h.symm⟩)
  | clear i =>
    cases hd : n.down i with
    | nil => simp [step,hd] at h
    | cons s rest =>
      simp only [step,hd,Option.some.injEq] at h
      exact Or.inr (Or.inr ⟨i,s,rest,rfl,hd,h.symm⟩)

/-- Per leaf, the sent reports are the delivered ones followed by those
still under way. -/
def Fifo (n : Net ι σ ω α ς) : Prop :=
  ∀ i,n.sent.filter (fun e => decide (e.1=i))=
    n.delivered.filter (fun e => decide (e.1=i))++(n.up i).map fun e => (i,e)

theorem fifo_start (s : σ) : Fifo (Net.start s : Net ι σ ω α ς) := fun _ => rfl

theorem fifo_step (hf : Fifo n) (h : R.step n e=some m) : Fifo m := by
  intro j
  have hj := hf j
  obtain ⟨i,o,-,rfl⟩|⟨i,o,mark,rest,-,hu,rfl⟩|⟨i,s,rest,-,-,rfl⟩ := R.step_cases h
  · by_cases hi : i=j
    · subst hi
      simp [put,List.filter_append,hj]
    · simp [put,List.filter_append,hj,hi,Function.update_of_ne (Ne.symm hi)]
  · by_cases hi : i=j
    · subst hi
      rw [hu] at hj
      simp [deliver,List.filter_append,hj]
    · simp [deliver,List.filter_append,hj,hi,Function.update_of_ne (Ne.symm hi)]
  · exact hj

end Replica

variable {n : Net ι σ ω α ς}

/-- A delivered report was sent. -/
theorem mem_sent_of_mem_delivered (hf : Replica.Fifo n) {e : ι×ω×Bool} (he : e∈n.delivered) :
    e∈n.sent := by
  have hm : e∈n.sent.filter (fun x => decide (x.1=e.1)) := by
    rw [hf e.1]
    exact List.mem_append_left _ (List.mem_filter.mpr ⟨he,by simp⟩)
  exact List.mem_of_mem_filter hm

/-- A report under way was sent. -/
theorem mem_sent_of_mem_up (hf : Replica.Fifo n) {i : ι} {e : ω×Bool} (he : e∈n.up i) :
    (i,e)∈n.sent := by
  have hm : (i,e)∈n.sent.filter (fun x => decide (x.1=i)) := by
    rw [hf i]
    exact List.mem_append_right _ (List.mem_map_of_mem he)
  exact List.mem_of_mem_filter hm

/-- Counting a report: the sent ones are the delivered ones and those under way. -/
theorem count_sent [DecidableEq ω] (hf : Replica.Fifo n) (i : ι) (e : ω×Bool) :
    n.sent.count (i,e)=n.delivered.count (i,e)+(n.up i).count e := by
  have hp : ∀ l : List (ι×ω×Bool),l.count (i,e)=
      (l.filter (fun x => decide (x.1=i))).count (i,e) := by
    intro l
    rw [List.count_filter]
    simp
  rw [hp n.sent,hf i,List.count_append,←hp]
  congr 1
  rw [List.count_map_of_injective]
  intro x y hxy
  exact (Prod.mk.inj hxy).2

/-- When nothing is under way, the delivered reports are the sent ones. -/
theorem delivered_perm_sent [DecidableEq ω] (hf : Replica.Fifo n) (hu : ∀ i,n.up i=[]) :
    n.delivered.Perm n.sent := by
  rw [List.perm_iff_count]
  rintro ⟨i,e⟩
  rw [count_sent hf,hu i,List.count_nil,Nat.add_zero]

/-- The delivered reports and those of one link are part of the sent ones. -/
theorem delivered_append_up_subperm [DecidableEq ω] (hf : Replica.Fifo n) (i : ι) :
    (n.delivered++(n.up i).map fun e => (i,e)).Subperm n.sent := by
  rw [List.subperm_ext_iff]
  rintro ⟨j,e⟩ -
  rw [List.count_append,count_sent hf]
  by_cases hj : j=i
  · subst hj
    rw [List.count_map_of_injective]
    intro x y hxy
    exact (Prod.mk.inj hxy).2
  · have hz : ((n.up i).map fun e => (i,e)).count (j,e)=0 := by
      rw [List.count_eq_zero]
      intro hm
      obtain ⟨x,-,hx⟩ := List.mem_map.mp hm
      exact hj (Prod.mk.inj hx).1.symm
    omega

end Pheromone.ReplicaNetwork
