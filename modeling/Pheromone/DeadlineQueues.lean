import Mathlib.Data.List.Perm.Subperm
import Mathlib.Order.Lattice

/-!
# Draining a queue of dated entries that grows

Rounds that serve a due entry and enqueue later ones serve entries of the
first queue only, each once.
-/

namespace Pheromone.DeadlineQueues

variable {α τ : Type*} [LinearOrder τ]

/-- The entries that are due. -/
def due (time : α → τ) (deadline : τ) (queue : List α) : List α :=
  queue.filter fun x => decide (time x≤deadline)

/-- The entries that are not due yet. -/
def later (time : α → τ) (deadline : τ) (queue : List α) : List α :=
  queue.filter fun x => decide (deadline<time x)

variable {time : α → τ} {deadline : τ} {queue new queue' : List α} {x : α}
  {rounds : List (α×List α)}

theorem due_eq_nil (h : ∀ y∈queue,deadline<time y) : due time deadline queue=[] := by
  rw [due,List.filter_eq_nil_iff]
  intro y hy
  simpa using h y hy

theorem later_eq_self (h : ∀ y∈queue,deadline<time y) : later time deadline queue=queue := by
  rw [later,List.filter_eq_self]
  intro y hy
  simpa using h y hy

variable [DecidableEq α]

/-- Rounds from one queue to another, with the served entry and the new ones
of each. -/
inductive Drains (time : α → τ) (deadline : τ) : List α → List (α×List α) → List α → Prop
  | refl (queue : List α) : Drains time deadline queue [] queue
  | round {queue new queue' : List α} {x : α} {rounds : List (α×List α)} (hmem : x∈queue)
      (hdue : time x≤deadline) (hnew : ∀ y∈new,deadline<time y)
      (hrest : Drains time deadline ((queue++new).erase x) rounds queue') :
      Drains time deadline queue ((x,new)::rounds) queue'

/-- One round takes the served entry from those that are due. -/
theorem due_round (hmem : x∈queue) (hdue : time x≤deadline) (hnew : ∀ y∈new,deadline<time y) :
    (x::due time deadline ((queue++new).erase x)).Perm (due time deadline queue) := by
  have hperm : (due time deadline (queue++new)).Perm (due time deadline (x::(queue++new).erase x)) :=
    (List.perm_cons_erase (List.mem_append_left new hmem)).filter _
  have hserved : due time deadline (x::(queue++new).erase x)=
      x::due time deadline ((queue++new).erase x) := List.filter_cons_of_pos (by simpa using hdue)
  have hsplit : due time deadline (queue++new)=due time deadline queue++due time deadline new :=
    List.filter_append _ _
  rw [hserved,hsplit,due_eq_nil hnew,List.append_nil] at hperm
  exact hperm.symm

/-- A round adds the new entries to those that are not due. -/
theorem later_round (hmem : x∈queue) (hdue : time x≤deadline) (hnew : ∀ y∈new,deadline<time y) :
    (later time deadline ((queue++new).erase x)).Perm (later time deadline queue++new) := by
  have hperm : (later time deadline (queue++new)).Perm
      (later time deadline (x::(queue++new).erase x)) :=
    (List.perm_cons_erase (List.mem_append_left new hmem)).filter _
  have hserved : later time deadline (x::(queue++new).erase x)=
      later time deadline ((queue++new).erase x) := List.filter_cons_of_neg (by simpa using hdue)
  have hsplit : later time deadline (queue++new)=later time deadline queue++later time deadline new :=
    List.filter_append _ _
  rw [hserved,hsplit,later_eq_self hnew] at hperm
  exact hperm.symm

/-- The served entries are those that have been due and are not left. -/
theorem Drains.served (h : Drains time deadline queue rounds queue') :
    (rounds.map Prod.fst++due time deadline queue').Perm (due time deadline queue) := by
  induction h with
  | refl queue => exact .refl _
  | round hmem hdue hnew _ ih => exact (ih.cons _).trans (due_round hmem hdue hnew)

/-- What is not due at the end was not due at the start or is new. -/
theorem Drains.kept (h : Drains time deadline queue rounds queue') :
    (later time deadline queue').Perm (later time deadline queue++rounds.flatMap Prod.snd) := by
  induction h with
  | refl queue => simp
  | round hmem hdue hnew _ ih =>
    rw [List.flatMap_cons,←List.append_assoc]
    exact ih.trans ((later_round hmem hdue hnew).append_right _)

end Pheromone.DeadlineQueues
