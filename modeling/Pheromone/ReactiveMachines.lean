import Mathlib.Data.List.Forall2
import Mathlib.Data.List.Induction

/-!
# Machines that answer their inputs

Machines answer inputs with outputs. Related states that give related answers
give them to every sequence of inputs.
-/

namespace Pheromone.ReactiveMachines

variable {σ τ ι ο π : Type*}

/-- The answers to a sequence of inputs. -/
def outputs (step : σ → ι → σ×ο) : σ → List ι → List ο
  | _,[] => []
  | s,i::is => (step s i).2::outputs step (step s i).1 is

/-- The state after a sequence of inputs. -/
def after (step : σ → ι → σ×ο) (s : σ) (is : List ι) : σ := is.foldl (fun s i => (step s i).1) s

/-- What every input preserves holds after every sequence. -/
theorem after_invariant {step : σ → ι → σ×ο} {inv : σ → Prop}
    (hstep : ∀ s i,inv s → inv (step s i).1) {s : σ} (hs : inv s) (is : List ι) :
    inv (after step s is) := List.foldlRecOn is _ hs fun s hs i _ => hstep s i hs

theorem after_concat (step : σ → ι → σ×ο) (s : σ) (is : List ι) (i : ι) :
    after step s (is++[i])=(step (after step s is) i).1 := List.foldl_append

/-- Each answer is the one that the state after the inputs before it gives. -/
theorem getElem?_outputs (step : σ → ι → σ×ο) (s : σ) (is : List ι) (m : ℕ) :
    (outputs step s is)[m]?=(is[m]?).map fun i => (step (after step s (is.take m)) i).2 := by
  induction is generalizing s m with
  | nil => rfl
  | cons i is ih =>
    cases m with
    | zero => rfl
    | succ m => exact ih (step s i).1 m

theorem length_outputs (step : σ → ι → σ×ο) (s : σ) (is : List ι) :
    (outputs step s is).length=is.length := by
  induction is generalizing s with
  | nil => rfl
  | cons i is ih => exact congrArg Nat.succ (ih _)

/-- The state after each input stands in the invariant's place for all answers. -/
theorem forall_outputs {step : σ → ι → σ×ο} {inv : σ → Prop} {good : ο → Prop}
    (hstep : ∀ s i,inv s → inv (step s i).1 ∧ good (step s i).2) {s : σ} (hs : inv s)
    (is : List ι) : ∀ o∈outputs step s is,good o := by
  induction is generalizing s with
  | nil => exact fun _ h => absurd h List.not_mem_nil
  | cons i is ih => exact List.forall_mem_cons.mpr ⟨(hstep s i hs).2,ih (hstep s i hs).1⟩

/-- A machine that keeps its inputs until it answers with them answers with
all inputs in their order, up to those it still keeps. -/
theorem flatMap_outputs {α : Type*} {step : σ → ι → σ×ο} (kept : σ → List α) (taken : ο → List α)
    (item : ι → α) (hstep : ∀ s i,taken (step s i).2++kept (step s i).1=kept s++[item i]) (s : σ)
    (is : List ι) : (outputs step s is).flatMap taken++kept (after step s is)=
      kept s++is.map item := by
  induction is generalizing s with
  | nil => exact (List.append_nil _).symm
  | cons i is ih =>
    have hrest : (outputs step (step s i).1 is).flatMap taken++kept (after step (step s i).1 is)=
        kept (step s i).1++is.map item := ih _
    show (taken (step s i).2++(outputs step (step s i).1 is).flatMap taken)++
      kept (after step (step s i).1 is)=_
    rw [List.append_assoc,hrest,←List.append_assoc,hstep,List.append_assoc]
    rfl

/-- The inputs with their answers. -/
def trace (step : σ → ι → σ×ο) (s : σ) (is : List ι) : List (ι×ο) := is.zip (outputs step s is)

theorem trace_concat (step : σ → ι → σ×ο) (s : σ) (is : List ι) (i : ι) :
    trace step s (is++[i])=trace step s is++[(i,(step (after step s is) i).2)] := by
  induction is generalizing s with
  | nil => rfl
  | cons j is ih => exact congrArg (List.cons _) (ih _)

theorem trace_map_fst (step : σ → ι → σ×ο) (s : σ) (is : List ι) :
    (trace step s is).map Prod.fst=is :=
  List.map_fst_zip (Nat.le_of_eq (length_outputs step s is).symm)

/-- What every input preserves, of the state and the trace to it, holds after
every sequence. -/
theorem trace_invariant {step : σ → ι → σ×ο} {inv : σ → List (ι×ο) → Prop}
    (hstep : ∀ s tr i,inv s tr → inv (step s i).1 (tr++[(i,(step s i).2)])) {s : σ}
    (hs : inv s []) (is : List ι) : inv (after step s is) (trace step s is) := by
  induction is using List.reverseRecOn with
  | nil => exact hs
  | append_singleton is i ih =>
    rw [after_concat,trace_concat]
    exact hstep _ _ i ih

/-- If the inputs of one kind see a part of the state that no other input
changes, they are answered as if the others were not there. -/
theorem outputs_filter {α : Type*} {step : σ → ι → σ×List α} {rel : σ → σ → Prop} {mine : ι → Bool}
    {keep : α → Bool}
    (hmine : ∀ s t i,rel s t → mine i=true →
      rel (step s i).1 (step t i).1 ∧ (step s i).2.filter keep=(step t i).2)
    (hother : ∀ s t i,rel s t → mine i=false → rel (step s i).1 t ∧ (step s i).2.filter keep=[])
    {s t : σ} (h : rel s t) (is : List ι) :
    (outputs step s is).flatten.filter keep=(outputs step t (is.filter mine)).flatten := by
  induction is generalizing s t with
  | nil => rfl
  | cons i is ih =>
    show ((step s i).2++(outputs step (step s i).1 is).flatten).filter keep=_
    rw [List.filter_append]
    cases hi : mine i with
    | true =>
      obtain ⟨hrel,hout⟩ := hmine s t i h hi
      rw [hout,ih hrel,List.filter_cons_of_pos hi]
      rfl
    | false =>
      obtain ⟨hrel,hout⟩ := hother s t i h hi
      rw [hout,ih hrel,List.filter_cons_of_neg (ne_true_of_eq_false hi)]
      rfl

/-- The state after all inputs is related to that after the inputs of one kind. -/
theorem after_filter {step : σ → ι → σ×ο} {rel : σ → σ → Prop} {mine : ι → Bool} {is : List ι}
    (hmine : ∀ s t,∀ i∈is,rel s t → mine i=true → rel (step s i).1 (step t i).1)
    (hother : ∀ s t,∀ i∈is,rel s t → mine i=false → rel (step s i).1 t) {s t : σ} (h : rel s t) :
    rel (after step s is) (after step t (is.filter mine)) := by
  induction is generalizing s t with
  | nil => exact h
  | cons i is ih =>
    have hmine' := fun s t j hj => hmine s t j (List.mem_cons_of_mem i hj)
    have hother' := fun s t j hj => hother s t j (List.mem_cons_of_mem i hj)
    cases hi : mine i with
    | true =>
      rw [List.filter_cons_of_pos hi]
      exact ih hmine' hother' (hmine s t i List.mem_cons_self h hi)
    | false =>
      rw [List.filter_cons_of_neg (ne_true_of_eq_false hi)]
      exact ih hmine' hother' (hother s t i List.mem_cons_self h hi)

/-- One input keeps the states related and is answered alike. -/
structure Bisimulation (step : σ → ι → σ×ο) (step' : τ → ι → τ×π) (rel : σ → τ → Prop)
    (same : ο → π → Prop) : Prop where
  states : ∀ s t i,rel s t → rel (step s i).1 (step' t i).1
  answers : ∀ s t i,rel s t → same (step s i).2 (step' t i).2

variable {step : σ → ι → σ×ο} {step' : τ → ι → τ×π} {rel : σ → τ → Prop} {same : ο → π → Prop}

/-- Related machines answer all sequences alike. -/
theorem Bisimulation.outputs (h : Bisimulation step step' rel same) {s : σ} {t : τ} (hst : rel s t)
    (is : List ι) : List.Forall₂ same (outputs step s is) (outputs step' t is) := by
  induction is generalizing s t with
  | nil => exact .nil
  | cons i is ih => exact .cons (h.answers s t i hst) (ih (h.states s t i hst))

end Pheromone.ReactiveMachines
