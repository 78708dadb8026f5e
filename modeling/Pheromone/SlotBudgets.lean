import Mathlib.Data.List.Count
import Mathlib.Algebra.Order.Ring.Int

/-!
# Choices that use up slots

Each choice takes one slot of its target or none. If only targets with a free
slot are allowed, none is chosen more often than it has slots.
-/

namespace Pheromone.SlotBudgets

variable {α β : Type*} [DecidableEq α]

/-- How often a target is chosen. -/
def taken (picks : List (Option α)) (a : α) : ℕ := picks.count (some a)

/-- The slots that a list of choices leaves. -/
def left (free : α → ℤ) (picks : List (Option α)) (a : α) : ℤ := free a-taken picks a

variable {free : α → ℤ}

theorem left_nil : left free []=free := by
  funext a
  simp [left,taken]

theorem left_append (picks more : List (Option α)) :
    left free (picks++more)=left (left free picks) more := by
  funext a
  unfold left taken
  rw [List.count_append]
  omega

theorem left_le (picks : List (Option α)) (a : α) : left free picks a≤free a := by
  unfold left
  omega

theorem left_none : left free [none]=free := by
  funext a
  simp [left,taken]

theorem left_some (b a : α) : left free [some b] a=if a=b then free b-1 else free a := by
  unfold left taken
  by_cases h : a=b
  · subst h
    simp
  · have hne : some b≠some a := fun he => h (Option.some.inj he).symm
    rw [if_neg h,List.count_singleton,if_neg (by simpa using hne)]
    simp

/-- Every choice obeys the rule at what the earlier ones have left. -/
def Obeys (rule : (α → ℤ) → β → Prop) (target : β → Option α) : (α → ℤ) → List β → Prop
  | _,[] => True
  | free,b::rest => rule free b ∧ Obeys rule target (left free [target b]) rest

variable {rule : (α → ℤ) → β → Prop} {target : β → Option α} {bs cs : List β}

/-- Two lists of choices one after the other. -/
theorem obeys_append : Obeys rule target free (bs++cs) ↔
    Obeys rule target free bs ∧ Obeys rule target (left free (bs.map target)) cs := by
  induction bs generalizing free with
  | nil => simp [Obeys,left_nil]
  | cons b bs ih =>
    have hleft : left free ((b::bs).map target)=left (left free [target b]) (bs.map target) :=
      left_append [target b] (bs.map target)
    rw [hleft,List.cons_append,Obeys,Obeys,ih,and_assoc]

/-- Nobody is chosen more often than they have slots. -/
theorem Obeys.left_nonneg (hrule : ∀ free b a,rule free b → target b=some a → 0<free a)
    (hfree : ∀ a,0≤free a) (h : Obeys rule target free bs) (a : α) :
    0≤left free (bs.map target) a := by
  induction bs generalizing free with
  | nil => simpa [left_nil] using hfree a
  | cons b bs ih =>
    have hstep : ∀ c,0≤left free [target b] c := by
      intro c
      cases ht : target b with
      | none => simpa [left_none] using hfree c
      | some d =>
        have hpos := hrule free b d h.1 ht
        have hc := hfree c
        rw [left_some]
        split <;> omega
    have hrest := ih hstep h.2
    rwa [←left_append] at hrest

end Pheromone.SlotBudgets
