import Mathlib.Data.List.Range
import Mathlib.Data.List.Count
import Mathlib.Data.List.Perm.Basic

/-!
# Ledgers of numbered tokens

Numbered tokens are placed, waiting in a queue or passed on.
-/

namespace Pheromone.TokenLedgers

/-- Where the tokens are. Waiting ones carry what is noted when they are
issued. -/
structure Ledger (ε τ : Type*) where
  /-- Number of issued tokens. -/
  issued : ℕ
  /-- Placed tokens, with whom. -/
  placed : List (ℕ×ε)
  /-- Waiting tokens, the next one first. -/
  waiting : List (ℕ×τ)
  /-- Tokens that were passed on. -/
  passed : List ℕ
  /-- Every issued token is at exactly one place. -/
  once : (placed.map Prod.fst++waiting.map Prod.fst++passed).Perm (List.range issued)

namespace Ledger

variable {ε τ : Type*}

/-- No token has been issued. -/
def start : Ledger ε τ := ⟨0,[],[],[],.nil⟩

/-- A new token is placed. -/
def issuePlaced (L : Ledger ε τ) (e : ε) : Ledger ε τ where
  issued := L.issued+1
  placed := L.placed++[(L.issued,e)]
  waiting := L.waiting
  passed := L.passed
  once := List.perm_iff_count.mpr fun a => by
    have hcount := L.once.count_eq a
    simp only [List.map_append,List.map_cons,List.map_nil,List.count_append,List.range_succ] at hcount ⊢
    omega

/-- A new token waits. -/
def issueWaiting (L : Ledger ε τ) (t : τ) : Ledger ε τ where
  issued := L.issued+1
  placed := L.placed
  waiting := L.waiting++[(L.issued,t)]
  passed := L.passed
  once := List.perm_iff_count.mpr fun a => by
    have hcount := L.once.count_eq a
    simp only [List.map_append,List.map_cons,List.map_nil,List.count_append,List.range_succ] at hcount ⊢
    omega

/-- A new token is passed on. -/
def issuePassed (L : Ledger ε τ) : Ledger ε τ where
  issued := L.issued+1
  placed := L.placed
  waiting := L.waiting
  passed := L.passed++[L.issued]
  once := List.perm_iff_count.mpr fun a => by
    have hcount := L.once.count_eq a
    simp only [List.count_append,List.range_succ] at hcount ⊢
    omega

variable {L : Ledger ε τ} {x : ℕ×τ} {rest : List (ℕ×τ)}

/-- The first waiting token is placed. -/
def placeFront (h : L.waiting=x::rest) (e : ε) : Ledger ε τ where
  issued := L.issued
  placed := L.placed++[(x.1,e)]
  waiting := rest
  passed := L.passed
  once := List.perm_iff_count.mpr fun a => by
    have hcount := L.once.count_eq a
    simp only [h,List.map_append,List.map_cons,List.map_nil,List.count_append,List.count_cons,
      List.count_nil] at hcount ⊢
    omega

/-- The first waiting token goes to the end of the queue. -/
def requeueFront (h : L.waiting=x::rest) : Ledger ε τ where
  issued := L.issued
  placed := L.placed
  waiting := rest++[x]
  passed := L.passed
  once := List.perm_iff_count.mpr fun a => by
    have hcount := L.once.count_eq a
    simp only [h,List.map_append,List.map_cons,List.map_nil,List.count_append,List.count_cons,
      List.count_nil] at hcount ⊢
    omega

/-- The first waiting token is passed on. -/
def passFront (h : L.waiting=x::rest) : Ledger ε τ where
  issued := L.issued
  placed := L.placed
  waiting := rest
  passed := L.passed++[x.1]
  once := List.perm_iff_count.mpr fun a => by
    have hcount := L.once.count_eq a
    simp only [h,List.map_cons,List.count_append,List.count_cons,List.count_nil] at hcount ⊢
    omega

end Ledger

end Pheromone.TokenLedgers
