import Pheromone.UnorderedContainers

/-!
# Requests that wait under keys

Requests wait in lists, one per key, and are released key by key; one queue
of requests with their keys describes the lists.
-/

namespace Pheromone.KeyedQueues

open UnorderedContainers

variable {κ ρ : Type*} [DecidableEq κ]

/-- The requests of a queue that wait under a key. -/
def waiting (w : List (κ×ρ)) (k : κ) : List ρ :=
  (w.filter fun e => decide (e.1=k)).map Prod.snd

/-- The queue after the requests of a key have been released. -/
def released (w : List (κ×ρ)) (k : κ) : List (κ×ρ) := w.filter fun e => !decide (e.1=k)

/-- The lists of a map are those of a queue. -/
def Tracks (m : UMap κ (List ρ)) (w : List (κ×ρ)) : Prop := ∀ k,m.getD k []=waiting w k

theorem mem_waiting {w : List (κ×ρ)} {k : κ} {r : ρ} : r∈waiting w k ↔ (k,r)∈w := by
  unfold waiting
  constructor
  · intro h
    obtain ⟨e,he,hr⟩ := List.mem_map.mp h
    obtain ⟨hw,hk⟩ := List.mem_filter.mp he
    have hkey : e.1=k := of_decide_eq_true hk
    rwa [←hkey,←hr]
  · intro h
    exact List.mem_map.mpr ⟨(k,r),List.mem_filter.mpr ⟨h,decide_eq_true rfl⟩,rfl⟩

theorem waiting_concat (w : List (κ×ρ)) (k k' : κ) (r : ρ) :
    waiting (w++[(k,r)]) k'=if k'=k then waiting w k'++[r] else waiting w k' := by
  unfold waiting
  rw [List.filter_append,List.map_append]
  by_cases hk : k'=k
  · simp [hk]
  · have hne : k≠k' := fun h => hk h.symm
    simp [hk,hne]

theorem waiting_released (w : List (κ×ρ)) (k k' : κ) :
    waiting (released w k) k'=if k'=k then [] else waiting w k' := by
  unfold waiting released
  rw [List.filter_filter]
  by_cases hk : k'=k
  · simp [hk]
  · rw [if_neg hk]
    congr 2
    funext e
    by_cases he : e.1=k'
    · simp [he,hk]
    · simp [he]

/-- A release neither loses nor duplicates requests. -/
theorem countP_released (p : κ×ρ → Bool) (w : List (κ×ρ)) (k : κ) :
    (waiting w k).countP (fun r => p (k,r))+(released w k).countP p=w.countP p := by
  induction w with
  | nil => rfl
  | cons e w ih =>
    rcases e with ⟨k',r⟩
    unfold waiting released at ih ⊢
    by_cases hk : k'=k
    · subst hk
      simp only [decide_true,List.filter_cons_of_pos,List.map_cons,List.countP_cons,
        Bool.not_true,Bool.false_eq_true,not_false_eq_true,List.filter_cons_of_neg]
      omega
    · simp only [hk,decide_false,Bool.not_false,Bool.false_eq_true,not_false_eq_true,
        List.filter_cons_of_neg,List.filter_cons_of_pos,List.countP_cons]
      omega

theorem mem_released {w : List (κ×ρ)} {k : κ} {e : κ×ρ} : e∈released w k ↔ e∈w ∧ e.1≠k := by
  simp [released]

/-- A key under which nothing waits is not in the queue. -/
theorem fst_ne_of_waiting_eq_nil {w : List (κ×ρ)} {k : κ} (h : waiting w k=[]) {e : κ×ρ} (he : e∈w) :
    e.1≠k := by
  intro hk
  have hm : e.2∈waiting w k := mem_waiting.mpr (hk ▸ he)
  rw [h] at hm
  cases hm

theorem tracks_empty : Tracks (∅ : UMap κ (List ρ)) [] := fun _ => rfl

namespace Tracks

variable {m : UMap κ (List ρ)} {w : List (κ×ρ)}

/-- A request begins to wait. -/
theorem push (h : Tracks m w) (k : κ) (r : ρ) :
    Tracks (m.set k (m.getD k []++[r])) (w++[(k,r)]) := by
  intro k'
  rw [UMap.getD_set,waiting_concat]
  by_cases hk : k'=k
  · rw [if_pos hk,if_pos hk,hk,h k]
  · rw [if_neg hk,if_neg hk,h k']

/-- The requests of a key are released. -/
theorem release (h : Tracks m w) (k : κ) : Tracks (m.erase k) (released w k) := by
  intro k'
  rw [UMap.getD_erase,waiting_released]
  by_cases hk : k'=k
  · rw [if_pos hk,if_pos hk]
  · rw [if_neg hk,if_neg hk,h k']

theorem mem_getD (h : Tracks m w) {k : κ} {r : ρ} : r∈m.getD k [] ↔ (k,r)∈w := by
  rw [h k]
  exact mem_waiting

end Tracks

end Pheromone.KeyedQueues
