import Mathlib.Data.List.Induction
import Mathlib.Data.List.Infix

/-!
# Rounds of a stream

A round collects events until they are full, by any decidable property of
lists, and the next event opens a new one.
-/

namespace Pheromone.StreamRounds

variable {α : Type*} (full : List α → Prop) [DecidablePred full]

/-- One more event of the open round; a full round is closed. -/
def advance (w : List α) (a : α) : List α := if full (w++[a]) then [] else w++[a]

/-- The events since the last round was closed. -/
def openRound (l : List α) : List α := l.foldl (advance full) []

/-- The event at a position closes a round. -/
def ClosesAt (l : List α) (j : ℕ) : Prop := ∃ a,l[j]?=some a ∧ full (openRound full (l.take j)++[a])

/-- Position of the first event in the round of the event at a position. -/
def roundStart (l : List α) (j : ℕ) : ℕ := j-(openRound full (l.take j)).length

/-- An event is the given one or an earlier one of its round. -/
def InRound (l : List α) (i j : ℕ) : Prop := roundStart full l j≤ i ∧ i≤j

/-- The first event from a position on that closes a round. -/
structure NextClosing (l : List α) (i j : ℕ) : Prop where
  le : i≤j
  closes : ClosesAt full l j
  first : ∀ m,i≤ m → m<j → ¬ClosesAt full l m

variable {full}

theorem openRound_concat (l : List α) (a : α) :
    openRound full (l++[a])=advance full (openRound full l) a := by
  rw [openRound,List.foldl_append]
  rfl

/-- An open round is not full. -/
theorem not_full_openRound (hnil : ¬full []) (l : List α) : ¬full (openRound full l) := by
  induction l using List.reverseRecOn with
  | nil => exact hnil
  | append_singleton l a _ =>
    rw [openRound_concat,advance]
    split
    · exact hnil
    · assumption

/-- The open round consists of the last events. -/
theorem openRound_suffix (l : List α) : openRound full l<:+l := by
  induction l using List.reverseRecOn with
  | nil => exact List.suffix_rfl
  | append_singleton l a ih =>
    rw [openRound_concat,advance]
    split
    · exact List.nil_suffix
    · obtain ⟨done,hdone⟩ := ih
      refine ⟨done,?_⟩
      rw [←List.append_assoc,hdone]

variable {l : List α} {j : ℕ}

/-- The round at a position, cut out of the stream. -/
theorem openRound_take_eq (hj : j≤l.length) :
    openRound full (l.take j)=(l.take j).drop (roundStart full l j) := by
  have hsuffix : openRound full (l.take j)<:+l.take j := openRound_suffix _
  obtain ⟨done,hdone⟩ := hsuffix
  have hlen : done.length=roundStart full l j := by
    have hsum := congrArg List.length hdone
    rw [List.length_append,List.length_take,Nat.min_eq_left hj] at hsum
    rw [roundStart]
    omega
  have hdrop : (done++openRound full (l.take j)).drop done.length=openRound full (l.take j) :=
    List.drop_left
  rw [hdone,hlen] at hdrop
  exact hdrop.symm

theorem lt_length_of_closesAt (h : ClosesAt full l j) : j<l.length := by
  obtain ⟨a,ha,-⟩ := h
  exact (List.getElem?_eq_some_iff.mp ha).1

variable {a : α}

/-- The round at the next position. -/
theorem openRound_take_succ (ha : l[j]?=some a) :
    openRound full (l.take (j+1))=advance full (openRound full (l.take j)) a := by
  rw [List.take_add_one,ha]
  exact openRound_concat _ a

theorem openRound_after_closing (h : ClosesAt full l j) : openRound full (l.take (j+1))=[] := by
  obtain ⟨a,ha,hfull⟩ := h
  rw [openRound_take_succ ha,advance,if_pos hfull]

variable {i : ℕ}

/-- A round has at most the events since a closing. -/
theorem length_openRound_le (hi : ClosesAt full l i) (hij : i<j) (hj : j≤l.length) :
    (openRound full (l.take j)).length≤j-(i+1) := by
  induction j,hij using Nat.le_induction with
  | base => rw [openRound_after_closing hi,List.length_nil,Nat.sub_self]
  | succ j hij ih =>
    have hlt : j<l.length := hj
    rw [openRound_take_succ (List.getElem?_eq_getElem hlt),advance]
    split
    · exact Nat.zero_le _
    · have hbefore := ih hlt.le
      rw [List.length_append,List.length_singleton]
      omega

/-- A round has all events among which none closes one. -/
theorem le_length_openRound (hij : i≤j) (hj : j≤l.length)
    (hopen : ∀ m,i≤ m → m<j → ¬ClosesAt full l m) : j-i≤(openRound full (l.take j)).length := by
  induction j,hij using Nat.le_induction with
  | base =>
    rw [Nat.sub_self]
    exact Nat.zero_le _
  | succ j hij ih =>
    have hlt : j<l.length := hj
    have hat := List.getElem?_eq_getElem hlt
    have hnot : ¬full (openRound full (l.take j)++[l[j]]) :=
      fun hfull => hopen j hij (Nat.lt_succ_self j) ⟨_,hat,hfull⟩
    have hbefore := ih hlt.le fun m him hmj => hopen m him (Nat.lt_succ_of_lt hmj)
    rw [openRound_take_succ hat,advance,if_neg hnot,List.length_append,List.length_singleton]
    omega

/-- An event belongs to the round that the next closing event closes, and to
no other round that is closed. -/
theorem inRound_iff_nextClosing (hj : ClosesAt full l j) :
    InRound full l i j ↔ NextClosing full l i j := by
  have hlen := (lt_length_of_closesAt hj).le
  constructor
  · rintro ⟨hstart,hij⟩
    refine ⟨hij,hj,fun m him hmj hm => ?_⟩
    have hshort := length_openRound_le hm hmj hlen
    rw [roundStart] at hstart
    omega
  · intro h
    have hlong := le_length_openRound h.le hlen h.first
    refine ⟨?_,h.le⟩
    have hle := h.le
    rw [roundStart]
    omega

/-- At most one event is the next to close a round. -/
theorem NextClosing.unique {j' : ℕ} (h : NextClosing full l i j) (h' : NextClosing full l i j') :
    j'=j := by
  rcases Nat.lt_trichotomy j j' with hlt|heq|hlt
  · exact absurd h.closes (h'.first j h.le hlt)
  · exact heq.symm
  · exact absurd h'.closes (h.first j' h'.le hlt)

/-- The events of a round are those that its last event closes. -/
theorem mem_round_of_inRound {b : α} (ha : l[i]?=some a) (hb : l[j]?=some b)
    (h : InRound full l i j) : a∈openRound full (l.take j)++[b] := by
  have hj := (List.getElem?_eq_some_iff.mp hb).1
  rcases Nat.lt_or_eq_of_le h.2 with hlt|rfl
  · refine List.mem_append_left _ ?_
    rw [openRound_take_eq hj.le]
    refine List.mem_of_getElem? (i:=i-roundStart full l j) ?_
    have hstart := h.1
    rw [List.getElem?_drop,Nat.add_sub_cancel' hstart,List.getElem?_take_of_lt hlt]
    exact ha
  · refine List.mem_append_right _ ?_
    rw [Option.some.inj (ha.symm.trans hb)]
    exact List.mem_singleton_self b

end Pheromone.StreamRounds
