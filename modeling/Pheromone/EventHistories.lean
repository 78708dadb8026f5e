import Mathlib.Data.List.Basic

/-!
# Histories of events

A history lists what has happened, oldest first. That every event is
justified by those before it is shown one recorded step at a time.
-/

namespace Pheromone.EventHistories

variable {ε : Type*}

/-- Every event is justified by the events before it. -/
def Justified (P : List ε → ε → Prop) (h : List ε) : Prop :=
  ∀ before e after,h=before++e::after → P before e

variable {P : List ε → ε → Prop}

theorem justified_nil : Justified P [] := by
  intro before e after h
  cases before <;> cases h

/-- One more event. -/
theorem Justified.concat {h : List ε} (hh : Justified P h) {e : ε} (he : P h e) :
    Justified P (h++[e]) := by
  intro before x after hx
  rcases List.eq_nil_or_concat' after with rfl|⟨l,y,rfl⟩
  · obtain ⟨hb,hxe⟩ := List.append_inj' hx rfl
    rw [←hb,←List.singleton_inj.mp hxe]
    exact he
  · have hsplit : h++[e]=(before++x::l)++[y] := by rw [hx,List.append_assoc]; rfl
    exact hh before x l (List.append_inj' hsplit rfl).1

/-- The last event and those before it. -/
theorem justified_concat {h : List ε} {e : ε} :
    Justified P (h++[e]) ↔ Justified P h ∧ P h e := by
  refine ⟨fun hh => ⟨fun before x after hx => ?_,hh h e [] rfl⟩,fun hh => hh.1.concat hh.2⟩
  refine hh before x (after++[e]) ?_
  rw [hx,List.append_assoc]
  rfl

/-- The event at a position. -/
theorem Justified.getElem? {h : List ε} (hh : Justified P h) {i : ℕ} {e : ε} (he : h[i]?=some e) :
    P (h.take i) e := by
  obtain ⟨hlt,rfl⟩ := List.getElem?_eq_some_iff.mp he
  refine hh _ _ (h.drop (i+1)) ?_
  rw [List.getElem_cons_drop,List.take_append_drop]

/-- Several more events. -/
theorem Justified.append {h l : List ε} (hh : Justified P h)
    (hl : ∀ before,before⊆l → ∀ e∈l,P (h++before) e) : Justified P (h++l) := by
  induction l generalizing h with
  | nil => rwa [List.append_nil]
  | cons a l ih =>
    have ha : P h a := by
      have hfirst := hl [] (List.nil_subset _) a List.mem_cons_self
      rwa [List.append_nil] at hfirst
    have hrest : Justified P ((h++[a])++l) := by
      refine ih (hh.concat ha) fun before hb e he => ?_
      rw [List.append_assoc]
      refine hl (a::before) ?_ e (List.mem_cons_of_mem _ he)
      exact List.cons_subset_cons a hb
    rwa [List.append_assoc] at hrest

/-- A step is recorded with its cause first and its effects after it. -/
theorem Justified.record {h out : List ε} (hh : Justified P h) {cause : ε} (hc : P h cause)
    (ho : ∀ before,before⊆out → ∀ e∈out,P (h++cause::before) e) :
    Justified P (h++cause::out) := by
  have hout : Justified P ((h++[cause])++out) := by
    refine (hh.concat hc).append fun before hb e he => ?_
    rw [List.append_assoc]
    exact ho before hb e he
  rwa [List.append_assoc] at hout

/-- Some event was of the first kind, and none after it is of the second. -/
def Since (p q : ε → Prop) (h : List ε) : Prop :=
  ∃ before e after,h=before++e::after ∧ p e ∧ ∀ x∈after,¬q x

variable {p q : ε → Prop}

theorem not_since_nil : ¬Since p q [] := by
  rintro ⟨before,e,after,h,-⟩
  cases before <;> cases h

theorem since_concat {h : List ε} {x : ε} : Since p q (h++[x]) ↔ p x ∨ ¬q x ∧ Since p q h := by
  constructor
  · rintro ⟨before,e,after,hsplit,he,hafter⟩
    rcases List.eq_nil_or_concat' after with rfl|⟨l,y,rfl⟩
    · obtain ⟨-,hxe⟩ := List.append_inj' hsplit rfl
      rw [List.singleton_inj.mp hxe]
      exact Or.inl he
    · have hlast : h++[x]=(before++e::l)++[y] := by rw [hsplit,List.append_assoc]; rfl
      obtain ⟨hh,hxy⟩ := List.append_inj' hlast rfl
      rw [List.singleton_inj.mp hxy]
      refine Or.inr ⟨hafter y (List.mem_append_right _ List.mem_cons_self),before,e,l,hh,he,?_⟩
      exact fun z hz => hafter z (List.mem_append_left _ hz)
  · rintro (hx|⟨hx,before,e,after,rfl,he,hafter⟩)
    · exact ⟨h,x,[],rfl,hx,fun _ hz => absurd hz List.not_mem_nil⟩
    · refine ⟨before,e,after++[x],by rw [List.append_assoc]; rfl,he,fun z hz => ?_⟩
      rcases List.mem_append.mp hz with hz|hz
      · exact hafter z hz
      · exact List.mem_singleton.mp hz ▸ hx

variable {κ ν : Type*} [DecidableEq κ]

/-- The value that was written last under a key. -/
def latest (k : κ) (writes : List (κ×ν)) : Option ν :=
  writes.foldl (fun v w => if w.1=k then some w.2 else v) none

theorem latest_concat (k : κ) (writes : List (κ×ν)) (w : κ×ν) :
    latest k (writes++[w])=if w.1=k then some w.2 else latest k writes := by
  rw [latest,List.foldl_append]
  rfl

end Pheromone.EventHistories
