import Pheromone.ReplicaNetwork

/-!
# Puts that meet the center in step

A put is in step if the leaf's replica is in the state that the center will
have. If every put is, the network behaves as one collector.
-/

namespace Pheromone.LockstepReplicas

open ReplicaNetwork

variable {ι σ ω α ς : Type*} [DecidableEq ι] (R : Replica σ ω α ς)

/-- Each report of a link is marked exactly if the center will produce
something on it, and the last one leaves the center in a state. -/
def Follows : σ → List (ω×Bool) → σ → Prop
  | c,[],v => c=v
  | c,e::link,v => e.2=(!(R.arrive c e.1).2.isEmpty) ∧ Follows (R.arrive c e.1).1 link v

theorem follows_append {c v : σ} {link : List (ω×Bool)} (h : Follows R c link v) (o : ω) :
    Follows R c (link++[(o,!(R.arrive v o).2.isEmpty)]) (R.arrive v o).1 := by
  induction link generalizing c with
  | nil =>
    obtain rfl : c=v := h
    exact ⟨rfl,rfl⟩
  | cons e link ih => exact ⟨h.1,ih h.2⟩

/-- The reports of at most one leaf are under way, the center follows them to
a state, and nothing is to be cleared. -/
structure InStep (n : Net ι σ ω α ς) (v : σ) : Prop where
  /-- At most one leaf has reports under way. -/
  single : ∀ i j,n.up i≠[] → n.up j≠[] → i=j
  /-- The center follows a leaf beside which there are none. -/
  follows : ∀ i,(∀ j,j≠i → n.up j=[]) → Follows R n.center (n.up i) v
  down : ∀ j,n.down j=[]

variable {R} {n : Net ι σ ω α ς} {v : σ}

omit [DecidableEq ι] in
theorem inStep_start (s : σ) : InStep R (Net.start s : Net ι σ ω α ς) s :=
  ⟨fun _ _ h => absurd rfl h,fun _ _ => rfl,fun _ => rfl⟩

/-- A put in step advances the common state. -/
theorem inStep_put (h : InStep R n v) {i : ι} (hleaf : n.leaf i=v) (hi : ∀ j,j≠i → n.up j=[]) (o : ω) :
    InStep R (R.put n i o) (R.arrive v o).1 := by
  have hself : (R.put n i o).up i=n.up i++[(o,!(R.arrive v o).2.isEmpty)] := by
    simp only [Replica.put,Function.update_self,hleaf]
  have hother : ∀ j,j≠i → (R.put n i o).up j=[] := by
    intro j hj
    simp only [Replica.put,Function.update_of_ne hj]
    exact hi j hj
  have hfocus : ∀ j,(R.put n i o).up j≠[] → j=i := fun j hj => not_imp_comm.mp (hother j) hj
  refine ⟨fun j k hj hk => (hfocus j hj).trans (hfocus k hk).symm,fun j hj => ?_,h.down⟩
  by_cases hji : j=i
  · rw [hji,hself]
    exact follows_append R (h.follows i hi) o
  · have hnil := hj i (Ne.symm hji)
    rw [hself] at hnil
    exact absurd hnil (by simp)

/-- What a delivery produces has been fired by the leaf already. -/
theorem inStep_deliver (h : InStep R n v) {i : ι} {o : ω} {mark : Bool} {rest : List (ω×Bool)}
    (hu : n.up i=(o,mark)::rest) :
    InStep R (R.deliver n i o mark rest) v ∧ (R.deliver n i o mark rest).fired=n.fired := by
  have hi : ∀ j,j≠i → n.up j=[] := by
    intro j hj
    by_contra hne
    exact hj (h.single j i hne (by rw [hu]; exact List.cons_ne_nil _ _))
  have hf := h.follows i hi
  rw [hu] at hf
  obtain ⟨hmark,hrest⟩ := hf
  have hquiet : (mark || (R.arrive n.center o).2.isEmpty)=true := by
    have hm : mark=(!(R.arrive n.center o).2.isEmpty) := hmark
    rw [hm]
    cases (R.arrive n.center o).2.isEmpty <;> rfl
  have hself : (R.deliver n i o mark rest).up i=rest := by
    simp only [Replica.deliver,Function.update_self]
  have hother : ∀ j,j≠i → (R.deliver n i o mark rest).up j=[] := by
    intro j hj
    simp only [Replica.deliver,Function.update_of_ne hj]
    exact hi j hj
  have hfocus : ∀ j,(R.deliver n i o mark rest).up j≠[] → j=i :=
    fun j hj => not_imp_comm.mp (hother j) hj
  refine ⟨⟨fun j k hj hk => (hfocus j hj).trans (hfocus k hk).symm,fun j hj => ?_,fun j => ?_⟩,?_⟩
  · by_cases hji : j=i
    · rw [hji,hself]
      exact hrest
    · rw [hother j hji]
      rw [←hself,hj i (Ne.symm hji)] at hrest
      exact hrest
  · simp only [Replica.deliver,hquiet,if_true]
    exact h.down j
  · cases mark with
    | true => simp [Replica.deliver]
    | false =>
      have hnil : (R.arrive n.center o).2=[] := by simpa using hquiet
      simp [Replica.deliver,hnil]

end Pheromone.LockstepReplicas
