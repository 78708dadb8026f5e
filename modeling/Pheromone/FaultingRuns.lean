import Mathlib.Init

/-!
# Computations that may fail in a state

A computation returns a value that holds its final state or fails in a
state; relations to the first state are established part by part.
-/

namespace Pheromone.FaultingRuns

variable {σ α β : Type}

/-- The relation holds between a state and the one at the end or at the fault. -/
def Leads (R : σ → σ → Prop) (s : σ) (final : α → σ) : Except σ α → Prop
  | .ok a => R s (final a)
  | .error s' => R s s'

/-- The state at the end or at the fault. -/
def endState (final : α → σ) : Except σ α → σ
  | .ok a => final a
  | .error s' => s'

variable {x : Except σ α}

theorem Leads.endState {R : σ → σ → Prop} {s : σ} {final : α → σ} (h : Leads R s final x) :
    R s (endState final x) := by
  cases x with
  | ok a => exact h
  | error s' => exact h

variable {f : α → Except σ β}

/-- What a sequence has returned, its parts have. -/
theorem bind_eq_ok {b : β} (h : (x >>= f)=.ok b) : ∃ a,x=.ok a ∧ f a=.ok b := by
  cases x with
  | ok a => exact ⟨a,rfl,h⟩
  | error s => cases h

/-- What a mapped computation has returned. -/
theorem map_eq_ok {f : α → β} {b : β} (h : x.map f=.ok b) : ∃ a,x=.ok a ∧ f a=b := by
  cases x with
  | ok a => exact ⟨a,rfl,Except.ok.inj h⟩
  | error s => cases h

variable {R S : σ → σ → Prop} {s t : σ} {final : α → σ} {final' : β → σ}

theorem Leads.ok {a : α} (h : Leads R s final x) (hx : x=.ok a) : R s (final a) := by
  subst hx
  exact h

/-- A weaker relation. -/
theorem Leads.mono (h : Leads R s final x) (hRS : ∀ s',R s s' → S t s') : Leads S t final x := by
  cases x with
  | ok a => exact hRS _ h
  | error s' => exact hRS _ h

/-- Sequential composition. -/
theorem Leads.bind (htrans : ∀ a b c,R a b → R b c → R a c) (hx : Leads R s final x)
    (hf : ∀ a,x=.ok a → Leads R (final a) final' (f a)) : Leads R s final' (x >>= f) := by
  cases x with
  | ok a => exact (hf a rfl).mono fun _ h => htrans _ _ _ hx h
  | error s' => exact hx

/-- A pure part before the rest. -/
theorem Leads.after (htrans : ∀ a b c,R a b → R b c → R a c) (hst : R s t) (hx : Leads R t final x) :
    Leads R s final x := hx.mono fun _ h => htrans _ _ _ hst h

/-- A pure part after a computation. -/
theorem Leads.map (htrans : ∀ a b c,R a b → R b c → R a c) {f : α → β} (hx : Leads R s final x)
    (hf : ∀ a,x=.ok a → R (final a) (final' (f a))) : Leads R s final' (x.map f) := by
  cases x with
  | ok a => exact htrans _ _ _ hx (hf a rfl)
  | error s' => exact hx

variable {l : List β}

/-- A loop over a list. -/
theorem leads_foldlM (hrefl : ∀ s,R s s) (htrans : ∀ a b c,R a b → R b c → R a c)
    {f : σ → β → Except σ σ} (hf : ∀ s,∀ b∈l,Leads R s id (f s b)) (s : σ) :
    Leads R s id (l.foldlM f s) := by
  induction l generalizing s with
  | nil => exact hrefl s
  | cons b l ih =>
    rw [List.foldlM_cons]
    exact (hf s b List.mem_cons_self).bind htrans
      fun s' _ => ih (fun s b hb => hf s b (List.mem_cons_of_mem _ hb)) s'

/-- One relation holds between a state and the one at the end, another one
between it and the one at a fault. -/
def LeadsOr (R E : σ → σ → Prop) (s : σ) (final : α → σ) : Except σ α → Prop
  | .ok a => R s (final a)
  | .error s' => E s s'

variable {E : σ → σ → Prop}

theorem Leads.or (h : Leads R s final x) (hE : ∀ a b,R a b → E a b) : LeadsOr R E s final x := by
  cases x with
  | ok a => exact h
  | error s' => exact hE _ _ h

theorem LeadsOr.leads (h : LeadsOr R R s final x) : Leads R s final x := by
  cases x with
  | ok a => exact h
  | error s' => exact h

theorem LeadsOr.ok {a : α} (h : LeadsOr R E s final x) (hx : x=.ok a) : R s (final a) := by
  subst hx
  exact h

/-- Where nothing is asked of faults. -/
theorem leadsOr_of_ok (h : ∀ a,x=.ok a → R s (final a)) :
    LeadsOr R (fun _ _ => True) s final x := by
  cases x with
  | ok a => exact h a rfl
  | error s' => trivial

theorem LeadsOr.after (htrans : ∀ a b c,R a b → R b c → R a c)
    (hfault : ∀ a b c,R a b → E b c → E a c) (hst : R s t) (hx : LeadsOr R E t final x) :
    LeadsOr R E s final x := by
  cases x with
  | ok a => exact htrans _ _ _ hst hx
  | error s' => exact hfault _ _ _ hst hx

theorem LeadsOr.bind (htrans : ∀ a b c,R a b → R b c → R a c)
    (hfault : ∀ a b c,R a b → E b c → E a c) (hx : LeadsOr R E s final x)
    (hf : ∀ a,x=.ok a → LeadsOr R E (final a) final' (f a)) : LeadsOr R E s final' (x >>= f) := by
  cases x with
  | ok a => exact (hf a rfl).after htrans hfault hx
  | error s' => exact hx

theorem LeadsOr.map (htrans : ∀ a b c,R a b → R b c → R a c) {f : α → β}
    (hx : LeadsOr R E s final x) (hf : ∀ a,x=.ok a → R (final a) (final' (f a))) :
    LeadsOr R E s final' (x.map f) := by
  cases x with
  | ok a => exact htrans _ _ _ hx (hf a rfl)
  | error s' => exact hx

theorem leadsOr_foldlM (hrefl : ∀ s,R s s) (htrans : ∀ a b c,R a b → R b c → R a c)
    (hfault : ∀ a b c,R a b → E b c → E a c) {f : σ → β → Except σ σ}
    (hf : ∀ s,∀ b∈l,LeadsOr R E s id (f s b)) (s : σ) : LeadsOr R E s id (l.foldlM f s) := by
  induction l generalizing s with
  | nil => exact hrefl s
  | cons b l ih =>
    rw [List.foldlM_cons]
    exact (hf s b List.mem_cons_self).bind htrans hfault
      fun s' _ => ih (fun s b hb => hf s b (List.mem_cons_of_mem _ hb)) s'

/-- A property of the state at the end or at the fault. -/
def Ends (Q : σ → Prop) (final : α → σ) : Except σ α → Prop
  | .ok a => Q (final a)
  | .error s' => Q s'

variable {Q : σ → Prop}

theorem Ends.endState (h : Ends Q final x) : Q (endState final x) := by
  cases x with
  | ok a => exact h
  | error s' => exact h

/-- What a relation carries over from the state before. -/
theorem Leads.ends (h : Leads R s final x) (hQ : ∀ s',R s s' → Q s') : Ends Q final x := by
  cases x with
  | ok a => exact hQ _ h
  | error s' => exact hQ _ h

theorem Ends.leads (h : Ends Q final x) : Leads (fun a b => Q a → Q b) s final x := by
  cases x with
  | ok a => exact fun _ => h
  | error s' => exact fun _ => h

/-- Sequential composition: the rest starts where the property holds. -/
theorem Ends.bind (hx : Ends Q final x) (hf : ∀ a,x=.ok a → Q (final a) → Ends Q final' (f a)) :
    Ends Q final' (x >>= f) := by
  cases x with
  | ok a => exact hf a rfl hx
  | error s' => exact hx

/-- A pure part after a computation. -/
theorem Ends.map {f : α → β} (hx : Ends Q final x) (hf : ∀ a,Q (final a) → Q (final' (f a))) :
    Ends Q final' (x.map f) := by
  cases x with
  | ok a => exact hf a hx
  | error s' => exact hx

/-- The invariant rule for a loop over a list. -/
theorem ends_foldlM {f : σ → β → Except σ σ} (hf : ∀ s,∀ b∈l,Q s → Ends Q id (f s b)) (hs : Q s) :
    Ends Q id (l.foldlM f s) := by
  induction l generalizing s with
  | nil => exact hs
  | cons b l ih =>
    rw [List.foldlM_cons]
    exact (hf s b List.mem_cons_self hs).bind
      fun s' _ hs' => ih (fun s b hb => hf s b (List.mem_cons_of_mem _ hb)) hs'

end Pheromone.FaultingRuns
