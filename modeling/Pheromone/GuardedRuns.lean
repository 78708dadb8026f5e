import Mathlib.Data.List.Basic

/-!
# Runs of a partial step function and their invariants

A step that is not enabled, or would leave defined behaviour, has no
successor. A run folds the step over labels; invariants and simulations need
only what one step preserves.
-/

namespace Pheromone.GuardedRuns

variable {σ τ α β : Type*}

/-- Fold a partial step over the labels of a run. -/
def run (step : σ → α → Option σ) : σ → List α → Option σ
  | s,[] => some s
  | s,a::l => (step s a).bind fun s' => run step s' l

/-- Every step of the run from a state meets a condition on the state
before the step and the label. -/
def StepsMeet (step : σ → α → Option σ) (ok : σ → α → Prop) : σ → List α → Prop
  | _,[] => True
  | s,a::l => ok s a ∧ ∀ s',step s a=some s' → StepsMeet step ok s' l

/-- Every state that the run from a state passes through has a property. -/
def AllStates (step : σ → α → Option σ) (good : σ → Prop) : σ → List α → Prop
  | s,[] => good s
  | s,a::l => good s ∧ ∀ s',step s a=some s' → AllStates step good s' l

variable {step : σ → α → Option σ}

@[simp] theorem run_nil (s : σ) : run step s []=some s := rfl

theorem run_cons_eq_some {s t : σ} {a : α} {l : List α} :
    run step s (a::l)=some t ↔ ∃ s',step s a=some s' ∧ run step s' l=some t :=
  Option.bind_eq_some_iff

/-- The condition along a run whose first step is known. -/
theorem stepsMeet_cons {ok : σ → α → Prop} {s s' : σ} {a : α} {l : List α} (ha : ok s a)
    (hs : step s a=some s') (hl : StepsMeet step ok s' l) : StepsMeet step ok s (a::l) :=
  ⟨ha,fun _ h => Option.some.inj (hs.symm.trans h) ▸ hl⟩

/-- A condition on labels that all labels meet is met along the run. -/
theorem stepsMeet_of_forall {ok : σ → α → Prop} {l : List α} (h : ∀ a∈l,∀ s,ok s a) (s : σ) :
    StepsMeet step ok s l := by
  induction l generalizing s with
  | nil => trivial
  | cons a l ih =>
    obtain ⟨ha,hl⟩ := List.forall_mem_cons.mp h
    exact ⟨ha s,fun s' _ => ih hl s'⟩

/-- Two conditions together. -/
theorem StepsMeet.and {ok ok' : σ → α → Prop} {s : σ} {l : List α} (h : StepsMeet step ok s l)
    (h' : StepsMeet step ok' s l) : StepsMeet step (fun s a => ok s a ∧ ok' s a) s l := by
  induction l generalizing s with
  | nil => trivial
  | cons a l ih => exact ⟨⟨h.1,h'.1⟩,fun s' hs => ih (h.2 s' hs) (h'.2 s' hs)⟩

/-- Whether the steps of a run meet a decidable condition can be computed. -/
instance decidableStepsMeet {ok : σ → α → Prop} [∀ s a,Decidable (ok s a)] :
    (s : σ) → (l : List α) → Decidable (StepsMeet step ok s l)
  | _,[] => isTrue trivial
  | s,a::l => match h : step s a with
    | none => decidable_of_iff (ok s a) ⟨fun ha => ⟨ha,fun _ hs => by rw [h] at hs; cases hs⟩,And.left⟩
    | some s' =>
      haveI : Decidable (StepsMeet step ok s' l) := decidableStepsMeet s' l
      decidable_of_iff (ok s a ∧ StepsMeet step ok s' l)
        ⟨fun ha => stepsMeet_cons ha.1 h ha.2,fun ha => ⟨ha.1,ha.2 s' h⟩⟩

/-- What a computed result shows. -/
theorem exists_of_decided {x : Option σ} {p : σ → Prop} [DecidablePred p]
    (h : (x.map fun s => decide (p s))=some true) : ∃ s,x=some s ∧ p s := by
  obtain ⟨s,hs,hp⟩ := Option.map_eq_some_iff.mp h
  exact ⟨s,hs,of_decide_eq_true hp⟩

/-- A run over a concatenation is a run followed by a run. -/
theorem run_append_eq_some {s t : σ} {l m : List α} :
    run step s (l++m)=some t ↔ ∃ s',run step s l=some s' ∧ run step s' m=some t := by
  induction l generalizing s with
  | nil => simp
  | cons a l ih =>
    simp only [List.cons_append,run_cons_eq_some,ih]
    constructor
    · rintro ⟨u,hu,v,hv,ht⟩
      exact ⟨v,⟨u,hu,hv⟩,ht⟩
    · rintro ⟨v,⟨u,hu,hv⟩,ht⟩
      exact ⟨u,hu,v,hv,ht⟩

/-- The condition along both parts of a run. -/
theorem stepsMeet_append {ok : σ → α → Prop} {s t : σ} {l m : List α} (hr : run step s l=some t) :
    StepsMeet step ok s (l++m) ↔ StepsMeet step ok s l ∧ StepsMeet step ok t m := by
  induction l generalizing s with
  | nil => exact Option.some.inj hr ▸ (and_iff_right trivial).symm
  | cons a l ih =>
    obtain ⟨s',ha,hl⟩ := run_cons_eq_some.mp hr
    constructor
    · intro h
      obtain ⟨hfirst,hsecond⟩ := (ih hl).mp (h.2 s' ha)
      exact ⟨stepsMeet_cons h.1 ha hfirst,hsecond⟩
    · intro h
      exact stepsMeet_cons h.1.1 ha ((ih hl).mpr ⟨h.1.2 s' ha,h.2⟩)

/-- What every step preserves holds at the end of every run. -/
theorem run_invariant {inv : σ → Prop}
    (hstep : ∀ s a s',inv s → step s a=some s' → inv s')
    {s t : σ} {l : List α} (hs : inv s) (hr : run step s l=some t) : inv t := by
  induction l generalizing s with
  | nil => exact Option.some.inj hr ▸ hs
  | cons a l ih =>
    obtain ⟨s',ha,hl⟩ := run_cons_eq_some.mp hr
    exact ih (hstep s a s' hs ha) hl

/-- If every step over a label of the list has a successor and keeps the
invariant, so does the run. -/
theorem run_progress {inv : σ → Prop} {l : List α}
    (hstep : ∀ s,∀ a∈l,inv s → ∃ s',step s a=some s' ∧ inv s') {s : σ} (hs : inv s) :
    ∃ t,run step s l=some t ∧ inv t := by
  induction l generalizing s with
  | nil => exact ⟨s,rfl,hs⟩
  | cons a l ih =>
    obtain ⟨s',ha,hs'⟩ := hstep s a List.mem_cons_self hs
    obtain ⟨t,ht,hinv⟩ := ih (fun s b hb => hstep s b (List.mem_cons_of_mem _ hb)) hs'
    exact ⟨t,run_cons_eq_some.mpr ⟨s',ha,ht⟩,hinv⟩

/-- A loop over a list is a run. -/
theorem foldlM_eq_run {σ α : Type} (step : σ → α → Option σ) (s : σ) (l : List α) :
    l.foldlM step s=run step s l := by
  induction l generalizing s with
  | nil => rfl
  | cons a l ih =>
    rw [List.foldlM_cons]
    exact congrArg (step s a).bind (funext ih)

/-- What every step over an element of the list preserves holds at the end
of the loop. -/
theorem foldlM_invariant {σ α : Type} {step : σ → α → Option σ} {inv : σ → Prop} {l : List α}
    (hstep : ∀ s s',∀ a∈l,inv s → step s a=some s' → inv s') {s t : σ} (hs : inv s)
    (hr : l.foldlM step s=some t) : inv t := by
  induction l generalizing s with
  | nil => exact Option.some.inj hr ▸ hs
  | cons a l ih =>
    rw [List.foldlM_cons] at hr
    obtain ⟨s',ha,hl⟩ := Option.bind_eq_some_iff.mp hr
    exact ih (fun s s' b hb => hstep s s' b (List.mem_cons_of_mem _ hb))
      (hstep s s' a List.mem_cons_self hs ha) hl

/-- What every step that meets the condition preserves holds at the end
of every run whose steps all meet it. -/
theorem run_invariant_of_steps {inv : σ → Prop} {ok : σ → α → Prop}
    (hstep : ∀ s a s',inv s → ok s a → step s a=some s' → inv s')
    {s t : σ} {l : List α} (hs : inv s) (hm : StepsMeet step ok s l)
    (hr : run step s l=some t) : inv t := by
  induction l generalizing s with
  | nil => exact Option.some.inj hr ▸ hs
  | cons a l ih =>
    obtain ⟨s',ha,hl⟩ := run_cons_eq_some.mp hr
    exact ih (hstep s a s' hs hm.1 ha) (hm.2 s' ha) hl

/-- What every step that meets the condition preserves holds in all states of
a run whose steps meet it. -/
theorem allStates_of_stepsMeet {inv good : σ → Prop} {ok : σ → α → Prop}
    (hgood : ∀ s,inv s → good s)
    (hstep : ∀ s a s',inv s → ok s a → step s a=some s' → inv s')
    {s : σ} {l : List α} (hs : inv s) (hm : StepsMeet step ok s l) : AllStates step good s l := by
  induction l generalizing s with
  | nil => exact hgood s hs
  | cons a l ih => exact ⟨hgood s hs,fun s' ha => ih (hstep s a s' hs hm.1 ha) (hm.2 s' ha)⟩

/-- The last state of a run is one of its states. -/
theorem allStates_last {good : σ → Prop} {s t : σ} {l : List α} (h : AllStates step good s l)
    (hr : run step s l=some t) : good t := by
  induction l generalizing s with
  | nil => exact Option.some.inj hr ▸ h
  | cons a l ih =>
    obtain ⟨s',ha,hl⟩ := run_cons_eq_some.mp hr
    exact ih (h.2 s' ha) hl

/-- A condition that keeps the invariant, and without which a step leads to a
bad state, is met along a run exactly when all its states are good. -/
theorem allStates_iff_stepsMeet {inv good : σ → Prop} {ok : σ → α → Prop}
    (hgood : ∀ s,inv s → good s)
    (hstep : ∀ s a s',inv s → ok s a → step s a=some s' → inv s')
    (hbad : ∀ s a s',inv s → ¬ok s a → step s a=some s' → ¬good s')
    {s t : σ} {l : List α} (hs : inv s) (hr : run step s l=some t) :
    AllStates step good s l ↔ StepsMeet step ok s l := by
  refine ⟨fun hall => ?_,allStates_of_stepsMeet hgood hstep hs⟩
  induction l generalizing s with
  | nil => trivial
  | cons a l ih =>
    obtain ⟨s',ha,hl⟩ := run_cons_eq_some.mp hr
    have hok : ok s a := by
      by_contra hno
      refine hbad s a s' hs hno ha ?_
      have hrest := hall.2 s' ha
      cases l with
      | nil => exact hrest
      | cons b l => exact hrest.1
    exact stepsMeet_cons hok ha (ih (hstep s a s' hs hok ha) hl (hall.2 s' ha))

/-- A relation that every concrete step carries to a run of the abstract
system relates the ends of a whole concrete run to those of an abstract one. -/
theorem run_simulation {astep : τ → β → Option τ} {rel : σ → τ → Prop}
    (hstep : ∀ s t a s',rel s t → step s a=some s' →
      ∃ l t',run astep t l=some t' ∧ rel s' t')
    {s s' : σ} {t : τ} {l : List α} (hs : rel s t) (hr : run step s l=some s') :
    ∃ m t',run astep t m=some t' ∧ rel s' t' := by
  induction l generalizing s t with
  | nil => exact ⟨[],t,rfl,Option.some.inj hr ▸ hs⟩
  | cons a l ih =>
    obtain ⟨u,ha,hl⟩ := run_cons_eq_some.mp hr
    obtain ⟨m,v,hv,huv⟩ := hstep s t a u hs ha
    obtain ⟨m',w,hw,hsw⟩ := ih huv hl
    exact ⟨m++m',w,run_append_eq_some.mpr ⟨v,hv,hw⟩,hsw⟩

end Pheromone.GuardedRuns
