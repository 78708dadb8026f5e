import Pheromone.GuardedRuns
import Mathlib.Logic.Function.Basic

/-!
# A center that broadcasts its changes

Operations change the center, which sends messages to replicas over
first-in first-out links. The messages under way to a replica are what its
view lacks, or lead to a view that is related to the center.
-/

namespace Pheromone.BroadcastReplicas

open GuardedRuns

/-- Center, replicas and links. -/
structure Net (ι κ σ μ : Type*) where
  /-- State of the center. -/
  center : κ
  /-- State of every replica. -/
  replica : ι → σ
  /-- Messages on the way to a replica, oldest first. -/
  link : ι → List μ

/-- An operation at the center, or a delivery under outer conditions. -/
inductive Event (ι ω δ : Type*) where
  | op (o : ω)
  | deliver (i : ι) (d : δ)

/-- What operations and messages do; both may fail. -/
structure System (ι κ σ ω δ μ : Type*) where
  /-- New center and addressed messages of an operation. -/
  operate : κ → ω → Option (κ×List (ι×μ))
  /-- New replica after a message. -/
  receive : δ → σ → μ → Option σ

variable {ι κ σ ω δ μ V : Type*} [DecidableEq ι]

/-- The messages for one replica, in order. -/
def addressed (i : ι) (msgs : List (ι×μ)) : List μ :=
  msgs.filterMap fun e => if e.1=i then some e.2 else none

/-- The operations among the events. -/
def operations (l : List (Event ι ω δ)) : List ω :=
  l.filterMap fun
    | .op o => some o
    | .deliver _ _ => none

omit [DecidableEq ι] in
theorem mem_operations {l : List (Event ι ω δ)} {o : ω} : o∈operations l ↔ .op o∈l := by
  rw [operations,List.mem_filterMap]
  constructor
  · rintro ⟨e,he,ho⟩
    cases e with
    | op o' => exact Option.some.inj ho ▸ he
    | deliver i d => cases ho
  · exact fun h => ⟨_,h,rfl⟩

/-- A decidable condition on operations, as a condition on events. -/
instance {ok : κ → ω → Prop} [∀ c o,Decidable (ok c o)] (c : κ) (e : Event ι ω δ) :
    Decidable (∀ o,e=.op o → ok c o) :=
  match e with
  | .op o => decidable_of_iff (ok c o) ⟨fun h _ he => Event.op.inj he ▸ h,fun h => h o rfl⟩
  | .deliver _ _ => isTrue fun _ he => by cases he

namespace System

variable (S : System ι κ σ ω δ μ)

/-- One step: a delivery needs a message. -/
def step (n : Net ι κ σ μ) : Event ι ω δ → Option (Net ι κ σ μ)
  | .op o => (S.operate n.center o).map fun r =>
      {n with
        center := r.1
        link := fun i => n.link i++addressed i r.2}
  | .deliver i d => match n.link i with
    | [] => none
    | m::rest => (S.receive d (n.replica i) m).map fun s =>
        {n with
          replica := Function.update n.replica i s
          link := Function.update n.link i rest}

variable {n n' : Net ι κ σ μ} {e : Event ι ω δ}

/-- Everything one step can do. -/
theorem step_cases (h : S.step n e=some n') :
    (∃ o c msgs,e=.op o ∧ S.operate n.center o=some (c,msgs) ∧
      n'={n with
        center := c
        link := fun i => n.link i++addressed i msgs}) ∨
    (∃ i d m rest s,e=.deliver i d ∧ n.link i=m::rest ∧ S.receive d (n.replica i) m=some s ∧
      n'={n with
        replica := Function.update n.replica i s
        link := Function.update n.link i rest}) := by
  cases e with
  | op o =>
    obtain ⟨⟨c,msgs⟩,hr,he⟩ := Option.map_eq_some_iff.mp h
    exact Or.inl ⟨o,c,msgs,rfl,hr,he.symm⟩
  | deliver i d =>
    cases hl : n.link i with
    | nil => simp [step,hl] at h
    | cons m rest =>
      simp only [step,hl] at h
      obtain ⟨s,hs,he⟩ := Option.map_eq_some_iff.mp h
      exact Or.inr ⟨i,d,m,rest,s,rfl,hl,hs,he.symm⟩

variable (viewC : κ → V) (viewR : σ → V) (act : V → μ → V) (member : κ → ι → Prop)

/-- The messages under way are what the views of the members lack. -/
def Lags (n : Net ι κ σ μ) : Prop :=
  ∀ i,member n.center i → (n.link i).foldl act (viewR (n.replica i))=viewC n.center

variable {viewC viewR act member} {ok : κ → ω → Prop}

/-- Operations that change the center's view as their messages do, and
messages that change every view alike, keep the lag. -/
theorem lags_step (hop : ∀ c o c' msgs,ok c o → S.operate c o=some (c',msgs) → ∀ i,member c' i →
      member c i ∧ viewC c'=(addressed i msgs).foldl act (viewC c))
    (hrecv : ∀ d s m s',S.receive d s m=some s' → viewR s'=act (viewR s) m)
    (hl : Lags viewC viewR act member n) (hok : ∀ o,e=.op o → ok n.center o)
    (h : S.step n e=some n') : Lags viewC viewR act member n' := by
  intro i hi
  obtain ⟨o,c,msgs,he,hr,rfl⟩|⟨j,d,m,rest,s,-,hlink,hs,rfl⟩ := S.step_cases h
  · obtain ⟨hm,hv⟩ := hop n.center o c msgs (hok o he) hr i hi
    show (n.link i++addressed i msgs).foldl act (viewR (n.replica i))=viewC c
    rw [List.foldl_append,hl i hm,hv]
  · by_cases hij : i=j
    · subst hij
      have hold := hl i hi
      rw [hlink,List.foldl_cons,←hrecv d _ m s hs] at hold
      simpa using hold
    · simpa [Function.update_of_ne hij] using hl i hi

variable {l : List (Event ι ω δ)}

/-- A member with an empty link agrees with the center at the end of every
run whose operations all meet the condition. -/
theorem view_eq_of_run
    (hop : ∀ c o c' msgs,ok c o → S.operate c o=some (c',msgs) → ∀ i,member c' i →
      member c i ∧ viewC c'=(addressed i msgs).foldl act (viewC c))
    (hrecv : ∀ d s m s',S.receive d s m=some s' → viewR s'=act (viewR s) m)
    (hl : Lags viewC viewR act member n)
    (hok : StepsMeet S.step (fun n e => ∀ o,e=.op o → ok n.center o) n l)
    (hr : run S.step n l=some n') {i : ι} (hi : member n'.center i) (hlink : n'.link i=[]) :
    viewR (n'.replica i)=viewC n'.center := by
  have hend : Lags viewC viewR act member n' :=
    run_invariant_of_steps (fun _ _ _ hl hok h => lags_step S hop hrecv hl hok h) hl hok hr
  have hview := hend i hi
  rwa [hlink] at hview

/-- Every message fits the view that those before it lead to. -/
def Fits (act : V → μ → V) (fits : V → μ → Prop) : V → List μ → Prop
  | _,[] => True
  | v,m::rest => fits v m ∧ Fits act fits (act v m) rest

omit [DecidableEq ι] in
theorem fits_append {fits : V → μ → Prop} {v : V} {l l' : List μ} :
    Fits act fits v (l++l') ↔ Fits act fits v l ∧ Fits act fits (l.foldl act v) l' := by
  induction l generalizing v with
  | nil => exact (and_iff_right trivial).symm
  | cons m l ih => exact (and_congr_right fun _ => ih).trans and_assoc.symm

/-- The messages under way to a member fit, and lead to a view that is
related to the center. -/
def Follows (viewR : σ → V) (act : V → μ → V) (fits : V → μ → Prop) (rel : V → κ → Prop)
    (member : κ → ι → Prop) (n : Net ι κ σ μ) : Prop :=
  ∀ i,member n.center i → Fits act fits (viewR (n.replica i)) (n.link i) ∧
    rel ((n.link i).foldl act (viewR (n.replica i))) n.center

/-- Operations whose messages fit every related view, and lead to one that is
related to the new center, keep this up. -/
theorem follows_step {fits : V → μ → Prop} {rel : V → κ → Prop}
    (hop : ∀ c o c' msgs,ok c o → S.operate c o=some (c',msgs) → ∀ i,member c' i →
      member c i ∧ ∀ v,rel v c → Fits act fits v (addressed i msgs) ∧
        rel ((addressed i msgs).foldl act v) c')
    (hrecv : ∀ d s m s',S.receive d s m=some s' → viewR s'=act (viewR s) m)
    (hn : Follows viewR act fits rel member n) (hok : ∀ o,e=.op o → ok n.center o)
    (h : S.step n e=some n') : Follows viewR act fits rel member n' := by
  intro i hi
  obtain ⟨o,c,msgs,he,hr,rfl⟩|⟨j,d,m,rest,s,-,hlink,hs,rfl⟩ := S.step_cases h
  · obtain ⟨hm,hv⟩ := hop n.center o c msgs (hok o he) hr i hi
    obtain ⟨hfits,hrel⟩ := hn i hm
    obtain ⟨hnew,hrel'⟩ := hv _ hrel
    refine ⟨fits_append.mpr ⟨hfits,hnew⟩,?_⟩
    show rel ((n.link i++addressed i msgs).foldl act (viewR (n.replica i))) c
    rw [List.foldl_append]
    exact hrel'
  · by_cases hij : i=j
    · subst hij
      obtain ⟨hfits,hrel⟩ := hn i hi
      rw [hlink] at hfits hrel
      dsimp only
      rw [Function.update_self,Function.update_self,hrecv d _ m s hs]
      exact ⟨hfits.2,hrel⟩
    · dsimp only
      rw [Function.update_of_ne hij,Function.update_of_ne hij]
      exact hn i hi

/-- The system with a record of the operations at its center. -/
def recorded : System ι (κ×List ω) σ ω δ μ where
  operate c o := (S.operate c.1 o).map fun r => ((r.1,c.2++[o]),r.2)
  receive := S.receive

/-- A state together with a record. -/
def withRecord (n : Net ι κ σ μ) (h : List ω) : Net ι (κ×List ω) σ μ :=
  ⟨(n.center,h),n.replica,n.link⟩

theorem step_recorded (hs : S.step n e=some n') (h : List ω) :
    S.recorded.step (withRecord n h) e=some (withRecord n' (h++operations [e])) := by
  obtain ⟨o,c,msgs,rfl,ho,rfl⟩|⟨i,d,m,rest,s,rfl,hlink,hr,rfl⟩ := S.step_cases hs
  · have hop : S.recorded.operate (n.center,h) o=some ((c,h++[o]),msgs) :=
      Option.map_eq_some_iff.mpr ⟨(c,msgs),ho,rfl⟩
    show (S.recorded.operate (n.center,h) o).map _=_
    rw [hop]
    rfl
  · have hlink' : (withRecord n h).link i=m::rest := hlink
    simp only [step,hlink']
    refine Option.map_eq_some_iff.mpr ⟨s,hr,?_⟩
    rw [show operations [Event.deliver i d]=([] : List ω) from rfl,List.append_nil]
    rfl

/-- Every run can be recorded. -/
theorem run_recorded (hr : run S.step n l=some n') (h : List ω) :
    run S.recorded.step (withRecord n h) l=some (withRecord n' (h++operations l)) := by
  induction l generalizing n h with
  | nil =>
    rw [show operations ([] : List (Event ι ω δ))=[] from rfl,List.append_nil,Option.some.inj hr]
    rfl
  | cons e l ih =>
    obtain ⟨u,hu,hl⟩ := run_cons_eq_some.mp hr
    have hcons : operations (e::l)=operations [e]++operations l := by
      cases e <;> rfl
    rw [hcons,←List.append_assoc]
    exact run_cons_eq_some.mpr ⟨_,step_recorded S hu h,ih hl _⟩

/-- A member with an empty link agrees with the center at the end of every
run of allowed operations, where the center's view depends on these. -/
theorem view_eq_of_record {view : κ×List ω → V} {allowed : ω → Prop}
    (hop : ∀ c h o c' msgs,allowed o → S.operate c o=some (c',msgs) → ∀ i,member c' i →
      member c i ∧ view (c',h++[o])=(addressed i msgs).foldl act (view (c,h)))
    (hrecv : ∀ d s m s',S.receive d s m=some s' → viewR s'=act (viewR s) m)
    (hl : ∀ i,member n.center i → (n.link i).foldl act (viewR (n.replica i))=view (n.center,[]))
    (hallowed : ∀ o∈operations l,allowed o) (hr : run S.step n l=some n') {i : ι}
    (hi : member n'.center i) (hlink : n'.link i=[]) :
    viewR (n'.replica i)=view (n'.center,operations l) := by
  have hmeet : StepsMeet S.recorded.step (fun _ e => ∀ o,e=.op o → allowed o) (withRecord n []) l := by
    refine stepsMeet_of_forall (fun e he _ o ho => ?_) _
    exact hallowed o (mem_operations.mpr (ho ▸ he))
  have hstep : ∀ (c : κ×List ω) o c' msgs,allowed o → S.recorded.operate c o=some (c',msgs) →
      ∀ i,member c'.1 i → member c.1 i ∧ view c'=(addressed i msgs).foldl act (view c) := by
    intro c o c' msgs ho hc
    obtain ⟨r,hr,he⟩ := Option.map_eq_some_iff.mp hc
    obtain ⟨rfl,rfl⟩ := Prod.mk.inj he
    exact hop c.1 c.2 o r.1 r.2 ho hr
  have hlags : Lags view viewR act (fun c i => member c.1 i) (withRecord n []) := hl
  exact view_eq_of_run S.recorded hstep hrecv hlags hmeet (run_recorded S hr []) hi hlink

end System

end Pheromone.BroadcastReplicas
