import Pheromone.ReplicaNetwork

/-!
# Collectors that are closed by a set of objects

A closing collector fires what it has gathered when a closing set has
arrived. If every object is put once, and a closing one last at each leaf,
there is one firing with all objects.
-/

namespace Pheromone.ClosingReplicas

open GuardedRuns ReplicaNetwork

variable {ι σ ω α ς : Type*} [DecidableEq ι] [DecidableEq ω]

/-- The objects put at a leaf, in order. -/
def atLeaf (i : ι) (puts : List (ι×ω)) : List ω :=
  (puts.filter fun p => decide (p.1=i)).map Prod.snd

omit [DecidableEq ω] in
theorem atLeaf_append (i : ι) (a b : List (ι×ω)) : atLeaf i (a++b)=atLeaf i a++atLeaf i b := by
  rw [atLeaf,List.filter_append,List.map_append]
  rfl

omit [DecidableEq ω] in
theorem mem_atLeaf {i : ι} {puts : List (ι×ω)} {x : ω} : x∈atLeaf i puts ↔ (i,x)∈puts := by
  simp only [atLeaf,List.mem_map,List.mem_filter,decide_eq_true_eq]
  constructor
  · rintro ⟨p,⟨hp,rfl⟩,rfl⟩
    exact hp
  · intro h
    exact ⟨(i,x),⟨h,rfl⟩,rfl⟩

/-- All puts: each object once, the closing ones among them, and at every
leaf a closing one last. -/
structure Plan (C : Finset ω) (Q : List (ι×ω)) : Prop where
  /-- No object is put twice. -/
  nodup : (Q.map Prod.snd).Nodup
  /-- All closing objects are put. -/
  closing : ∀ c∈C,c∈Q.map Prod.snd
  /-- The last object at a leaf is a closing one. -/
  last : ∀ i x,(atLeaf i Q).getLast?=some x → x∈C

section Plans

variable {C : Finset ω} {Q P rest : List (ι×ω)}

omit [DecidableEq ι] [DecidableEq ω] in
/-- An object is put at one leaf only. -/
theorem leaf_unique (hn : (Q.map Prod.snd).Nodup) {i j : ι} {x : ω} (hi : (i,x)∈Q) (hj : (j,x)∈Q) :
    i=j := congrArg Prod.fst (List.inj_on_of_nodup_map hn hi hj rfl)

omit [DecidableEq ω] in
theorem nodup_atLeaf (hn : (Q.map Prod.snd).Nodup) (i : ι) : (atLeaf i Q).Nodup :=
  hn.sublist (List.filter_sublist.map Prod.snd)

omit [DecidableEq ω] in
/-- If the closing objects of a leaf are in a first part of what it puts, that
part is everything. -/
theorem Plan.rest_nil (h : Plan C Q) {i : ι} {a b : List ω} (hab : atLeaf i Q=a++b)
    (hC : ∀ c∈C,c∈b → c∈a) : b=[] := by
  cases hb : b.getLast? with
  | none => exact List.getLast?_eq_none_iff.mp hb
  | some x =>
    have hx : x∈b := List.mem_of_getLast? hb
    have hlast : (atLeaf i Q).getLast?=some x := by
      rw [hab,List.getLast?_append,hb]
      rfl
    have hxC := h.last i x hlast
    have hn := nodup_atLeaf h.nodup i
    rw [hab] at hn
    exact absurd hx ((List.nodup_append.mp hn).2.2 x (hC x hxC hx) x · rfl)

omit [DecidableEq ω] in
/-- A leaf that has seen the closing set is the only one, and all has been put. -/
theorem Plan.complete_leaf (h : Plan C (P++rest)) {w : ι} (hC : ∀ c∈C,c∈atLeaf w P) :
    rest=[] ∧ ∀ p∈P,p.1=w := by
  have honly : ∀ p∈P++rest,p.1=w := by
    rintro ⟨i,x⟩ hp
    have hmem : x∈atLeaf i (P++rest) := mem_atLeaf.mpr hp
    cases hl : (atLeaf i (P++rest)).getLast? with
    | none =>
      rw [List.getLast?_eq_none_iff.mp hl] at hmem
      cases hmem
    | some y =>
      have hi := mem_atLeaf.mp (List.mem_of_getLast? hl)
      have hw := mem_atLeaf.mp (hC y (h.last i y hl))
      exact leaf_unique h.nodup hi (List.mem_append_left _ hw)
  have hnil : atLeaf w rest=[] := h.rest_nil (atLeaf_append w P rest) fun c hc _ => hC c hc
  refine ⟨?_,fun p hp => honly p (List.mem_append_left _ hp)⟩
  rw [List.eq_nil_iff_forall_not_mem]
  rintro ⟨i,x⟩ hx
  have hi : i=w := honly (i,x) (List.mem_append_right _ hx)
  have hm : x∈atLeaf w rest := mem_atLeaf.mpr (hi ▸ hx)
  rw [hnil] at hm
  cases hm

end Plans

/-- All puts with their leaves. -/
def puts (n : Net ι σ ω α ς) : List (ι×ω) := n.sent.map fun e => (e.1,e.2.1)

/-- The consumed reports with their leaves. -/
def consumed (n : Net ι σ ω α ς) : List (ι×ω) := n.delivered.map fun e => (e.1,e.2.1)

/-- The objects that the center has seen. -/
def seen (n : Net ι σ ω α ς) : List ω := n.delivered.map fun e => e.2.1

variable {n : Net ι σ ω α ς}

omit [DecidableEq ι] [DecidableEq ω] in
theorem mem_seen {x : ω} : x∈seen n ↔ ∃ i,(i,x)∈consumed n := by
  simp only [seen,consumed,List.mem_map]
  constructor
  · rintro ⟨e,he,rfl⟩
    exact ⟨e.1,e,he,rfl⟩
  · rintro ⟨i,e,he,heq⟩
    exact ⟨e,he,congrArg Prod.snd heq⟩

omit [DecidableEq ω] in
/-- What was put at a leaf is what the center has consumed of it and what is
under way. -/
theorem atLeaf_puts (hf : Replica.Fifo n) (i : ι) :
    atLeaf i (puts n)=atLeaf i (consumed n)++(n.up i).map Prod.fst := by
  have hfilter : ∀ l : List (ι×ω×Bool),atLeaf i (l.map fun e => (e.1,e.2.1))=
      (l.filter fun e => decide (e.1=i)).map fun e => e.2.1 := by
    intro l
    rw [atLeaf,List.filter_map,List.map_map]
    rfl
  rw [puts,consumed,hfilter,hfilter,hf i,List.map_append,List.map_map]
  rfl

/-- Once nothing is under way the center has seen what was put. -/
theorem seen_perm (hf : Replica.Fifo n) (hup : ∀ i,n.up i=[]) :
    (seen n).Perm ((puts n).map Prod.snd) := by
  have hmap := (delivered_perm_sent hf hup).map fun e => e.2.1
  rw [puts,List.map_map]
  exact hmap

omit [DecidableEq ω] in
/-- A center that has seen the closing set has seen everything. -/
theorem Plan.complete_center {C : Finset ω} {rest : List (ι×ω)} (h : Plan C (puts n++rest))
    (hf : Replica.Fifo n) (hC : ∀ c∈C,c∈seen n) : rest=[] ∧ ∀ i,n.up i=[] := by
  have hnil : ∀ i,(n.up i).map Prod.fst++atLeaf i rest=[] := by
    intro i
    have hsplit : atLeaf i (puts n++rest)=
        atLeaf i (consumed n)++((n.up i).map Prod.fst++atLeaf i rest) := by
      rw [atLeaf_append,atLeaf_puts hf,List.append_assoc]
    refine h.rest_nil hsplit fun c hc hmem => ?_
    obtain ⟨j,hj⟩ := mem_seen.mp (hC c hc)
    have hput : (j,c)∈puts n := by
      rw [←mem_atLeaf,atLeaf_puts hf]
      exact List.mem_append_left _ (mem_atLeaf.mpr hj)
    have hin : (i,c)∈puts n++rest := by
      rw [←mem_atLeaf,hsplit]
      exact List.mem_append_right _ hmem
    rw [leaf_unique h.nodup hin (List.mem_append_left _ hput)]
    exact mem_atLeaf.mpr hj
  constructor
  · rw [List.eq_nil_iff_forall_not_mem]
    rintro ⟨i,x⟩ hx
    have hm : x∈atLeaf i rest := mem_atLeaf.mpr hx
    rw [(List.append_eq_nil_iff.mp (hnil i)).2] at hm
    cases hm
  · intro i
    exact List.map_eq_nil_iff.mp (List.append_eq_nil_iff.mp (hnil i)).1

/-- A collector that gathers the objects of a kind and fires when the closing
set is complete. -/
structure Closing (R : Replica σ ω α ς) (C : Finset ω) (U : ω → Prop) (gathered : List ω → σ)
    (output : List ω → ω → List α) : Prop where
  arrive : ∀ l o,(∀ x∈l++[o],U x) → R.arrive (gathered l) o=
    if o∈C ∧ ∀ c∈C,c∈l++[o] then (gathered [],output l o) else (gathered (l++[o]),[])

section Phases

variable (R : Replica σ ω α ς) (C : Finset ω) (gathered : List ω → σ) (output : List ω → ω → List α)
variable (Q : List (ι×ω))

/-- Nobody has seen the closing set. -/
structure Open (n : Net ι σ ω α ς) : Prop where
  fired : n.fired=[]
  /-- Nothing is to be cleared. -/
  down : ∀ i,n.down i=[]
  /-- Leaves have gathered what was put there. -/
  leaf : ∀ i,n.leaf i=gathered (atLeaf i (puts n))
  /-- The center has gathered what it has seen. -/
  center : n.center=gathered (seen n)
  unmarked : ∀ i,∀ e∈n.up i,e.2=false
  leafOpen : ∀ i,¬∀ c∈C,c∈atLeaf i (puts n)
  /-- The center is not complete. -/
  centerOpen : ¬∀ c∈C,c∈seen n

/-- One party has fired all objects, and the center will skip what it may
still produce. -/
structure Closed (n : Net ι σ ω α ς) : Prop where
  puts : puts n=Q
  /-- All objects were fired at once. -/
  fired : ∃ node l o,(l++[o]).Perm (Q.map Prod.snd) ∧ o∈C ∧
    n.fired=(output l o).map fun a => (node,a)
  /-- Reports under way are all from one leaf, and end with its marked one. -/
  pending : (∀ i,n.up i=[]) ∨ ∃ i init o,n.up i=init.map (fun x => (x,false))++[(o,true)] ∧
    (∀ j,j≠i → n.up j=[]) ∧ n.center=gathered (seen n) ∧ o∈C ∧ seen n++(init++[o])=Q.map Prod.snd

end Phases

section Steps

variable {R : Replica σ ω α ς} {C : Finset ω} {U : ω → Prop} {gathered : List ω → σ}
variable {output : List ω → ω → List α} {Q : List (ι×ω)}

/-- What the objects are to be, and what firing all of them gives. -/
structure Task (R : Replica σ ω α ς) (C : Finset ω) (U : ω → Prop) (gathered : List ω → σ)
    (output : List ω → ω → List α) (Q : List (ι×ω)) : Prop where
  closing : Closing R C U gathered output
  plan : Plan C Q
  /-- The objects are of the kind. -/
  kind : ∀ p∈Q,U p.2
  /-- Firing all of them produces something. -/
  output : ∀ l o,(l++[o]).Perm (Q.map Prod.snd) → o∈C → output l o≠[]

omit [DecidableEq ω] in
theorem puts_put (n : Net ι σ ω α ς) (w : ι) (o : ω) : puts (R.put n w o)=puts n++[(w,o)] := by
  simp only [puts,Replica.put,List.map_append,List.map_cons,List.map_nil]

omit [DecidableEq ω] in
theorem atLeaf_singleton (i w : ι) (o : ω) : atLeaf i [(w,o)]=if w=i then [o] else [] := by
  by_cases hw : w=i
  · simp [atLeaf,hw]
  · simp [atLeaf,hw]

variable {n : Net ι σ ω α ς} {w : ι} {o : ω} {rest : List (ι×ω)}

theorem Open.arrive_put (t : Task R C U gathered output Q) (h : Open C gathered n)
    (hQ : Q=puts n++[(w,o)]++rest) :
    R.arrive (n.leaf w) o=
      if o∈C ∧ ∀ c∈C,c∈atLeaf w (puts n)++[o] then (gathered [],output (atLeaf w (puts n)) o)
      else (gathered (atLeaf w (puts n)++[o]),[]) := by
  rw [h.leaf w]
  refine t.closing.arrive _ _ fun x hx => ?_
  have hmem : x∈atLeaf w (puts n++[(w,o)]) := by
    rw [atLeaf_append,atLeaf_singleton,if_pos rfl]
    exact hx
  refine t.kind (w,x) ?_
  rw [hQ]
  exact List.mem_append_left _ (mem_atLeaf.mp hmem)

/-- A put that completes its leaf: everything was put there. -/
theorem closed_put (t : Task R C U gathered output Q) (h : Open C gathered n) (hf : Replica.Fifo n)
    (hQ : Q=puts n++[(w,o)]++rest) (ho : o∈C) (hC : ∀ c∈C,c∈atLeaf w (puts n)++[o]) :
    Closed C gathered output Q (R.put n w o) := by
  have hatLeaf : atLeaf w (puts n++[(w,o)])=atLeaf w (puts n)++[o] := by
    rw [atLeaf_append,atLeaf_singleton,if_pos rfl]
  have hplan := t.plan
  rw [hQ] at hplan
  obtain ⟨hrest,honly⟩ := hplan.complete_leaf (hatLeaf ▸ hC)
  rw [hrest,List.append_nil] at hQ
  have hall : ∀ l : List (ι×ω),(∀ p∈l,p.1=w) → atLeaf w l=l.map Prod.snd := by
    intro l hl
    rw [atLeaf,List.filter_eq_self.mpr fun p hp => by simpa using hl p hp]
  have hputs : ∀ p∈puts n,p.1=w := fun p hp => honly p (List.mem_append_left _ hp)
  have hconsumed : ∀ p∈consumed n,p.1=w := by
    rintro ⟨i,x⟩ hp
    refine hputs (i,x) (mem_atLeaf.mp ?_)
    rw [atLeaf_puts hf]
    exact List.mem_append_left _ (mem_atLeaf.mpr hp)
  have hup : ∀ j,j≠w → n.up j=[] := by
    intro j hj
    have hnil : atLeaf j (puts n)=[] := by
      rw [List.eq_nil_iff_forall_not_mem]
      intro x hx
      exact hj (hputs (j,x) (mem_atLeaf.mp hx))
    rw [atLeaf_puts hf] at hnil
    exact List.map_eq_nil_iff.mp (List.append_eq_nil_iff.mp hnil).2
  have hobjs : (atLeaf w (puts n)++[o])=Q.map Prod.snd := by
    rw [hQ,List.map_append,hall _ hputs]
    rfl
  have harrive := h.arrive_put t (hQ.trans (List.append_nil _).symm)
  rw [if_pos ⟨ho,hC⟩] at harrive
  have hne := t.output _ o (List.Perm.of_eq hobjs) ho
  have hmark : (!(R.arrive (n.leaf w) o).2.isEmpty)=true := by
    rw [harrive]
    simpa using hne
  refine ⟨?_,⟨some w,_,o,List.Perm.of_eq hobjs,ho,?_⟩,Or.inr ⟨w,(n.up w).map Prod.fst,o,?_,?_,?_,ho,?_⟩⟩
  · rw [puts_put,hQ]
  · simp only [Replica.put,h.fired,harrive,List.nil_append]
  · have hunmarked : ((n.up w).map Prod.fst).map (fun x => (x,false))=n.up w := by
      rw [List.map_map]
      refine List.map_congr_left (fun e he => ?_) |>.trans (List.map_id _)
      exact Prod.ext rfl (h.unmarked w e he).symm
    simp only [Replica.put,Function.update_self,hmark,hunmarked]
  · intro j hj
    simp only [Replica.put,Function.update_of_ne hj]
    exact hup j hj
  · exact h.center
  · have hseen : seen n=atLeaf w (consumed n) := by
      rw [hall _ hconsumed,consumed,List.map_map]
      rfl
    show seen n++_=_
    rw [←hobjs,atLeaf_puts hf,hseen,List.append_assoc]

theorem open_put (t : Task R C U gathered output Q) (h : Open C gathered n)
    (hQ : Q=puts n++[(w,o)]++rest) (hC : ¬(o∈C ∧ ∀ c∈C,c∈atLeaf w (puts n)++[o])) :
    Open C gathered (R.put n w o) := by
  have harrive := h.arrive_put t hQ
  rw [if_neg hC] at harrive
  have hleaf : ∀ i,atLeaf i (puts (R.put n w o))=atLeaf i (puts n)++if w=i then [o] else [] := by
    intro i
    rw [puts_put,atLeaf_append,atLeaf_singleton]
  refine ⟨?_,h.down,?_,h.center,?_,?_,h.centerOpen⟩
  · simp only [Replica.put,h.fired,harrive,List.map_nil,List.append_nil]
  · intro i
    rw [hleaf]
    by_cases hi : i=w
    · rw [hi,if_pos rfl]
      simp only [Replica.put,Function.update_self,harrive]
    · rw [if_neg (Ne.symm hi),List.append_nil]
      simp only [Replica.put,Function.update_of_ne hi]
      exact h.leaf i
  · intro i e he
    by_cases hi : i=w
    · rw [hi] at he
      simp only [Replica.put,Function.update_self,harrive] at he
      rcases List.mem_append.mp he with he | he
      · exact h.unmarked w e he
      · rw [List.mem_singleton.mp he]
        rfl
    · simp only [Replica.put,Function.update_of_ne hi] at he
      exact h.unmarked i e he
  · intro i hall
    rw [hleaf] at hall
    by_cases hi : w=i
    · subst hi
      rw [if_pos rfl] at hall
      refine h.leafOpen w fun c hc => ?_
      rcases List.mem_append.mp (hall c hc) with hm | hm
      · exact hm
      · have hco := List.mem_singleton.mp hm
        exact absurd ⟨hco ▸ hc,hall⟩ hC
    · rw [if_neg hi,List.append_nil] at hall
      exact h.leafOpen i hall

omit [DecidableEq ω] in
theorem seen_deliver (n : Net ι σ ω α ς) (i : ι) (o : ω) (mark : Bool) (rest : List (ω×Bool)) :
    seen (R.deliver n i o mark rest)=seen n++[o] := by
  simp only [seen,Replica.deliver,List.map_append,List.map_cons,List.map_nil]

omit [DecidableEq ω] in
theorem kind_seen (hf : Replica.Fifo n) (hkind : ∀ p∈puts n,U p.2) : ∀ x∈seen n,U x := by
  intro x hx
  obtain ⟨i,hi⟩ := mem_seen.mp hx
  refine hkind (i,x) (mem_atLeaf.mp ?_)
  rw [atLeaf_puts hf]
  exact List.mem_append_left _ (mem_atLeaf.mpr hi)

/-- A consumed report of an open network completes the center, which then has
seen everything, or leaves it open. -/
theorem open_deliver (t : Task R C U gathered output Q) (h : Open C gathered n) {i : ι}
    {mark : Bool} {link : List (ω×Bool)} (hQ : Q=puts n++rest) (hu : n.up i=(o,mark)::link)
    (hf : Replica.Fifo (R.deliver n i o mark link)) :
    Open C gathered (R.deliver n i o mark link) ∨
      Closed C gathered output Q (R.deliver n i o mark link) := by
  have hmark : mark=false := h.unmarked i (o,mark) (hu ▸ List.mem_cons_self)
  subst hmark
  have hputs : puts (R.deliver n i o false link)=puts n := rfl
  have hkind := kind_seen hf fun p hp => t.kind p (hQ ▸ List.mem_append_left _ (hputs ▸ hp))
  rw [seen_deliver] at hkind
  have harrive := t.closing.arrive (seen n) o hkind
  rw [←h.center] at harrive
  by_cases hC : o∈C ∧ ∀ c∈C,c∈seen n++[o]
  · rw [if_pos hC] at harrive
    have hplan := t.plan
    rw [hQ,←hputs] at hplan
    obtain ⟨hrest,hup⟩ := hplan.complete_center hf (by rw [seen_deliver]; exact hC.2)
    rw [hrest,List.append_nil] at hQ
    have hperm := seen_perm hf hup
    rw [seen_deliver,hputs,←hQ] at hperm
    refine Or.inr ⟨hputs.trans hQ.symm,⟨none,seen n,o,hperm,hC.1,?_⟩,Or.inl hup⟩
    simp only [Replica.deliver,h.fired,harrive,Bool.false_eq_true,if_false,List.nil_append]
  · rw [if_neg hC] at harrive
    refine Or.inl ⟨?_,?_,h.leaf,?_,?_,h.leafOpen,?_⟩
    · simp only [Replica.deliver,h.fired,harrive,Bool.false_eq_true,if_false,List.map_nil,List.append_nil]
    · intro j
      simp only [Replica.deliver,harrive,List.isEmpty_nil,Bool.or_true,if_true]
      exact h.down j
    · rw [seen_deliver]
      simp only [Replica.deliver,harrive]
    · intro j e he
      by_cases hj : j=i
      · rw [hj] at he
        simp only [Replica.deliver,Function.update_self] at he
        exact h.unmarked i e (hu ▸ List.mem_cons_of_mem _ he)
      · simp only [Replica.deliver,Function.update_of_ne hj] at he
        exact h.unmarked j e he
    · rw [seen_deliver]
      intro hall
      refine h.centerOpen fun c hc => ?_
      rcases List.mem_append.mp (hall c hc) with hm | hm
      · exact hm
      · have hco := List.mem_singleton.mp hm
        exact absurd ⟨hco ▸ hc,hall⟩ hC

/-- After the firing the center only skips. -/
theorem closed_deliver (t : Task R C U gathered output Q) (h : Closed C gathered output Q n) {i : ι}
    {mark : Bool} {link : List (ω×Bool)} (hu : n.up i=(o,mark)::link) :
    Closed C gathered output Q (R.deliver n i o mark link) ∧
      (R.deliver n i o mark link).fired=n.fired := by
  rcases h.pending with hnone | ⟨k,init,x,hlink,hothers,hcenter,hx,hall⟩
  · rw [hnone i] at hu
    cases hu
  · have hki : i=k := by
      by_contra hne
      rw [hothers i hne] at hu
      cases hu
    subst hki
    rw [hlink] at hu
    have hother : ∀ j,j≠i → (R.deliver n i o mark link).up j=[] := by
      intro j hj
      simp only [Replica.deliver,Function.update_of_ne hj]
      exact hothers j hj
    have hself : (R.deliver n i o mark link).up i=link := by
      simp only [Replica.deliver,Function.update_self]
    cases init with
    | nil =>
      obtain ⟨he,rfl⟩ := List.cons.inj hu
      obtain ⟨rfl,rfl⟩ := Prod.mk.inj he
      have hfired : (R.deliver n i x true []).fired=n.fired := by simp only [Replica.deliver,if_true]
      refine ⟨⟨h.puts,?_,Or.inl fun j => ?_⟩,hfired⟩
      · rw [hfired]
        exact h.fired
      · by_cases hj : j=i
        · rw [hj,hself]
        · exact hother j hj
    | cons y init =>
      obtain ⟨he,htail⟩ := List.cons.inj hu
      obtain ⟨rfl,rfl⟩ := Prod.mk.inj he
      have hmem : ∀ z∈seen n++[y],z∈Q.map Prod.snd := by
        intro z hz
        rw [←hall]
        rcases List.mem_append.mp hz with hz | hz
        · exact List.mem_append_left _ hz
        · rw [List.mem_singleton.mp hz]
          exact List.mem_append_right _ List.mem_cons_self
      have hkind : ∀ z∈seen n++[y],U z := by
        intro z hz
        obtain ⟨p,hp,rfl⟩ := List.mem_map.mp (hmem z hz)
        exact t.kind p hp
      have hsplit : (seen n++[y])++(init++[x])=Q.map Prod.snd := by
        rw [←hall]
        simp
      have hmissing : ¬(y∈C ∧ ∀ c∈C,c∈seen n++[y]) := by
        rintro ⟨-,hC⟩
        have hn := t.plan.nodup
        rw [←hsplit] at hn
        exact (List.nodup_append.mp hn).2.2 x (hC x hx) x (by simp) rfl
      have harrive := t.closing.arrive (seen n) y hkind
      rw [if_neg hmissing,←hcenter] at harrive
      have hfired : (R.deliver n i y false link).fired=n.fired := by
        simp only [Replica.deliver,harrive,Bool.false_eq_true,if_false,List.map_nil,List.append_nil]
      refine ⟨⟨h.puts,?_,Or.inr ⟨i,init,x,hself.trans htail.symm,hother,?_,hx,?_⟩⟩,hfired⟩
      · rw [hfired]
        exact h.fired
      · rw [seen_deliver]
        simp only [Replica.deliver,harrive]
      · rw [seen_deliver]
        exact hsplit

/-- The two phases. -/
def Phase (C : Finset ω) (gathered : List ω → σ) (output : List ω → ω → List α) (Q : List (ι×ω))
    (n : Net ι σ ω α ς) : Prop := Open C gathered n ∨ Closed C gathered output Q n

omit [DecidableEq ω] in
theorem open_start (hC : C.Nonempty) : Open C gathered (Net.start (gathered []) : Net ι σ ω α ς) := by
  obtain ⟨c,hc⟩ := hC
  refine ⟨rfl,fun _ => rfl,fun _ => rfl,rfl,fun _ _ h => absurd h List.not_mem_nil,?_,?_⟩
  · exact fun i hall => absurd (hall c hc) List.not_mem_nil
  · exact fun hall => absurd (hall c hc) List.not_mem_nil

variable {n' : Net ι σ ω α ς} {e : Event ι ω}

/-- After the firing nothing is put or fired. -/
theorem closed_step (t : Task R C U gathered output Q) (h : Closed C gathered output Q n)
    (hs : R.step n e=some n') (hQ : puts n'<+:Q) :
    Closed C gathered output Q n' ∧ n'.fired=n.fired := by
  obtain ⟨rest,hrest⟩ := hQ
  obtain ⟨w,o,-,rfl⟩|⟨i,o,mark,link,-,hu,rfl⟩|⟨i,s,link,-,hd,rfl⟩ := R.step_cases hs
  · rw [puts_put] at hrest
    have hlen := congrArg List.length (hrest.trans h.puts.symm)
    simp only [List.length_append,List.length_singleton] at hlen
    omega
  · exact closed_deliver t h hu
  · exact ⟨⟨h.puts,h.fired,h.pending⟩,rfl⟩

/-- Until then a step keeps the network open or is the one that fires. -/
theorem open_step (t : Task R C U gathered output Q) (h : Open C gathered n) (hf : Replica.Fifo n)
    (hs : R.step n e=some n') (hQ : puts n'<+:Q) : Phase C gathered output Q n' := by
  have hf' := R.fifo_step hf hs
  obtain ⟨rest,hrest⟩ := hQ
  obtain ⟨w,o,-,rfl⟩|⟨i,o,mark,link,-,hu,rfl⟩|⟨i,s,link,-,hd,rfl⟩ := R.step_cases hs
  · rw [puts_put] at hrest
    by_cases hC : o∈C ∧ ∀ c∈C,c∈atLeaf w (puts n)++[o]
    · exact Or.inr (closed_put t h hf hrest.symm hC.1 hC.2)
    · exact Or.inl (open_put t h hrest.symm hC)
  · have hputs : puts n++rest=Q := hrest
    exact open_deliver t h hputs.symm hu hf'
  · rw [h.down i] at hd
    cases hd

omit [DecidableEq ω] in
/-- Puts are never withdrawn. -/
theorem puts_step (hs : R.step n e=some n') : puts n<+:puts n' := by
  obtain ⟨w,o,-,rfl⟩|⟨i,o,mark,link,-,hu,rfl⟩|⟨i,s,link,-,hd,rfl⟩ := R.step_cases hs
  · rw [puts_put]
    exact List.prefix_append _ _
  · exact List.prefix_rfl
  · exact List.prefix_rfl

/-- Runs within the plan fire at most once. -/
theorem phase_run (t : Task R C U gathered output Q) {es : List (Event ι ω)}
    (h : Phase C gathered output Q n) (hf : Replica.Fifo n) (hr : run R.step n es=some n')
    (hQ : puts n'<+:Q) : Replica.Fifo n' ∧ puts n<+:puts n' ∧ Phase C gathered output Q n' ∧
      (Closed C gathered output Q n → Closed C gathered output Q n' ∧ n'.fired=n.fired) := by
  induction es generalizing n with
  | nil =>
    obtain rfl := Option.some.inj hr
    exact ⟨hf,List.prefix_rfl,h,fun hc => ⟨hc,rfl⟩⟩
  | cons e es ih =>
    obtain ⟨k,hk,hrest⟩ := run_cons_eq_some.mp hr
    have hmono : ∀ x a x',puts k<+:puts x → R.step x a=some x' → puts k<+:puts x' :=
      fun _ _ _ hx hs => hx.trans (puts_step hs)
    have hkn : puts k<+:puts n' := run_invariant hmono List.prefix_rfl hrest
    have hkQ := hkn.trans hQ
    have hphase : Phase C gathered output Q k := by
      rcases h with hopen | hclosed
      · exact open_step t hopen hf hk hkQ
      · exact Or.inr (closed_step t hclosed hk hkQ).1
    obtain ⟨hf',-,hend,hkeep⟩ := ih hphase (R.fifo_step hf hk) hrest
    refine ⟨hf',(puts_step hk).trans hkn,hend,fun hc => ?_⟩
    obtain ⟨hkc,hkf⟩ := closed_step t hc hk hkQ
    obtain ⟨hnc,hnf⟩ := hkeep hkc
    exact ⟨hnc,hnf.trans hkf⟩

/-- When everything has been put and consumed, the objects have been fired. -/
theorem Phase.closed (t : Task R C U gathered output Q) (h : Phase C gathered output Q n)
    (hf : Replica.Fifo n) (hQ : puts n=Q) (hup : ∀ i,n.up i=[]) : Closed C gathered output Q n := by
  refine h.resolve_left fun hopen => hopen.centerOpen fun c hc => ?_
  have hput := t.plan.closing c hc
  rw [←hQ] at hput
  exact (seen_perm hf hup).mem_iff.mpr hput

end Steps

end Pheromone.ClosingReplicas
