import Pheromone.ReplicaNetwork

/-!
# A replicated barrier fires exactly once per session

Leaves and center collect parts of the same puts. When every key is put once
in a session, one leaf completes the set, or else the center does.
-/

namespace Pheromone.BarrierReplicas

open GuardedRuns ReplicaNetwork

variable {ι κ ς : Type*} [DecidableEq ι] [DecidableEq κ] [DecidableEq ς]

/-- The barrier over a set of keys; an action is the session it fires for. -/
def barrier (K : Finset κ) : Replica (ς → Finset κ) (ς×κ) ς ς where
  arrive st o :=
    if o.2∈K then
      let keys := insert o.2 (st o.1)
      if K⊆keys then (Function.update st o.1 ∅,[o.1]) else (Function.update st o.1 keys,[])
    else (st,[])
  clear st s := Function.update st s ∅
  session o := o.1

/-- Some report of the list is about a key put at a leaf in the session. -/
def PutAt (s : ς) (l : List (ι×(ς×κ)×Bool)) (i : ι) (k : κ) : Prop := ∃ b,(i,(s,k),b)∈l

/-- Some report of the list is about the key in the session. -/
def PutAny (s : ς) (l : List (ι×(ς×κ)×Bool)) (k : κ) : Prop := ∃ i,PutAt s l i k

/-- No key of the set is reported twice in the session. -/
def Once (K : Finset κ) (s : ς) (l : List (ι×(ς×κ)×Bool)) : Prop :=
  ∀ k∈K,l.countP (fun e => decide (e.2.1=(s,k)))≤1

/-- Whether a report is one of the leaf about a key of the set in the session. -/
def relevant (K : Finset κ) (s : ς) (i : ι) (e : ι×(ς×κ)×Bool) : Bool :=
  decide (e.1=i ∧ e.2.1.1=s ∧ e.2.1.2∈K)

section Reports

variable {K : Finset κ} {s : ς} {l : List (ι×(ς×κ)×Bool)} {i : ι} {k : κ} {e : ι×(ς×κ)×Bool}

omit [DecidableEq ι] [DecidableEq κ] [DecidableEq ς] in
theorem putAt_append : PutAt s (l++[e]) i k ↔ PutAt s l i k ∨ e.1=i ∧ e.2.1=(s,k) := by
  obtain ⟨j,o,b⟩ := e
  constructor
  · rintro ⟨c,hc⟩
    rcases List.mem_append.mp hc with h|h
    · exact Or.inl ⟨c,h⟩
    · simp only [List.mem_singleton,Prod.mk.injEq] at h
      exact Or.inr ⟨h.1.symm,h.2.1.symm⟩
  · rintro (⟨c,hc⟩|⟨h1,h2⟩)
    · exact ⟨c,List.mem_append_left _ hc⟩
    · simp only at h1 h2
      subst h1 h2
      exact ⟨b,List.mem_append_right _ List.mem_cons_self⟩

omit [DecidableEq ι] [DecidableEq κ] [DecidableEq ς] in
theorem putAny_append : PutAny s (l++[e]) k ↔ PutAny s l k ∨ e.2.1=(s,k) := by
  constructor
  · rintro ⟨j,hj⟩
    rcases putAt_append.mp hj with h|h
    · exact Or.inl ⟨j,h⟩
    · exact Or.inr h.2
  · rintro (⟨j,hj⟩|h)
    · exact ⟨j,putAt_append.mpr (Or.inl hj)⟩
    · exact ⟨e.1,putAt_append.mpr (Or.inr ⟨rfl,h⟩)⟩

omit [DecidableEq ι] in
theorem PutAny.countP_pos (h : PutAny s l k) :
    0<l.countP (fun e => decide (e.2.1=(s,k))) := by
  obtain ⟨j,b,hm⟩ := h
  exact List.countP_pos_iff.mpr ⟨_,hm,by simp⟩

omit [DecidableEq ι] in
/-- A list extended by one report about a key has none about it before. -/
theorem Once.not_putAny (h : Once K s (l++[e])) (hk : k∈K) (he : e.2.1=(s,k)) :
    ¬PutAny s l k := by
  intro hany
  have hc := h k hk
  have hp := hany.countP_pos
  rw [List.countP_append,List.countP_cons,List.countP_nil,he] at hc
  simp only [decide_true,if_true] at hc
  omega

omit [DecidableEq ι] in
theorem Once.of_append {m : List (ι×(ς×κ)×Bool)} (h : Once K s (l++m)) : Once K s l := by
  intro k hk
  have hc := h k hk
  rw [List.countP_append] at hc
  omega

omit [DecidableEq ι] in
/-- At most one leaf puts a given key. -/
theorem Once.leaf_unique (h : Once K s l) (hk : k∈K) {j : ι} (hi : PutAt s l i k)
    (hj : PutAt s l j k) : i=j := by
  obtain ⟨b,hb⟩ := hi
  obtain ⟨c,hc⟩ := hj
  by_contra hn
  have hle : ([(i,(s,k),b),(j,(s,k),c)] : List (ι×(ς×κ)×Bool)).Subperm l := by
    apply List.Nodup.subperm
    · simp [hn]
    · intro x hx
      rcases List.mem_cons.mp hx with rfl|hx
      · exact hb
      · exact List.mem_singleton.mp hx ▸ hc
  have h2 := hle.countP_le (fun e => decide (e.2.1=(s,k)))
  have h1 := h k hk
  simp at h2
  omega

theorem relevant_iff : relevant K s i e=true ↔ e.1=i ∧ e.2.1.1=s ∧ e.2.1.2∈K := by
  simp [relevant]

end Reports

/-- Every key of the set was put at the leaf. -/
def Full (K : Finset κ) (s : ς) (n : Net ι (ς → Finset κ) (ς×κ) ς ς) (i : ι) : Prop :=
  ∀ k∈K,PutAt s n.sent i k

/-- Every key of the set has reached the center. -/
def Complete (K : Finset κ) (s : ς) (n : Net ι (ς → Finset κ) (ς×κ) ς ς) : Prop :=
  ∀ k∈K,PutAny s n.delivered k

/-- The invariant of one session: what the replicas have collected, which
reports are marked and what has been fired. -/
structure Inv (K : Finset κ) (s : ς) (n : Net ι (ς → Finset κ) (ς×κ) ς ς) : Prop where
  /-- A leaf that is not complete holds what was put there, unless the center fired. -/
  leaf : ∀ i,¬Full K s n i → (none,s)∉n.fired → ∀ k,k∈n.leaf i s ↔ k∈K ∧ PutAt s n.sent i k
  /-- The center holds what was delivered until it is complete. -/
  center : ∀ k,k∈n.center s ↔ k∈K ∧ PutAny s n.delivered k ∧ ¬Complete K s n
  /-- Only a complete leaf marks. -/
  marked : ∀ i k,k∈K → (i,(s,k),true)∈n.sent → Full K s n i
  /-- The last report of a complete leaf is marked. -/
  last : ∀ i,Full K s n i →
    ∃ k,(n.sent.filter (relevant K s i)).getLast?=some (i,(s,k),true)
  /-- A clear is under way only after the center fired. -/
  clears : ∀ i,s∈n.down i → (none,s)∈n.fired
  /-- One complete leaf, or else the complete center, fired once. -/
  fired : (∃ i,Full K s n i ∧ n.fired.filter (fun f => decide (f.2=s))=[(some i,s)]) ∨
    (∀ i,¬Full K s n i) ∧ Complete K s n ∧ n.fired.filter (fun f => decide (f.2=s))=[(none,s)] ∨
    (∀ i,¬Full K s n i) ∧ ¬Complete K s n ∧ n.fired.filter (fun f => decide (f.2=s))=[]

variable {K : Finset κ} {s : ς}

/-- The start state satisfies the invariant for a nonempty set. -/
theorem inv_start (hK : K.Nonempty) :
    Inv K s (Net.start (fun _ => ∅) : Net ι (ς → Finset κ) (ς×κ) ς ς) := by
  obtain ⟨k,hk⟩ := hK
  have hf : ∀ i,¬Full K s (Net.start (fun _ => ∅) : Net ι (ς → Finset κ) (ς×κ) ς ς) i := by
    intro i h
    obtain ⟨b,hb⟩ := h k hk
    cases hb
  have hc : ¬Complete K s (Net.start (fun _ => ∅) : Net ι (ς → Finset κ) (ς×κ) ς ς) := by
    intro h
    obtain ⟨i,b,hb⟩ := h k hk
    cases hb
  refine ⟨?_,?_,?_,?_,?_,Or.inr (Or.inr ⟨hf,hc,rfl⟩)⟩
  · intro i _ _ k
    simp [Net.start,PutAt]
  · intro k
    simp [Net.start,PutAny,PutAt]
  · intro i k _ h
    cases h
  · intro i h
    exact absurd h (hf i)
  · intro i h
    cases h

variable {o : ς×κ}

omit [DecidableEq ι] in
/-- An object of another session, or outside the set, leaves the session alone. -/
theorem arrive_other (st : ς → Finset κ) (h : ¬(o.1=s ∧ o.2∈K)) :
    ((barrier K).arrive st o).1 s=st s ∧ s∉((barrier K).arrive st o).2 := by
  by_cases hk : o.2∈K
  · have hs : s≠o.1 := fun he => h ⟨he.symm,hk⟩
    by_cases hf : K⊆insert o.2 (st o.1)
    · simp [barrier,hk,hf,hs]
    · simp [barrier,hk,hf,hs]
  · simp [barrier,hk]

variable {k : κ}

omit [DecidableEq ι] in
/-- The arrival that completes the session fires and resets it. -/
theorem arrive_complete {st : ς → Finset κ} (hk : k∈K) (hf : K⊆insert k (st s)) :
    (barrier K).arrive st (s,k)=(Function.update st s ∅,[s]) := by
  simp [barrier,hk,hf]

omit [DecidableEq ι] in
/-- Any other arrival of a key of the set is collected. -/
theorem arrive_incomplete {st : ς → Finset κ} (hk : k∈K) (hf : ¬K⊆insert k (st s)) :
    (barrier K).arrive st (s,k)=(Function.update st s (insert k (st s)),[]) := by
  simp [barrier,hk,hf]

omit [DecidableEq ι] in
/-- Actions of other sessions do not show among those of the session. -/
theorem filter_fired_other {x : Option ι} {l : List ς} (h : s∉l) :
    (l.map fun a => (x,a)).filter (fun f => decide (f.2=s))=[] := by
  rw [List.filter_eq_nil_iff]
  intro f hf
  obtain ⟨a,ha,rfl⟩ := List.mem_map.mp hf
  simpa using fun he : a=s => h (he ▸ ha)

omit [DecidableEq ι] in
theorem mem_fired_iff {x : Option ι} {l : List (Option ι×ς)} :
    (x,s)∈l ↔ (x,s)∈l.filter (fun f => decide (f.2=s)) := by
  simp

variable {i : ι}

theorem putAt_iff_filter {l : List (ι×(ς×κ)×Bool)} (hk : k∈K) :
    PutAt s l i k ↔ PutAt s (l.filter (relevant K s i)) i k := by
  simp [PutAt,relevant,hk]

variable {n : Net ι (ς → Finset κ) (ς×κ) ς ς}

/-- The invariant depends only on what concerns the session. -/
theorem Inv.congr {m : Net ι (ς → Finset κ) (ς×κ) ς ς} (h : Inv K s n)
    (hleaf : ∀ j,m.leaf j s=n.leaf j s) (hcenter : m.center s=n.center s)
    (hsent : ∀ j,m.sent.filter (relevant K s j)=n.sent.filter (relevant K s j))
    (hdel : ∀ k∈K,PutAny s m.delivered k ↔ PutAny s n.delivered k)
    (hfired : m.fired.filter (fun f => decide (f.2=s))=n.fired.filter (fun f => decide (f.2=s)))
    (hdown : ∀ j,s∈m.down j → s∈n.down j) : Inv K s m := by
  have hat : ∀ j,∀ k∈K,PutAt s m.sent j k ↔ PutAt s n.sent j k := by
    intro j k hk
    rw [putAt_iff_filter hk,hsent,←putAt_iff_filter hk]
  have hfull : ∀ j,Full K s m j ↔ Full K s n j :=
    fun j => forall₂_congr (hat j)
  have hcomp : Complete K s m ↔ Complete K s n := forall₂_congr hdel
  have hnone : ∀ x,(x,s)∈m.fired ↔ (x,s)∈n.fired := by
    intro x
    rw [mem_fired_iff,hfired,←mem_fired_iff]
  refine ⟨?_,?_,?_,?_,?_,?_⟩
  · intro j hj hn k
    rw [hleaf,h.leaf j (fun hf => hj ((hfull j).mpr hf)) (fun hf => hn ((hnone _).mpr hf))]
    exact and_congr_right fun hk => (hat j k hk).symm
  · intro k
    rw [hcenter,h.center,hcomp]
    exact and_congr_right fun hk => and_congr_left fun _ => (hdel k hk).symm
  · intro j k hk hm
    have hr : (j,(s,k),true)∈m.sent.filter (relevant K s j) :=
      List.mem_filter.mpr ⟨hm,relevant_iff.mpr ⟨rfl,rfl,hk⟩⟩
    rw [hsent] at hr
    exact (hfull j).mpr (h.marked j k hk (List.mem_of_mem_filter hr))
  · intro j hj
    rw [hsent]
    exact h.last j ((hfull j).mp hj)
  · intro j hj
    exact (hnone _).mpr (h.clears j (hdown j hj))
  · simp only [hfull,hcomp,hfired]
    exact h.fired

/-- A put outside the session keeps the invariant. -/
theorem inv_put_other (h : Inv K s n) (ho : ¬(o.1=s ∧ o.2∈K)) :
    Inv K s ((barrier K).put n i o) := by
  obtain ⟨hst,hout⟩ := arrive_other (n.leaf i) ho
  apply h.congr
  · intro j
    by_cases hj : j=i
    · subst hj
      simpa [Replica.put] using hst
    · simp [Replica.put,hj]
  · rfl
  · intro j
    simp only [Replica.put,List.filter_append]
    rw [List.filter_cons_of_neg,List.filter_nil,List.append_nil]
    rw [relevant_iff]
    exact fun hr => ho hr.2
  · exact fun _ _ => Iff.rfl
  · simp only [Replica.put,List.filter_append,filter_fired_other hout,List.append_nil]
  · exact fun _ hj => hj

/-- Before the last key of the set is put nothing has fired for the session. -/
theorem Inv.fresh (h : Inv K s n) (hfull : ∀ j,¬Full K s n j) (hc : ¬Complete K s n) :
    n.fired.filter (fun f => decide (f.2=s))=[] := by
  rcases h.fired with ⟨i,hi,-⟩|⟨-,hcomp,-⟩|⟨-,-,hf⟩
  · exact absurd hi (hfull i)
  · exact absurd hcomp hc
  · exact hf

/-- No leaf and not the center has had all keys of the session. -/
structure Unserved (K : Finset κ) (s : ς) (n : Net ι (ς → Finset κ) (ς×κ) ς ς) : Prop where
  /-- Every leaf holds what was put there. -/
  leaf : ∀ i k,k∈n.leaf i s ↔ k∈K ∧ PutAt s n.sent i k
  full : ∀ i,¬Full K s n i
  /-- The center is not complete. -/
  complete : ¬Complete K s n
  fired : n.fired.filter (fun f => decide (f.2=s))=[]

omit [DecidableEq ι] [DecidableEq κ] in
theorem Unserved.not_fired (h : Unserved K s n) (x : Option ι) : (x,s)∉n.fired := by
  intro hx
  rw [mem_fired_iff,h.fired] at hx
  cases hx

/-- While a key of the set has not been put the session is unserved. -/
theorem Inv.unserved (h : Inv K s n) (hf : Replica.Fifo n) (hk : k∈K) (hnew : ¬PutAny s n.sent k) :
    Unserved K s n := by
  have hfull : ∀ j,¬Full K s n j := fun j hj => hnew ⟨j,hj k hk⟩
  have hcomplete : ¬Complete K s n := by
    intro hc
    obtain ⟨j,b,hb⟩ := hc k hk
    exact hnew ⟨j,b,mem_sent_of_mem_delivered hf hb⟩
  have hfired := h.fresh hfull hcomplete
  refine ⟨fun i => h.leaf i (hfull i) fun hx => ?_,hfull,hcomplete,hfired⟩
  rw [mem_fired_iff,hfired] at hx
  cases hx

section Put

variable {n m : Net ι (ς → Finset κ) (ς×κ) ς ς} {i : ι} {k : κ}
  (hm : (barrier K).put n i (s,k)=m)

include hm

theorem putAt_put (j : ι) (k' : κ) : PutAt s m.sent j k' ↔ PutAt s n.sent j k' ∨ i=j ∧ k=k' := by
  subst hm
  simp only [Replica.put,putAt_append,Prod.mk.injEq,true_and]

/-- The leaf has all keys exactly if the put completes them. -/
theorem subset_insert_iff_full (hu : Unserved K s n) :
    K⊆insert k (n.leaf i s) ↔ Full K s m i := by
  refine forall₂_congr fun k' hk' => ?_
  rw [Finset.mem_insert,hu.leaf i k',putAt_put hm,and_iff_right hk']
  exact ⟨fun h => h.elim (fun h => Or.inr ⟨rfl,h.symm⟩) Or.inl,
    fun h => h.elim Or.inr (fun h => Or.inl h.2.symm)⟩

theorem not_full_put_of_ne (hk : k∈K) (hnew : ¬PutAny s n.sent k) {j : ι} (hj : j≠i) :
    ¬Full K s m j := by
  intro hfull
  rcases (putAt_put hm j k).mp (hfull k hk) with hp|⟨he,-⟩
  · exact hnew ⟨j,hp⟩
  · exact hj he.symm

theorem leaf_put_of_ne (hu : Unserved K s n) {j : ι} (hj : j≠i) (k' : κ) :
    k'∈m.leaf j s ↔ k'∈K ∧ PutAt s m.sent j k' := by
  have hleaf : m.leaf j=n.leaf j := by
    subst hm
    simp [Replica.put,hj]
  rw [hleaf,hu.leaf j k',putAt_put hm]
  exact and_congr_right fun _ => ⟨Or.inl,fun h => h.elim id (fun h => absurd h.1.symm hj)⟩

/-- The center does not see the put. -/
theorem center_put (h : Inv K s n) (k' : κ) :
    k'∈m.center s ↔ k'∈K ∧ PutAny s m.delivered k' ∧ ¬Complete K s m := by
  subst hm
  exact h.center k'

theorem not_clearing_put (h : Inv K s n) (hu : Unserved K s n) (j : ι) : s∉m.down j := by
  subst hm
  exact fun hj => hu.not_fired none (h.clears j hj)

/-- The put that completes a leaf fires there, with a marked report. -/
theorem inv_put_complete (h : Inv K s n) (hu : Unserved K s n) (hk : k∈K)
    (hnew : ¬PutAny s n.sent k) (hfull : Full K s m i) : Inv K s m := by
  have harr := arrive_complete hk ((subset_insert_iff_full hm hu).mpr hfull)
  have hsent : m.sent=n.sent++[(i,(s,k),true)] := by
    subst hm
    simp [Replica.put,harr]
  have hfired : m.fired=n.fired++[(some i,s)] := by
    subst hm
    simp [Replica.put,harr]
  refine ⟨?_,center_put hm h,?_,?_,fun j hj => absurd hj (not_clearing_put hm h hu j),
    Or.inl ⟨i,hfull,?_⟩⟩
  · intro j hj _
    exact leaf_put_of_ne hm hu fun he => hj (he ▸ hfull)
  · intro j k' hk' hmem
    rw [hsent,List.mem_append,List.mem_singleton] at hmem
    rcases hmem with hmem|he
    · exact absurd (h.marked j k' hk' hmem) (hu.full j)
    · rw [(Prod.mk.inj he).1]
      exact hfull
  · intro j hj
    have hji : j=i := by_contra fun he => not_full_put_of_ne hm hk hnew he hj
    subst hji
    have hr : relevant K s j (j,(s,k),true)=true := relevant_iff.mpr ⟨rfl,rfl,hk⟩
    exact ⟨k,by rw [hsent,List.filter_append,List.filter_cons_of_pos hr]; simp⟩
  · rw [hfired,List.filter_append,hu.fired]
    simp

/-- Any other put is collected. -/
theorem inv_put_incomplete (h : Inv K s n) (hu : Unserved K s n) (hk : k∈K)
    (hnew : ¬PutAny s n.sent k) (hfull : ¬Full K s m i) : Inv K s m := by
  have harr := arrive_incomplete hk (mt (subset_insert_iff_full hm hu).mp hfull)
  have hnone : ∀ j,¬Full K s m j := by
    intro j hj
    by_cases he : j=i
    · exact hfull (he ▸ hj)
    · exact not_full_put_of_ne hm hk hnew he hj
  have hsent : m.sent=n.sent++[(i,(s,k),false)] := by
    subst hm
    simp [Replica.put,harr]
  have hfired : m.fired=n.fired := by
    subst hm
    simp [Replica.put,harr]
  have hcomplete : ¬Complete K s m := by
    subst hm
    exact hu.complete
  refine ⟨?_,center_put hm h,?_,fun j hj => absurd hj (hnone j),
    fun j hj => absurd hj (not_clearing_put hm h hu j),
    Or.inr (Or.inr ⟨hnone,hcomplete,hfired ▸ hu.fired⟩)⟩
  · intro j _ _ k'
    by_cases hj : j=i
    · subst hj
      have hl : m.leaf j s=insert k (n.leaf j s) := by
        subst hm
        simp [Replica.put,harr]
      rw [hl,Finset.mem_insert,hu.leaf,putAt_put hm]
      constructor
      · rintro (rfl|⟨hk',hp⟩)
        · exact ⟨hk,Or.inr ⟨rfl,rfl⟩⟩
        · exact ⟨hk',Or.inl hp⟩
      · rintro ⟨hk',hp|⟨-,rfl⟩⟩
        · exact Or.inr ⟨hk',hp⟩
        · exact Or.inl rfl
    · exact leaf_put_of_ne hm hu hj k'
  · intro j k' hk' hmem
    rw [hsent,List.mem_append,List.mem_singleton] at hmem
    rcases hmem with hmem|he
    · exact absurd (h.marked j k' hk' hmem) (hu.full j)
    · simp at he

end Put

/-- A put of a key of the set, the first of that key, keeps the invariant. -/
theorem inv_put_key (h : Inv K s n) (hf : Replica.Fifo n) (hk : k∈K) (hnew : ¬PutAny s n.sent k) :
    Inv K s ((barrier K).put n i (s,k)) := by
  have hu := h.unserved hf hk hnew
  by_cases hfull : Full K s ((barrier K).put n i (s,k)) i
  · exact inv_put_complete rfl h hu hk hnew hfull
  · exact inv_put_incomplete rfl h hu hk hnew hfull

variable {mark : Bool} {rest : List ((ς×κ)×Bool)}

/-- Delivering a report that does not concern the session keeps the invariant. -/
theorem inv_deliver_other (h : Inv K s n) (ho : ¬(o.1=s ∧ o.2∈K)) :
    Inv K s ((barrier K).deliver n i o mark rest) := by
  obtain ⟨hst,hout⟩ := arrive_other n.center ho
  apply h.congr
  · exact fun _ => rfl
  · exact hst
  · exact fun _ => rfl
  · intro k hk
    simp only [Replica.deliver,putAny_append]
    refine or_iff_left fun he => ho ?_
    rw [he]
    exact ⟨rfl,hk⟩
  · cases mark with
    | true => rfl
    | false =>
      simp only [Replica.deliver,Bool.false_eq_true,if_false,List.filter_append,
        filter_fired_other hout,List.append_nil]
  · intro j hj
    by_cases hq : (mark || ((barrier K).arrive n.center o).2.isEmpty)=true
    · simpa only [Replica.deliver,hq,if_true] using hj
    · have hs : o.1≠s := by
        intro he
        have hk : o.2∉K := fun hk => ho ⟨he,hk⟩
        simp [barrier,hk] at hq
      simp only [Replica.deliver,hq] at hj
      by_cases hi : j∈insert i n.known
      · simp only [Bool.false_eq_true,if_false,if_pos hi,List.mem_append,List.mem_singleton] at hj
        exact hj.resolve_right fun he => hs he.symm
      · simpa only [Bool.false_eq_true,if_false,if_neg hi] using hj

/-- The last key of the session comes with the mark exactly if its leaf is complete. -/
theorem Inv.mark_iff (h : Inv K s n) (hf : Replica.Fifo n) (ho : Once K s n.sent) (hk : k∈K)
    (hu : n.up i=((s,k),mark)::rest) (hc : ∀ k'∈K,PutAny s (n.delivered++[(i,(s,k),mark)]) k') :
    mark=true ↔ Full K s n i := by
  have hsent : (i,(s,k),mark)∈n.sent := mem_sent_of_mem_up hf (hu ▸ List.mem_cons_self)
  constructor
  · rintro rfl
    exact h.marked i k hk hsent
  intro hfull
  obtain ⟨k',hlast⟩ := h.last i hfull
  have honce : Once K s ((n.delivered++[(i,(s,k),mark)])++rest.map fun e => (i,e)) := by
    intro k'' hk''
    have hs := delivered_append_up_subperm hf i
    rw [hu,List.map_cons,List.append_cons] at hs
    exact (hs.countP_le _).trans (ho k'' hk'')
  have hrest : (rest.map fun e => (i,e)).filter (relevant K s i)=[] := by
    rw [List.filter_eq_nil_iff]
    rintro ⟨j,⟨s',k''⟩,b⟩ hx hr
    obtain ⟨-,hs',hk''⟩ := relevant_iff.mp hr
    simp only at hs' hk''
    subst hs'
    have hfirst := (hc k'' hk'').countP_pos
    have hsecond := PutAny.countP_pos ⟨j,b,hx⟩
    have hcount := honce k'' hk''
    rw [List.countP_append] at hcount
    omega
  have hfil : n.sent.filter (relevant K s i)=
      n.delivered.filter (relevant K s i)++[(i,(s,k),mark)] := by
    have hsub : ∀ l : List (ι×(ς×κ)×Bool),l.filter (relevant K s i)=
        (l.filter (fun e => decide (e.1=i))).filter (relevant K s i) := by
      intro l
      rw [List.filter_filter]
      refine List.filter_congr fun e _ => ?_
      by_cases he : e.1=i <;> simp [relevant,he]
    have hr : relevant K s i (i,(s,k),mark)=true := relevant_iff.mpr ⟨rfl,rfl,hk⟩
    rw [hsub n.sent,hf i,List.filter_append,←hsub,hu,List.map_cons,List.filter_cons_of_pos hr,
      hrest]
  rw [hfil,List.getLast?_concat] at hlast
  exact (Prod.mk.inj (Prod.mk.inj (Option.some.inj hlast)).2).2

section Deliver

variable {n m : Net ι (ς → Finset κ) (ς×κ) ς ς} {i : ι} {k : κ} {mark : Bool}
  {rest : List ((ς×κ)×Bool)} (hm : (barrier K).deliver n i (s,k) mark rest=m)

include hm

theorem full_deliver (j : ι) : Full K s m j ↔ Full K s n j := by
  subst hm
  exact Iff.rfl

/-- The center has all keys exactly if the delivery completes them. -/
theorem subset_insert_iff_complete (h : Inv K s n) (hnc : ¬Complete K s n) :
    K⊆insert k (n.center s) ↔ Complete K s m := by
  subst hm
  refine forall₂_congr fun k' hk' => ?_
  rw [Finset.mem_insert,h.center,and_iff_right hk',and_iff_left hnc,or_comm]
  show _ ↔ PutAny s (n.delivered++[(i,(s,k),mark)]) k'
  rw [putAny_append,Prod.mk.injEq,eq_comm (a:=k)]
  simp

theorem marked_deliver (h : Inv K s n) (j : ι) (k' : κ) (hk' : k'∈K)
    (hmem : (j,(s,k'),true)∈m.sent) : Full K s m j := by
  subst hm
  exact h.marked j k' hk' hmem

theorem last_deliver (h : Inv K s n) (j : ι) (hj : Full K s m j) :
    ∃ k',(m.sent.filter (relevant K s j)).getLast?=some (j,(s,k'),true) := by
  subst hm
  exact h.last j hj

theorem leaf_deliver (h : Inv K s n) (j : ι) (hj : ¬Full K s m j) (hn : (none,s)∉n.fired) (k' : κ) :
    k'∈m.leaf j s ↔ k'∈K ∧ PutAt s m.sent j k' := by
  subst hm
  exact h.leaf j hj hn k'

/-- The delivery that completes the center is marked and only empties it, or
has the center fire. -/
theorem inv_deliver_complete (h : Inv K s n) (hnc : ¬Complete K s n) (hk : k∈K)
    (honly : ∀ j,Full K s n j → j=i) (hmark : mark=true ↔ Full K s n i) (hcomplete : Complete K s m) :
    Inv K s m := by
  have harr := arrive_complete hk ((subset_insert_iff_complete hm h hnc).mpr hcomplete)
  have hcenter : ∀ k',k'∈m.center s ↔ k'∈K ∧ PutAny s m.delivered k' ∧ ¬Complete K s m := by
    intro k'
    have hempty : m.center s=∅ := by
      subst hm
      simp [Replica.deliver,harr]
    simp [hempty,hcomplete]
  cases mark with
  | true =>
    have hfired : m.fired=n.fired := hm ▸ rfl
    have hdown : m.down=n.down := hm ▸ rfl
    refine ⟨?_,hcenter,marked_deliver hm h,last_deliver hm h,?_,?_⟩
    · rw [hfired]
      exact leaf_deliver hm h
    · rw [hfired,hdown]
      exact h.clears
    · rcases h.fired with ⟨j,hj,hfj⟩|⟨hn,-,-⟩|⟨hn,-,-⟩
      · exact Or.inl ⟨j,(full_deliver hm j).mpr hj,hfired ▸ hfj⟩
      · exact absurd (hmark.mp rfl) (hn i)
      · exact absurd (hmark.mp rfl) (hn i)
  | false =>
    have hni : ¬Full K s n i := fun hi => Bool.false_ne_true (hmark.mpr hi)
    have hn : ∀ j,¬Full K s n j := fun j hj => hni (honly j hj ▸ hj)
    have hfired : m.fired=n.fired++[(none,s)] := by
      subst hm
      simp [Replica.deliver,harr]
    have hmem : (none,s)∈m.fired := by
      rw [hfired]
      exact List.mem_append_right _ List.mem_cons_self
    refine ⟨fun j _ hj => absurd hmem hj,hcenter,marked_deliver hm h,last_deliver hm h,
      fun _ _ => hmem,Or.inr (Or.inl ⟨fun j hj => hn j ((full_deliver hm j).mp hj),hcomplete,?_⟩)⟩
    rw [hfired,List.filter_append,h.fresh hn hnc]
    simp

/-- Any other delivery is collected. -/
theorem inv_deliver_incomplete (h : Inv K s n) (hnc : ¬Complete K s n) (hk : k∈K)
    (hcomplete : ¬Complete K s m) : Inv K s m := by
  have harr := arrive_incomplete hk (mt (subset_insert_iff_complete hm h hnc).mp hcomplete)
  have hfired : m.fired=n.fired := by
    subst hm
    simp [Replica.deliver,harr]
  have hdown : m.down=n.down := by
    subst hm
    simp [Replica.deliver,harr]
  refine ⟨?_,?_,marked_deliver hm h,last_deliver hm h,?_,?_⟩
  · rw [hfired]
    exact leaf_deliver hm h
  · intro k'
    have hcenter : m.center s=insert k (n.center s) := by
      subst hm
      simp [Replica.deliver,harr]
    have hdel : m.delivered=n.delivered++[(i,(s,k),mark)] := hm ▸ rfl
    rw [hcenter,Finset.mem_insert,h.center,hdel,putAny_append,Prod.mk.injEq]
    constructor
    · rintro (rfl|⟨hk',hp,-⟩)
      · exact ⟨hk,Or.inr ⟨rfl,rfl⟩,hcomplete⟩
      · exact ⟨hk',Or.inl hp,hcomplete⟩
    · rintro ⟨hk',hp|⟨-,rfl⟩,-⟩
      · exact Or.inr ⟨hk',hp,hnc⟩
      · exact Or.inl rfl
  · rw [hfired,hdown]
    exact h.clears
  · rw [hfired]
    simp only [full_deliver hm]
    rcases h.fired with hj|⟨-,hc,-⟩|⟨hn,-,hfn⟩
    · exact Or.inl hj
    · exact absurd hc hnc
    · exact Or.inr (Or.inr ⟨hn,hcomplete,hfn⟩)

end Deliver

/-- Delivering a key of the session keeps the invariant. -/
theorem inv_deliver_key (h : Inv K s n) (hf : Replica.Fifo n) (ho : Once K s n.sent) (hk : k∈K)
    (hu : n.up i=((s,k),mark)::rest) : Inv K s ((barrier K).deliver n i (s,k) mark rest) := by
  have hput : PutAt s n.sent i k := ⟨mark,mem_sent_of_mem_up hf (hu ▸ List.mem_cons_self)⟩
  have hnew : ¬PutAny s n.delivered k := by
    have honce : Once K s (n.delivered++[(i,(s,k),mark)]) := by
      intro k' hk'
      have hs := delivered_append_up_subperm hf i
      rw [hu,List.map_cons,List.append_cons] at hs
      have hc := (hs.countP_le fun e => decide (e.2.1=(s,k'))).trans (ho k' hk')
      rw [List.countP_append] at hc
      omega
    exact honce.not_putAny hk rfl
  have hnc : ¬Complete K s n := fun hc => hnew (hc k hk)
  have honly : ∀ j,Full K s n j → j=i := fun j hj => ho.leaf_unique hk (hj k hk) hput
  by_cases hcomplete : Complete K s ((barrier K).deliver n i (s,k) mark rest)
  · exact inv_deliver_complete rfl h hnc hk honly (h.mark_iff hf ho hk hu hcomplete) hcomplete
  · exact inv_deliver_incomplete rfl h hnc hk hcomplete

/-- A leaf that consumes a clear keeps the invariant. -/
theorem inv_clear (h : Inv K s n) {s' : ς} {rest : List ς} (hd : n.down i=s'::rest) :
    Inv K s ((barrier K).recvClear n i s' rest) := by
  have hdown : ∀ j,s∈((barrier K).recvClear n i s' rest).down j → s∈n.down j := by
    intro j hj
    by_cases hi : j=i
    · subst hi
      rw [hd]
      exact List.mem_cons_of_mem _ (by simpa [Replica.recvClear] using hj)
    · simpa [Replica.recvClear,hi] using hj
  by_cases hs : s'=s
  · subst hs
    have hmem := h.clears i (hd ▸ List.mem_cons_self)
    exact ⟨fun _ _ hn => absurd hmem hn,h.center,h.marked,h.last,fun _ _ => hmem,h.fired⟩
  · refine h.congr ?_ rfl (fun _ => rfl) (fun _ _ => Iff.rfl) rfl hdown
    intro j
    by_cases hi : j=i
    · subst hi
      simp [Replica.recvClear,barrier,Function.update_of_ne (Ne.symm hs)]
    · simp [Replica.recvClear,hi]

/-- Every step keeps the invariant of a session whose keys are put at most once. -/
theorem inv_step {m : Net ι (ς → Finset κ) (ς×κ) ς ς} {e : Event ι (ς×κ)}
    (h : Replica.Fifo n ∧ (Once K s n.sent → Inv K s n)) (hs : (barrier K).step n e=some m) :
    Replica.Fifo m ∧ (Once K s m.sent → Inv K s m) := by
  refine ⟨(barrier K).fifo_step h.1 hs,?_⟩
  obtain ⟨i,⟨s',k⟩,-,rfl⟩|⟨i,⟨s',k⟩,mark,rest,-,hu,rfl⟩|⟨i,s',rest,-,hd,rfl⟩ :=
    (barrier K).step_cases hs
  · intro ho
    have hinv := h.2 ho.of_append
    by_cases hk : s'=s ∧ k∈K
    · obtain ⟨rfl,hk⟩ := hk
      exact inv_put_key hinv h.1 hk (ho.not_putAny hk rfl)
    · exact inv_put_other hinv hk
  · intro ho
    by_cases hk : s'=s ∧ k∈K
    · obtain ⟨rfl,hk⟩ := hk
      exact inv_deliver_key (h.2 ho) h.1 ho hk hu
    · exact inv_deliver_other (h.2 ho) hk
  · intro ho
    exact inv_clear (h.2 ho) hd

/-- When every key of the set was put once in a session and all reports are
consumed, the session has fired exactly once. -/
theorem fires_once (hK : K.Nonempty) {l : List (Event ι (ς×κ))}
    (hr : run (barrier K).step (Net.start fun _ => ∅) l=some n)
    (ho : ∀ k∈K,n.sent.countP (fun e => decide (e.2.1=(s,k)))=1) (hu : ∀ i,n.up i=[]) :
    ∃ x,n.fired.filter (fun f => decide (f.2=s))=[(x,s)] := by
  have hinv := run_invariant (fun _ _ _ => inv_step)
    ⟨Replica.fifo_start _,fun _ => inv_start (s:=s) hK⟩ hr
  have hc : Complete K s n := by
    intro k hk
    obtain ⟨⟨i,o,b⟩,hm,he⟩ := List.countP_pos_iff.mp (Nat.lt_of_lt_of_eq Nat.zero_lt_one (ho k hk).symm)
    obtain rfl : o=(s,k) := of_decide_eq_true he
    exact ⟨i,b,(delivered_perm_sent hinv.1 hu).mem_iff.mpr hm⟩
  rcases (hinv.2 fun k hk => (ho k hk).le).fired with ⟨i,-,hf⟩|⟨-,-,hf⟩|⟨-,hn,-⟩
  · exact ⟨some i,hf⟩
  · exact ⟨none,hf⟩
  · exact absurd hc hn

end Pheromone.BarrierReplicas
