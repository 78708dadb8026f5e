import Pheromone.LockstepReplicas
import Pheromone.BucketNetwork

/-!
# A redundant trigger on many workers

The redundant trigger counts objects whatever their sessions. It fires once
per session if sessions come one after the other, each on one worker.
-/

namespace Pheromone.RedundantReplication

open GuardedRuns ReplicaNetwork LockstepReplicas CommonNames TriggerPrimitives BucketNetwork

/-- The redundant trigger as a collector of session keys. -/
def redundant : Replica RedundantTrigger (Session×Key) (List (Session×Key)) Session where
  arrive t o :=
    let r := t.actionForNewObject [] ⟨[],o.2,o.1⟩
    (r.1,r.2.map TriggerAction.sessionKeys)
  clear t _ := t.clear
  session := Prod.fst

/-- A redundant trigger of a target. -/
def Counts (target : Str) (T : Trigger) (s : RedundantTrigger) : Prop :=
  T.targetFunction=target ∧ T.state=.redundant s

/-- An action of the target with the objects. -/
def Calls (target : Str) (a : TriggerAction) (objs : List (Session×Key)) : Prop :=
  a.function=target ∧ a.sessionKeys=objs

/-- An arrival at the redundant trigger is one at the collector. -/
theorem counts_arrive {target : Str} {T : Trigger} {s : RedundantTrigger} (now : ℤ) (bk : BucketKey)
    (h : Counts target T s) :
    Counts target (T.actionForNewObject now bk).1 (redundant.arrive s (bk.session,bk.key)).1 ∧
      List.Forall₂ (Calls target) (T.actionForNewObject now bk).2
        (redundant.arrive s (bk.session,bk.key)).2 := by
  obtain ⟨ht,hs⟩ := h
  have hstate : (T.actionForNewObject now bk).1.state=
      .redundant (s.actionForNewObject T.targetFunction bk).1 := by
    simp only [Trigger.actionForNewObject,hs,TriggerState.actionForNewObject]
  have hact : (T.actionForNewObject now bk).2=(s.actionForNewObject T.targetFunction bk).2 := by
    simp only [Trigger.actionForNewObject,hs,TriggerState.actionForNewObject]
  rw [hact,ht]
  refine ⟨⟨ht,hstate.trans ?_⟩,?_⟩
  · simp only [redundant,RedundantTrigger.actionForNewObject]
    split
    · split <;> rfl
    · split <;> rfl
  · simp only [redundant,RedundantTrigger.actionForNewObject]
    split
    · split
      · exact List.Forall₂.cons ⟨rfl,rfl⟩ List.Forall₂.nil
      · exact List.Forall₂.nil
    · split <;> exact List.Forall₂.nil

/-- The redundant trigger as a collector of the bucket network. -/
def redundantAbstraction (target : Str) :
    Abstraction RedundantTrigger (Session×Key) (List (Session×Key)) where
  replica := redundant
  object bk := (bk.session,bk.key)
  Represents := Counts target
  Performs := Calls target
  arrive := counts_arrive
  clear := by
    rintro T s session ⟨ht,hs⟩
    exact ⟨ht,by simp only [Trigger.clear,hs,TriggerState.clear,redundant]⟩
  note := by
    rintro T s call session ⟨ht,hs⟩
    exact ⟨ht,by simp only [Trigger.notifySourceFunc,hs,TriggerState.notifySourceFunc]⟩
  session _ := rfl
  cleared := by
    rintro T s ⟨-,hs⟩
    simp [Trigger.getType,hs,TriggerState.getType]

section Round

variable {k n : UInt32}

/-- The trigger after the objects of an open round. -/
def roundState (k n : UInt32) (objs : List (Session×Key)) : RedundantTrigger :=
  ⟨k,n,UInt32.ofNat objs.length,if objs.length<k.toNat then objs else []⟩

/-- One more object of a round: the k-th fires, the n-th closes the round. -/
theorem arrive_roundState (hkn : k<n) {objs : List (Session×Key)} (hlen : objs.length<n.toNat)
    (o : Session×Key) :
    redundant.arrive (roundState k n objs) o=
      (roundState k n (if objs.length+1=n.toNat then [] else objs++[o]),
        if objs.length+1=k.toNat then [objs++[o]] else []) := by
  have hkn' : k.toNat<n.toNat := hkn
  have hn := n.toNat_lt
  have hcount : (UInt32.ofNat objs.length+1).toNat=objs.length+1 := by
    rw [UInt32.toNat_add,UInt32.toNat_ofNat']
    have h1 : (1 : UInt32).toNat=1 := rfl
    omega
  have hsum : UInt32.ofNat objs.length+1=UInt32.ofNat (objs.length+1) := by
    apply UInt32.toNat_inj.mp
    rw [hcount,UInt32.toNat_ofNat']
    omega
  have hle : UInt32.ofNat objs.length+1≤k ↔ objs.length+1≤k.toNat := by
    rw [UInt32.le_iff_toNat_le,hcount]
  have heq : UInt32.ofNat objs.length+1=k ↔ objs.length+1=k.toNat := by
    rw [←UInt32.toNat_inj,hcount]
  have hge : UInt32.ofNat objs.length+1≥n ↔ n.toNat≤objs.length+1 := by
    rw [ge_iff_le,UInt32.le_iff_toNat_le,hcount]
  simp only [redundant,RedundantTrigger.actionForNewObject,roundState]
  by_cases hk : objs.length+1≤k.toNat
  · have hopen : objs.length<k.toNat := by omega
    have hnot : objs.length+1≠n.toNat := by omega
    rw [if_pos (hle.mpr hk),if_pos hopen,if_neg hnot]
    by_cases hlast : objs.length+1=k.toNat
    · have hfull : ¬(objs++[o]).length<k.toNat := by simp [hlast]
      rw [if_pos (heq.mpr hlast),if_pos hlast,if_neg hfull,hsum]
      simp
    · have hmore : (objs++[o]).length<k.toNat := by
        rw [List.length_append,List.length_singleton]
        omega
      rw [if_neg (mt heq.mp hlast),if_neg hlast,if_pos hmore,hsum]
      simp
  · have hclosed : ¬objs.length<k.toNat := by omega
    have hlast : ¬objs.length+1=k.toNat := by omega
    rw [if_neg (mt hle.mp hk),if_neg hclosed,if_neg hlast]
    by_cases hend : objs.length+1=n.toNat
    · rw [if_pos (hge.mpr hend.ge),if_pos hend]
      simp
    · have hmore : ¬(objs++[o]).length<k.toNat := by
        rw [List.length_append,List.length_singleton]
        omega
      rw [if_neg fun h => hend (by have := hge.mp h; omega),if_neg hend,if_neg hmore,hsum]
      simp

variable {ι : Type*} [DecidableEq ι]

/-- The network of the collector. -/
abbrev RoundNet (ι : Type*) := Net ι RedundantTrigger (Session×Key) (List (Session×Key)) Session

/-- The puts with their workers. -/
def putsOf (m : RoundNet ι) : List (ι×Session×Key) := m.sent.map fun e => (e.1,e.2.1)

/-- The objects of a session among puts. -/
def objectsOf (s : Session) (puts : List (ι×Session×Key)) : List (Session×Key) :=
  (puts.map Prod.snd).filter fun o => decide (o.1=s)

/-- The firings that involve a session. -/
def firingsOf (s : Session) (fired : List (Option ι×List (Session×Key))) :
    List (Option ι×List (Session×Key)) := fired.filter fun f => decide (∃ o∈f.2,o.1=s)

/-- A session has fired exactly if it has put k objects: once, on a worker,
with its first k. -/
def FiredOnce (k : UInt32) (puts : List (ι×Session×Key))
    (fired : List (Option ι×List (Session×Key))) (s : Session) : Prop :=
  ((objectsOf s puts).length<k.toNat → firingsOf s fired=[]) ∧
    (k.toNat≤(objectsOf s puts).length →
      ∃ w,firingsOf s fired=[(some w,(objectsOf s puts).take k.toNat)])

/-- All rounds but the open one are complete, and the open one belongs to one
session on one worker. -/
structure Rounds (k n : UInt32) (m : RoundNet ι) (done cur : List (ι×Session×Key)) : Prop where
  /-- The puts, round by round. -/
  puts : putsOf m=done++cur
  /-- The closed rounds are complete. -/
  whole : done.length%n.toNat=0
  /-- The last one is not. -/
  unfinished : cur.length<n.toNat
  /-- Nobody is ahead of the center but by reports under way. -/
  inStep : InStep redundant m (roundState k n (cur.map Prod.snd))
  /-- The worker of the open round has counted it, the others nothing. -/
  leaf : ∀ i,m.leaf i=roundState k n (if ∃ e∈cur,e.1=i then cur.map Prod.snd else [])
  /-- The open round is put by one worker in one session. -/
  together : ∀ e∈cur,∀ e'∈cur,e.1=e'.1 ∧ e.2.1=e'.2.1
  apart : ∀ e∈done,∀ e'∈cur,e.2.1≠e'.2.1
  fired : ∀ s,FiredOnce k (done++cur) m.fired s
  objects : ∀ f∈m.fired,f.2≠[]

/-- A put that continues the open round, or opens one with a new session,
while no other worker has reports under way. -/
structure Continues (n : UInt32) (m : RoundNet ι) (i : ι) (o : Session×Key) : Prop where
  /-- Nothing else is under way. -/
  alone : ∀ j,j≠i → m.up j=[]
  /-- A round is opened with a new session. -/
  opens : (putsOf m).length%n.toNat=0 → ∀ e∈putsOf m,e.2.1≠o.1
  /-- It is continued on its worker in its session. -/
  goesOn : (putsOf m).length%n.toNat≠0 → ∃ e,(putsOf m).getLast?=some e ∧ e.1=i ∧ e.2.1=o.1

theorem rounds_start (hk : 0<k) (hkn : k<n) :
    Rounds k n (Net.start (roundState k n []) : RoundNet ι) [] [] := by
  have hpos : 0<k.toNat := hk
  have hlt : k.toNat<n.toNat := hkn
  refine ⟨rfl,Nat.zero_mod _,?_,inStep_start _,fun _ => ?_,nofun,nofun,fun s => ⟨fun _ => rfl,?_⟩,nofun⟩
  · show 0<n.toNat
    omega
  · simp [Net.start]
  · intro hle
    have hzero : k.toNat≤0 := hle
    omega

omit [DecidableEq ι] in
theorem objectsOf_append (s : Session) (puts : List (ι×Session×Key)) (i : ι) (o : Session×Key) :
    objectsOf s (puts++[(i,o)])=objectsOf s puts++if o.1=s then [o] else [] := by
  simp only [objectsOf,List.map_append,List.filter_append,List.map_cons,List.map_nil]
  by_cases hs : o.1=s
  · simp [hs]
  · simp [hs]

omit [DecidableEq ι] in
theorem firingsOf_append (s : Session) (fired : List (Option ι×List (Session×Key)))
    (f : Option ι×List (Session×Key)) :
    firingsOf s (fired++[f])=firingsOf s fired++if ∃ o∈f.2,o.1=s then [f] else [] := by
  rw [firingsOf,List.filter_append]
  congr 1
  by_cases hs : ∃ o∈f.2,o.1=s
  · rw [if_pos hs,List.filter_cons_of_pos (by simpa using hs)]
    rfl
  · rw [if_neg hs,List.filter_cons_of_neg (by simpa using hs)]
    rfl

omit [DecidableEq ι] in
/-- Firing at the k-th object of a session keeps the sessions' accounts. -/
theorem firedOnce_put {puts : List (ι×Session×Key)} {fired : List (Option ι×List (Session×Key))}
    (h : ∀ s,FiredOnce k puts fired s) (i : ι) (o : Session×Key) (s : Session) :
    FiredOnce k (puts++[(i,o)]) (fired++(if (objectsOf o.1 puts).length+1=k.toNat then
      [objectsOf o.1 puts++[o]] else []).map fun a => (some i,a)) s := by
  obtain ⟨hnone,honce⟩ := h s
  rw [FiredOnce,objectsOf_append]
  by_cases hs : o.1=s
  · subst hs
    rw [if_pos rfl,List.length_append,List.length_singleton]
    by_cases hlast : (objectsOf o.1 puts).length+1=k.toNat
    · have hinvolves : ∃ x∈objectsOf o.1 puts++[o],x.1=o.1 := ⟨o,by simp,rfl⟩
      have hfirings := firingsOf_append o.1 fired (some i,objectsOf o.1 puts++[o])
      rw [if_pos hinvolves,hnone (by omega),List.nil_append] at hfirings
      refine ⟨fun hlt => absurd hlt (by omega),fun _ => ⟨i,?_⟩⟩
      rw [if_pos hlast,List.map_cons,List.map_nil,hfirings,List.take_of_length_le]
      rw [List.length_append,List.length_singleton]
      omega
    · rw [if_neg hlast,List.map_nil,List.append_nil]
      refine ⟨fun hlt => hnone (by omega),fun hle => ?_⟩
      have henough : k.toNat≤(objectsOf o.1 puts).length := by omega
      rw [List.take_append_of_le_length henough]
      exact honce henough
  · have hforeign : ¬∃ x∈objectsOf o.1 puts++[o],x.1=s := by
      rintro ⟨x,hx,hxs⟩
      rcases List.mem_append.mp hx with hx | hx
      · have hxo : x.1=o.1 := by simpa using (List.mem_filter.mp hx).2
        exact hs (hxo.symm.trans hxs)
      · rw [List.mem_singleton.mp hx] at hxs
        exact hs hxs
    rw [if_neg hs,List.append_nil]
    by_cases hlast : (objectsOf o.1 puts).length+1=k.toNat
    · have hfirings := firingsOf_append s fired (some i,objectsOf o.1 puts++[o])
      rw [if_neg hforeign,List.append_nil] at hfirings
      rw [if_pos hlast,List.map_cons,List.map_nil,hfirings]
      exact ⟨hnone,honce⟩
    · rw [if_neg hlast,List.map_nil,List.append_nil]
      exact ⟨hnone,honce⟩

variable {m : RoundNet ι} {cur done : List (ι×Session×Key)} {i : ι} {o : Session×Key}

/-- What the guard of a put says of the open round. -/
theorem Rounds.continues (h : Rounds k n m done cur) (hg : Continues n m i o) :
    (∀ e∈cur,e.1=i ∧ e.2.1=o.1) ∧ (∀ e∈done,e.2.1≠o.1) := by
  have hmod : (putsOf m).length%n.toNat=cur.length := by
    rw [h.puts,List.length_append,Nat.add_mod,h.whole,Nat.zero_add,Nat.mod_mod,
      Nat.mod_eq_of_lt h.unfinished]
  cases hc : cur with
  | nil =>
    rw [hc,List.length_nil] at hmod
    refine ⟨nofun,fun e he => hg.opens hmod e ?_⟩
    rw [h.puts]
    exact List.mem_append_left _ he
  | cons c rest =>
    rw [hc,List.length_cons] at hmod
    obtain ⟨e,hlast,hi,ho⟩ := hg.goesOn (by omega)
    have hne : cur≠[] := by rw [hc]; exact List.cons_ne_nil _ _
    have hmem : e∈cur := by
      rw [h.puts,List.getLast?_append_of_ne_nil _ hne] at hlast
      exact List.mem_of_getLast? hlast
    rw [←hc]
    refine ⟨fun x hx => ?_,fun x hx => ?_⟩
    · have htog := h.together x hx e hmem
      exact ⟨htog.1.trans hi,htog.2.trans ho⟩
    · rw [←ho]
      exact h.apart x hx e hmem

omit [DecidableEq ι] in
/-- The objects of the session of the open round are those of the round. -/
theorem objectsOf_round {s : Session} (hcur : ∀ e∈cur,e.2.1=s) (hdone : ∀ e∈done,e.2.1≠s) :
    objectsOf s (done++cur)=cur.map Prod.snd := by
  have hnone : (done.map Prod.snd).filter (fun o => decide (o.1=s))=[] := by
    rw [List.filter_eq_nil_iff]
    intro o ho
    obtain ⟨e,he,rfl⟩ := List.mem_map.mp ho
    simpa using hdone e he
  have hall : (cur.map Prod.snd).filter (fun o => decide (o.1=s))=cur.map Prod.snd := by
    rw [List.filter_eq_self]
    intro o ho
    obtain ⟨e,he,rfl⟩ := List.mem_map.mp ho
    simpa using hcur e he
  rw [objectsOf,List.map_append,List.filter_append,hnone,hall,List.nil_append]

section Put

variable (hkn : k<n) (h : Rounds k n m done cur) (hg : Continues n m i o)
include h hg

/-- The leaf that serves the put holds the open round. -/
theorem Rounds.leaf_self : m.leaf i=roundState k n (cur.map Prod.snd) := by
  have hcur := (h.continues hg).1
  rw [h.leaf i]
  by_cases hex : ∃ e∈cur,e.1=i
  · rw [if_pos hex]
  · cases cur with
    | nil => rfl
    | cons e rest => exact absurd ⟨e,List.mem_cons_self,(hcur e List.mem_cons_self).1⟩ hex

/-- All other leaves have not begun a round. -/
theorem Rounds.leaf_other {j : ι} (hj : j≠i) : m.leaf j=roundState k n [] := by
  rw [h.leaf j,if_neg]
  rintro ⟨e,he,hej⟩
  exact hj (hej.symm.trans ((h.continues hg).1 e he).1)

omit hg in
theorem Rounds.putsOf_put :
    putsOf (redundant.put m i o)=(done++cur)++[(i,o)] := by
  simp only [putsOf,Replica.put,List.map_append,List.map_cons,List.map_nil]
  rw [←h.puts]
  rfl

include hkn

theorem Rounds.arrive :
    redundant.arrive (m.leaf i) o=
      (roundState k n (if cur.length+1=n.toNat then [] else cur.map Prod.snd++[o]),
        if cur.length+1=k.toNat then [cur.map Prod.snd++[o]] else []) := by
  have hlen : (cur.map Prod.snd).length<n.toNat := by
    rw [List.length_map]
    exact h.unfinished
  rw [h.leaf_self hg,arrive_roundState hkn hlen o,List.length_map]

theorem Rounds.leaf_put :
    (redundant.put m i o).leaf=Function.update m.leaf i
      (roundState k n (if cur.length+1=n.toNat then [] else cur.map Prod.snd++[o])) := by
  simp only [Replica.put,h.arrive hkn hg]

theorem Rounds.fired_put :
    (redundant.put m i o).fired=m.fired++(if (objectsOf o.1 (done++cur)).length+1=k.toNat then
      [objectsOf o.1 (done++cur)++[o]] else []).map fun a => (some i,a) := by
  obtain ⟨hcur,hdone⟩ := h.continues hg
  have hobjs := objectsOf_round (fun e he => (hcur e he).2) hdone
  simp only [Replica.put,h.arrive hkn hg,hobjs,List.length_map]

/-- The accounts of every session hold after the put. -/
theorem Rounds.firedOnce_put (s : Session) :
    FiredOnce k ((done++cur)++[(i,o)]) (redundant.put m i o).fired s := by
  rw [h.fired_put hkn hg]
  exact RedundantReplication.firedOnce_put h.fired i o s

theorem Rounds.objects_put :
    ∀ f∈(redundant.put m i o).fired,f.2≠[] := by
  rw [h.fired_put hkn hg]
  refine List.forall_mem_append.mpr ⟨h.objects,fun f hf => ?_⟩
  obtain ⟨a,ha,rfl⟩ := List.mem_map.mp hf
  split at ha
  · rw [List.mem_singleton.mp ha]
    simp
  · cases ha

/-- The put that ends the round leaves every leaf at the start of one. -/
theorem Rounds.put_ends (hend : cur.length+1=n.toNat) :
    Rounds k n (redundant.put m i o) ((done++cur)++[(i,o)]) [] := by
  have hstep := inStep_put h.inStep (h.leaf_self hg) hg.alone o
  have hnew := h.leaf_put hkn hg
  rw [←h.leaf_self hg,h.arrive hkn hg,if_pos hend] at hstep
  rw [if_pos hend] at hnew
  refine ⟨?_,?_,?_,hstep,?_,fun _ he => absurd he List.not_mem_nil,
    fun _ _ _ he => absurd he List.not_mem_nil,?_,h.objects_put hkn hg⟩
  · rw [h.putsOf_put,List.append_nil]
  · have hlength : ((done++cur)++[(i,o)]).length=done.length+n.toNat := by
      simp only [List.length_append,List.length_singleton]
      omega
    rw [hlength,Nat.add_mod_right]
    exact h.whole
  · rw [List.length_nil]
    omega
  · intro j
    rw [hnew]
    by_cases hj : j=i
    · rw [hj,Function.update_self]
      simp
    · rw [Function.update_of_ne hj,h.leaf_other hg hj]
      simp
  · rw [List.append_nil]
    exact h.firedOnce_put hkn hg

/-- Any other put belongs to the open round. -/
theorem Rounds.put_goesOn (hend : cur.length+1≠n.toNat) :
    Rounds k n (redundant.put m i o) done (cur++[(i,o)]) := by
  obtain ⟨hcur,hdone⟩ := h.continues hg
  have hsame : ∀ e∈cur++[(i,o)],e.1=i ∧ e.2.1=o.1 :=
    List.forall_mem_append.mpr ⟨hcur,by simp⟩
  have hstep := inStep_put h.inStep (h.leaf_self hg) hg.alone o
  have hnew := h.leaf_put hkn hg
  have hmap : (cur++[(i,o)]).map Prod.snd=cur.map Prod.snd++[o] := by simp
  rw [←h.leaf_self hg,h.arrive hkn hg,if_neg hend] at hstep
  rw [if_neg hend] at hnew
  refine ⟨?_,h.whole,?_,?_,?_,?_,?_,?_,h.objects_put hkn hg⟩
  · rw [h.putsOf_put,List.append_assoc]
  · have hlt := h.unfinished
    rw [List.length_append,List.length_singleton]
    omega
  · rw [hmap]
    exact hstep
  · intro j
    rw [hnew,hmap]
    by_cases hj : j=i
    · have hex : ∃ e∈cur++[(i,o)],e.1=j := ⟨(i,o),by simp,hj.symm⟩
      rw [if_pos hex,hj,Function.update_self]
    · have hno : ¬∃ e∈cur++[(i,o)],e.1=j := by
        rintro ⟨e,he,hej⟩
        exact hj (hej.symm.trans (hsame e he).1)
      rw [if_neg hno,Function.update_of_ne hj,h.leaf_other hg hj]
  · intro e he e' he'
    have h1 := hsame e he
    have h2 := hsame e' he'
    exact ⟨h1.1.trans h2.1.symm,h1.2.trans h2.2.symm⟩
  · intro e he e' he'
    rw [(hsame e' he').2]
    exact hdone e he
  · rw [←List.append_assoc]
    exact h.firedOnce_put hkn hg

/-- A put that meets the guard keeps the rounds apart. -/
theorem rounds_put : ∃ done' cur',Rounds k n (redundant.put m i o) done' cur' := by
  by_cases hend : cur.length+1=n.toNat
  · exact ⟨_,_,h.put_ends hkn hg hend⟩
  · exact ⟨_,_,h.put_goesOn hkn hg hend⟩

end Put

/-- A delivery fires nothing. -/
theorem rounds_deliver (h : Rounds k n m done cur) {mark : Bool} {rest : List ((Session×Key)×Bool)}
    (hu : m.up i=(o,mark)::rest) : Rounds k n (redundant.deliver m i o mark rest) done cur := by
  obtain ⟨hstep,hfired⟩ := inStep_deliver h.inStep hu
  refine ⟨h.puts,h.whole,h.unfinished,hstep,h.leaf,h.together,h.apart,?_,?_⟩
  · rw [hfired]
    exact h.fired
  · rw [hfired]
    exact h.objects

end Round

/-- One trigger of the name, a redundant trigger that has counted nothing. -/
def Installed (t target : Str) (k n : UInt32) (triggers : List Trigger) : Prop :=
  ∃ T,named t triggers=[T] ∧ Counts target T ⟨k,n,0,[]⟩

variable {ι : Type*} [DecidableEq ι]

/-- The objects that a session has put, oldest first. -/
def sessionObjects (s : Session) (net : BucketNet ι) : List (Session×Key) :=
  (net.puts.map fun p => (p.2.session,p.2.key)).filter fun o => decide (o.1=s)

/-- The firings of a trigger that involve an object of a session. -/
def sessionFirings (t : Str) (s : Session) (net : BucketNet ι) : List (Fired ι) :=
  (net.fired.filter fun f => decide (f.trigger=t)).filter
    fun f => decide (∃ o∈f.action.sessionKeys,o.1=s)

/-- What a put has to respect: no other worker has a notification under way;
the first of every n puts is of a new session; and the other ones are of the
same session on the same worker as the put before. -/
def Orderly (n : ℕ) (net : BucketNet ι) : Label ι → Prop
  | .put w _ session _ => (∀ v,v≠w → net.notifications v=[]) ∧
    if net.puts.length%n=0 then ∀ p∈net.puts,p.2.session≠session
    else ∃ p∈net.puts.getLast?,p.1=w ∧ p.2.session=session
  | .notify _ _ => True
  | .update _ => True
  | .note _ _ _ _ => True

section Runs

variable {bucket : Bucket} {t target : Str} {k n : UInt32}

variable {net : BucketNet ι}

/-- The rounds are kept apart along every orderly run. -/
theorem rounds_of_orderly (hkn : k<n) {net' : BucketNet ι} {l : Label ι}
    (h : ∃ m done cur,Refines (redundantAbstraction target) bucket t net m ∧ Rounds k n m done cur)
    (hg : Orderly n.toNat net l) (hs : step bucket net l=some net') :
    ∃ m done cur,Refines (redundantAbstraction target) bucket t net' m ∧ Rounds k n m done cur := by
  obtain ⟨m,done,cur,href,hinv⟩ := h
  have hputs : putsOf m=net.puts.map fun p => (p.1,p.2.session,p.2.key) := href.puts
  obtain ⟨w,key,session,now,rfl,rfl⟩|⟨w,now,msg,rest,rfl,hu,rfl⟩|⟨w,msg,rest,rfl,hd,rfl⟩|
    ⟨w,index,call,session,rfl,rfl⟩ := step_cases hs
  · obtain ⟨halone,hsession⟩ := hg
    have hcont : Continues n m w (session,key) := by
      refine ⟨fun v hv => ?_,fun hmod e he => ?_,fun hmod => ?_⟩
      · rw [href.up,halone v hv,List.map_nil]
      · rw [hputs,List.length_map] at hmod
        rw [if_pos hmod] at hsession
        rw [hputs] at he
        obtain ⟨p,hp,rfl⟩ := List.mem_map.mp he
        exact hsession p hp
      · rw [hputs,List.length_map] at hmod
        rw [if_neg hmod] at hsession
        obtain ⟨p,hp,hw,hses⟩ := hsession
        refine ⟨(p.1,p.2.session,p.2.key),?_,hw,hses⟩
        rw [hputs,List.getLast?_map,Option.mem_def.mp hp]
        rfl
    obtain ⟨done',cur',hnew⟩ := rounds_put hkn hinv hcont
    exact ⟨_,done',cur',refines_put href w key session now,hnew⟩
  · have hup : m.up w=_ := href.up w
    rw [hu,List.map_cons] at hup
    exact ⟨_,done,cur,refines_notify href hu now,rounds_deliver hinv hup⟩
  · have hdown := href.down w
    rw [hinv.inStep.down w,hd,List.flatMap_cons] at hdown
    have hnone := (List.append_eq_nil_iff.mp hdown.symm).1
    obtain ⟨m',hrun,-,href'⟩ := refines_update href hd
    rw [hnone] at hrun
    obtain rfl := Option.some.inj hrun
    exact ⟨m,done,cur,href',hinv⟩
  · exact ⟨m,done,cur,refines_note href w index call session,hinv⟩

variable {m : RoundNet ι}

omit [DecidableEq ι] in
/-- Objects of a session in the bucket and in the network. -/
theorem sessionObjects_eq (h : Refines (redundantAbstraction target) bucket t net m) (s : Session) :
    sessionObjects s net=objectsOf s (putsOf m) := by
  have hputs : putsOf m=net.puts.map fun p => (p.1,p.2.session,p.2.key) := h.puts
  rw [objectsOf,hputs,List.map_map]
  rfl

omit [DecidableEq ι] in
/-- Firings of a session in the bucket and in the network. -/
theorem sessionFirings_related (h : Refines (redundantAbstraction target) bucket t net m)
    (s : Session) :
    List.Forall₂ (fun (f : Fired ι) a => f.node=a.1 ∧ Calls target f.action a.2)
      (sessionFirings t s net) (firingsOf s m.fired) := by
  refine List.rel_filter ?_ h.fired
  rintro f a ⟨-,-,hkeys⟩
  simp only [decide_eq_true_eq]
  rw [hkeys]

omit [DecidableEq ι] in
/-- Firings with objects in the network are such in the bucket. -/
theorem firing_ne_nil (h : Refines (redundantAbstraction target) bucket t net m)
    (hm : ∀ a∈m.fired,a.2≠[]) {f : Fired ι} (hf : f∈net.fired.filter fun f => decide (f.trigger=t)) :
    f.action.sessionKeys≠[] := by
  have hempty : m.fired.filter (fun a => decide (a.2=[]))=[] := by
    rw [List.filter_eq_nil_iff]
    exact fun a ha => by simpa using hm a ha
  have hrel : List.Forall₂ (fun (f : Fired ι) a => f.node=a.1 ∧ Calls target f.action a.2)
      ((net.fired.filter fun f => decide (f.trigger=t)).filter
        fun f => decide (f.action.sessionKeys=[])) (m.fired.filter fun a => decide (a.2=[])) := by
    refine List.rel_filter ?_ h.fired
    rintro x a ⟨-,-,hkeys⟩
    simp only [decide_eq_true_eq]
    rw [hkeys]
  rw [hempty] at hrel
  have hnone := List.filter_eq_nil_iff.mp (List.forall₂_nil_right_iff.mp hrel) f hf
  simpa using hnone

/-- In every run whose puts are orderly, every session is fired for exactly
once, as soon as it has put k objects, with these k objects. -/
theorem redundant_fires_once_of_orderly (bucket : Bucket) (t : Str) (hk : 0<k) (hkn : k<n)
    {workers : ι → List Trigger} {coord : List Trigger} (hw : ∀ w,Installed t target k n (workers w))
    (hc : Installed t target k n coord) (l : List (Label ι)) {net : BucketNet ι}
    (hr : run (step bucket) (BucketNet.start workers coord) l=some net)
    (hg : StepsMeet (step bucket) (Orderly n.toNat) (BucketNet.start workers coord) l) :
    (∀ s,((sessionObjects s net).length<k.toNat → sessionFirings t s net=[]) ∧
      (k.toNat≤(sessionObjects s net).length → ∃ f,sessionFirings t s net=[f] ∧
        f.action.function=target ∧ f.action.sessionKeys=(sessionObjects s net).take k.toNat)) ∧
    ∀ f∈net.fired,f.trigger=t → ∃ s,f∈sessionFirings t s net := by
  have hstart : (⟨k,n,0,[]⟩ : RedundantTrigger)=roundState k n [] := by simp [roundState]
  rw [Installed,hstart] at hc
  have hw' : ∀ w,∃ T,named t (workers w)=[T] ∧ Counts target T (roundState k n []) := hstart ▸ hw
  obtain ⟨m,done,cur,href,hinv⟩ := run_invariant_of_steps
    (fun _ _ _ h hok hs => rounds_of_orderly hkn h hok hs)
    ⟨_,[],[],refines_start (A:=redundantAbstraction target) hw' hc,rounds_start hk hkn⟩ hg hr
  refine ⟨fun s => ?_,fun f hf ht => ?_⟩
  · have hobjs := sessionObjects_eq href s
    rw [hinv.puts] at hobjs
    have hrel := sessionFirings_related href s
    obtain ⟨hnone,honce⟩ := hinv.fired s
    rw [hobjs]
    refine ⟨fun hlt => ?_,fun hle => ?_⟩
    · rw [hnone hlt] at hrel
      exact List.forall₂_nil_right_iff.mp hrel
    · obtain ⟨w,hw⟩ := honce hle
      rw [hw] at hrel
      obtain ⟨f,rest,⟨-,hcall⟩,hrest,hf⟩ := List.forall₂_cons_right_iff.mp hrel
      rw [List.forall₂_nil_right_iff.mp hrest] at hf
      exact ⟨f,hf,hcall.1,hcall.2⟩
  · have hmem : f∈net.fired.filter fun f => decide (f.trigger=t) :=
      List.mem_filter.mpr ⟨hf,by simpa using ht⟩
    obtain ⟨o,ho⟩ := List.exists_mem_of_ne_nil _ (firing_ne_nil href hinv.objects hmem)
    refine ⟨o.1,List.mem_filter.mpr ⟨hmem,?_⟩⟩
    simpa using ⟨o.2,ho⟩

end Runs

instance [Fintype ι] (n : ℕ) (net : BucketNet ι) (l : Label ι) : Decidable (Orderly n net l) :=
  match l with
  | .put _ _ _ _ => inferInstanceAs (Decidable (_ ∧ ite _ _ _))
  | .notify _ _ => isTrue trivial
  | .update _ => isTrue trivial
  | .note _ _ _ _ => isTrue trivial

/-- A redundant trigger for one of two objects. -/
def oneOfTwo : Trigger := ⟨str "f",str "t",0,.redundant ⟨1,2,0,[]⟩⟩

/-- Two sessions, one after the other, each on its own worker. -/
def orderlyRun : List (Label Bool) :=
  [.put false (str "a1") (str "s") 0,.put false (str "a2") (str "s") 0,.notify false 0,.notify false 0,
    .put true (str "b1") (str "r") 0,.put true (str "b2") (str "r") 0,.notify true 0]

theorem redundant_fires_once_of_orderly_twoSessions : ∃ net,
    run (step (str "b")) (BucketNet.start (fun _ : Bool => [oneOfTwo]) [oneOfTwo]) orderlyRun=some net ∧
    (∃ f,sessionFirings (str "t") (str "s") net=[f] ∧ f.action.sessionKeys=[(str "s",str "a1")]) ∧
    ∃ f,sessionFirings (str "t") (str "r") net=[f] ∧ f.action.sessionKeys=[(str "r",str "b1")] := by
  have hi : Installed (str "t") (str "f") 1 2 [oneOfTwo] := ⟨oneOfTwo,by decide,rfl,rfl⟩
  have hmain := (redundant_fires_once_of_orderly (str "b") (str "t") (by decide) (by decide)
    (fun _ : Bool => hi) hi orderlyRun rfl
    (stepsMeet_cons (by decide) rfl (stepsMeet_cons (by decide) rfl (stepsMeet_cons (by decide) rfl
      (stepsMeet_cons (by decide) rfl (stepsMeet_cons (by decide) rfl (stepsMeet_cons (by decide) rfl
        (stepsMeet_cons (by decide) rfl trivial)))))))).1
  obtain ⟨f,hf,-,hkeys⟩ := (hmain (str "s")).2 (by decide)
  obtain ⟨g,hg,-,hkeys'⟩ := (hmain (str "r")).2 (by decide)
  exact ⟨_,rfl,⟨f,hf,hkeys⟩,g,hg,hkeys'⟩

/-- One session whose two objects are put by two workers. -/
def splitRun : List (Label Bool) :=
  [.put false (str "a1") (str "s") 0,.put true (str "a2") (str "s") 0]

/-- Each worker fires: the function is started twice for the session. -/
theorem session_fired_twice : ∃ net,
    run (step (str "b")) (BucketNet.start (fun _ : Bool => [oneOfTwo]) [oneOfTwo]) splitRun=some net ∧
    (sessionObjects (str "s") net).length=2 ∧
    (sessionFirings (str "t") (str "s") net).map (fun f => (f.node,f.action.sessionKeys))=
      [(some false,[(str "s",str "a1")]),(some true,[(str "s",str "a2")])] :=
  ⟨_,rfl,by decide,by decide⟩

end Pheromone.RedundantReplication
