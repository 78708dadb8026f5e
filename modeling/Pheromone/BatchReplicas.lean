import Pheromone.ReplicaNetwork
import Mathlib.Algebra.Order.Group.Multiset
import Mathlib.Tactic.Abel

/-!
# Replicated batches

Leaves and center buffer different sequences. Under a guard on the reports
under way no object is fired twice and none is lost.
-/

namespace Pheromone.BatchReplicas

open GuardedRuns ReplicaNetwork

variable {ι ω ς : Type*} [DecidableEq ι]

/-- The buffer after an arrival: emptied when it is full. -/
def next (c : ℕ) (buffer : List ω) (o : ω) : List ω :=
  if c≤buffer.length+1 then [] else buffer++[o]

/-- The collector of batches of a size; a clear drops the whole buffer. -/
def batch (c : ℕ) (session : ω → ς) : Replica (List ω) ω (List ω) ς where
  arrive buffer o := (next c buffer o,if c≤buffer.length+1 then [buffer++[o]] else [])
  clear _ _ := []
  session := session

/-- The buffer after all objects of a link. -/
def advance (c : ℕ) (buffer : List ω) (link : List (ω×Bool)) : List ω :=
  link.foldl (fun buffer e => next c buffer e.1) buffer

/-- Along the link, every marked report meets a buffer that it fills. -/
def Aligned (c : ℕ) : List ω → List (ω×Bool) → Prop
  | _,[] => True
  | buffer,e::link => (e.2=true → c≤buffer.length+1) ∧ Aligned c (next c buffer e.1) link

/-- The batches that the marked reports of the link will complete. -/
def pending (c : ℕ) : List ω → List (ω×Bool) → List (List ω)
  | _,[] => []
  | buffer,e::link => (if e.2=true then [buffer++[e.1]] else [])++pending c (next c buffer e.1) link

/-- No report of the link is marked. -/
def Unmarked (link : List (ω×Bool)) : Prop := ∀ e∈link,e.2=false

variable {buffer : List ω} {link : List (ω×Bool)} {e : ω×Bool}

theorem aligned_append {c : ℕ} :
    Aligned c buffer (link++[e]) ↔
      Aligned c buffer link ∧ (e.2=true → c≤(advance c buffer link).length+1) := by
  induction link generalizing buffer with
  | nil => simp [Aligned,advance]
  | cons x link ih =>
    simp only [List.cons_append,Aligned,ih,and_assoc]
    rfl

theorem pending_append {c : ℕ} :
    pending c buffer (link++[e])=
      pending c buffer link++if e.2=true then [advance c buffer link++[e.1]] else [] := by
  induction link generalizing buffer with
  | nil => simp [pending,advance]
  | cons x link ih =>
    simp only [List.cons_append,pending,ih,List.append_assoc]
    rfl

/-- An unmarked link is aligned and has nothing pending. -/
theorem Unmarked.aligned_pending (h : Unmarked link) (c : ℕ) (buffer : List ω) :
    Aligned c buffer link ∧ pending c buffer link=[] := by
  induction link generalizing buffer with
  | nil => exact ⟨trivial,rfl⟩
  | cons e link ih =>
    have he : e.2=false := h e List.mem_cons_self
    obtain ⟨ha,hp⟩ := ih (fun x hx => h x (List.mem_cons_of_mem _ hx)) (next c buffer e.1)
    exact ⟨⟨fun ht => absurd (he.symm.trans ht) Bool.false_ne_true,ha⟩,by simp [pending,he,hp]⟩

/-- Pending batches use objects of the buffer and of the link, each once. -/
theorem pending_le {c : ℕ} (h : Aligned c buffer link) :
    ((pending c buffer link).flatten : Multiset ω)≤↑buffer+↑(link.map Prod.fst) := by
  induction link generalizing buffer with
  | nil => exact Multiset.zero_le _
  | cons e link ih =>
    have hih := ih h.2
    have hsplit : (↑buffer+↑((e::link).map Prod.fst) : Multiset ω)=
        ↑(buffer++[e.1])+↑(link.map Prod.fst) := by
      rw [Multiset.coe_add,Multiset.coe_add,List.map_cons,List.append_assoc,List.singleton_append]
    rw [hsplit]
    by_cases hf : c≤buffer.length+1
    · simp only [next,if_pos hf,Multiset.coe_nil,zero_add] at hih
      cases hm : e.2 with
      | true =>
        simp only [pending,hm,if_true,next,if_pos hf,List.singleton_append,List.flatten_cons]
        rw [←Multiset.coe_add]
        exact add_le_add_right hih _
      | false =>
        simp only [pending,hm,Bool.false_eq_true,if_false,next,if_pos hf,List.nil_append]
        exact hih.trans (Multiset.le_add_left _ _)
    · have hm : e.2=false := by
        cases hm : e.2 with
        | true => exact absurd (h.1 hm) hf
        | false => rfl
      simp only [pending,hm,Bool.false_eq_true,if_false,List.nil_append]
      simp only [next,if_neg hf] at hih ⊢
      exact hih

variable {n m : Net ι (List ω) ω (List ω) ς}

/-- Batches fired by leaves. -/
def localBatches (n : Net ι (List ω) ω (List ω) ς) : List (List ω) :=
  (n.fired.filter fun f => f.1.isSome).map Prod.snd

/-- Batches fired by the center. -/
def dispatched (n : Net ι (List ω) ω (List ω) ς) : List (List ω) :=
  (n.fired.filter fun f => !f.1.isSome).map Prod.snd

/-- Objects of a list of reports. -/
def objects (l : List (ι×ω×Bool)) : List ω := l.map fun e => e.2.1

/-- All objects of fired batches. -/
def firedObjects (n : Net ι (List ω) ω (List ω) ς) : List ω := (n.fired.map Prod.snd).flatten

omit [DecidableEq ι] in
/-- Fired objects are those of the leaves and those of the center. -/
theorem firedObjects_eq (n : Net ι (List ω) ω (List ω) ς) :
    (firedObjects n : Multiset ω)=↑(localBatches n).flatten+↑(dispatched n).flatten := by
  rw [Multiset.coe_add,Multiset.coe_eq_coe,←List.flatten_append]
  apply List.Perm.flatten
  rw [localBatches,dispatched,←List.map_append]
  exact (List.filter_append_perm _ _).symm.map _

/-- The accounting of a guarded run. -/
structure Inv (c : ℕ) (n : Net ι (List ω) ω (List ω) ς) : Prop where
  /-- One leaf holds all marked reports, aligned with the center; what leaves
  have fired is what the center has skipped or is going to skip. -/
  focus : ∃ j,(∀ i,i≠j → Unmarked (n.up i)) ∧ Aligned c n.center (n.up j) ∧
    (localBatches n).Perm (n.skipped++pending c n.center (n.up j))
  /-- Delivered objects are skipped, dispatched or in the center's buffer. -/
  delivered : (objects n.delivered : Multiset ω)=
    ↑n.skipped.flatten+↑(dispatched n).flatten+↑n.center

/-- What a step has to respect: a leaf fills a batch, and the center consumes
a report, only while no other leaf has a marked report under way; and the
leaf's buffer is then the one the center will have. -/
def Guard (c : ℕ) (n : Net ι (List ω) ω (List ω) ς) : Event ι ω → Prop
  | .put i _ => c≤(n.leaf i).length+1 →
    n.leaf i=advance c n.center (n.up i) ∧ ∀ k,k≠i → Unmarked (n.up k)
  | .deliver i => ∀ k,k≠i → Unmarked (n.up k)
  | .clear _ => True

variable {c : ℕ} {session : ω → ς}

variable {i : ι}

omit [DecidableEq ι] in
/-- If no other leaf has a marked report, the focus can be put on this leaf. -/
theorem Inv.focus_at (h : Inv c n) (hi : ∀ k,k≠i → Unmarked (n.up k)) :
    Aligned c n.center (n.up i) ∧
      (localBatches n).Perm (n.skipped++pending c n.center (n.up i)) := by
  obtain ⟨j,hj,ha,hp⟩ := h.focus
  by_cases hij : i=j
  · exact hij ▸ ⟨ha,hp⟩
  · have hui := (hj i hij).aligned_pending c n.center
    have huj := (hi j (Ne.symm hij)).aligned_pending c n.center
    rw [huj.2] at hp
    exact ⟨hui.1,hui.2 ▸ hp⟩

omit [DecidableEq ι] in
theorem inv_start (i : ι) : Inv c (Net.start [] : Net ι (List ω) ω (List ω) ς) :=
  ⟨⟨i,fun _ _ _ he => absurd he List.not_mem_nil,trivial,List.Perm.nil⟩,rfl⟩

variable {o : ω}

theorem inv_put (h : Inv c n) (hg : Guard c n (.put i o)) :
    Inv c ((batch c session).put n i o) := by
  by_cases hf : c≤(n.leaf i).length+1
  · obtain ⟨hbuf,hun⟩ := hg hf
    obtain ⟨ha,hp⟩ := h.focus_at hun
    have hup : ((batch c session).put n i o).up i=n.up i++[(o,true)] := by
      simp [Replica.put,batch,hf]
    refine ⟨⟨i,?_,?_,?_⟩,?_⟩
    · intro k hk
      simpa only [Replica.put,Function.update_of_ne hk] using hun k hk
    · rw [hup]
      exact aligned_append.mpr ⟨ha,fun _ => hbuf ▸ hf⟩
    · rw [hup,show ((batch c session).put n i o).center=n.center from rfl,pending_append,←hbuf]
      have hl : localBatches ((batch c session).put n i o)=localBatches n++[n.leaf i++[o]] := by
        simp [localBatches,Replica.put,batch,hf]
      rw [hl,if_pos rfl,←List.append_assoc]
      exact hp.append_right _
    · have hd : dispatched ((batch c session).put n i o)=dispatched n := by
        simp [dispatched,Replica.put,batch,hf]
      rw [hd]
      exact h.delivered
  · obtain ⟨j,hj,ha,hp⟩ := h.focus
    have hl : localBatches ((batch c session).put n i o)=localBatches n := by
      simp [localBatches,Replica.put,batch,hf]
    have hd : dispatched ((batch c session).put n i o)=dispatched n := by
      simp [dispatched,Replica.put,batch,hf]
    have hup : ((batch c session).put n i o).up i=n.up i++[(o,false)] := by
      simp [Replica.put,batch,hf]
    refine ⟨⟨j,?_,?_,?_⟩,hd ▸ h.delivered⟩
    · intro k hk
      by_cases hki : k=i
      · subst hki
        rw [hup]
        intro e he
        rcases List.mem_append.mp he with he|he
        · exact hj k hk e he
        · rw [List.mem_singleton.mp he]
      · simpa only [Replica.put,Function.update_of_ne hki] using hj k hk
    · by_cases hji : j=i
      · subst hji
        rw [hup]
        exact aligned_append.mpr ⟨ha,fun he => absurd he Bool.false_ne_true⟩
      · simpa only [Replica.put,Function.update_of_ne hji] using ha
    · rw [hl]
      by_cases hji : j=i
      · subst hji
        rw [hup,show ((batch c session).put n j o).center=n.center from rfl,pending_append,
          show ((batch c session).put n j o).skipped=n.skipped from rfl]
        simpa using hp
      · simpa only [Replica.put,Function.update_of_ne hji] using hp

omit [DecidableEq ι] in
/-- An object goes into a batch that it closes or into the buffer. -/
theorem arrive_account (buffer : List ω) (o : ω) : (↑buffer+↑[o] : Multiset ω)=
    ↑((batch c session).arrive buffer o).2.flatten+↑((batch c session).arrive buffer o).1 := by
  rw [Multiset.coe_add,batch]
  by_cases hf : c≤buffer.length+1
  · simp [next,hf]
  · simp [next,hf]

theorem inv_deliver (h : Inv c n) {mark : Bool} {rest : List (ω×Bool)} (hu : n.up i=(o,mark)::rest)
    (hg : Guard c n (.deliver i)) : Inv c ((batch c session).deliver n i o mark rest) := by
  obtain ⟨ha,hp⟩ := h.focus_at hg
  rw [hu] at ha hp
  have haccount := @arrive_account _ _ c session n.center o
  generalize hm : (batch c session).deliver n i o mark rest=m
  have hcenter : m.center=((batch c session).arrive n.center o).1 := hm ▸ rfl
  have hup : m.up i=rest := by
    subst hm
    simp [Replica.deliver]
  have hothers : ∀ k,k≠i → Unmarked (m.up k) := by
    intro k hk
    subst hm
    simpa only [Replica.deliver,Function.update_of_ne hk] using hg k hk
  have hobj : (objects m.delivered : Multiset ω)=↑(objects n.delivered)+↑[o] := by
    subst hm
    simp only [objects,Replica.deliver,List.map_append,←Multiset.coe_add]
    rfl
  have haligned : Aligned c m.center (m.up i) := by
    rw [hcenter,hup]
    exact ha.2
  cases mark with
  | true =>
    have hlocal : localBatches m=localBatches n := hm ▸ rfl
    have hskip : m.skipped=n.skipped++((batch c session).arrive n.center o).2 := hm ▸ rfl
    have hdis : dispatched m=dispatched n := hm ▸ rfl
    refine ⟨⟨i,hothers,haligned,?_⟩,?_⟩
    · rw [hlocal,hskip,hcenter,hup,List.append_assoc]
      simpa [batch,ha.1 rfl,pending] using hp
    · rw [hobj,h.delivered,hskip,hdis,hcenter,List.flatten_append,←Multiset.coe_add,add_assoc,
        haccount]
      abel
  | false =>
    have hlocal : localBatches m=localBatches n := by
      subst hm
      simp [localBatches,Replica.deliver]
    have hskip : m.skipped=n.skipped := hm ▸ rfl
    have hdis : dispatched m=dispatched n++((batch c session).arrive n.center o).2 := by
      subst hm
      by_cases hf : c≤n.center.length+1 <;> simp [dispatched,Replica.deliver,batch,hf]
    refine ⟨⟨i,hothers,haligned,?_⟩,?_⟩
    · rw [hlocal,hskip,hcenter,hup]
      simpa [batch,pending] using hp
    · rw [hobj,h.delivered,hskip,hdis,hcenter,List.flatten_append,←Multiset.coe_add,add_assoc,
        haccount]
      abel

/-- Under the accounting no object is fired more often than it was put. -/
theorem Inv.firedObjects_le [DecidableEq ω] (h : Inv c n) (hf : Replica.Fifo n) :
    (firedObjects n : Multiset ω)≤↑(objects n.sent) := by
  obtain ⟨j,-,ha,hp⟩ := h.focus
  have hlocal : ((localBatches n).flatten : Multiset ω)=
      ↑n.skipped.flatten+↑(pending c n.center (n.up j)).flatten := by
    rw [Multiset.coe_add,Multiset.coe_eq_coe,←List.flatten_append]
    exact hp.flatten
  have hsent : (↑(objects n.delivered)+↑((n.up j).map Prod.fst) : Multiset ω)≤↑(objects n.sent) := by
    have hs := Multiset.map_le_map (f:=fun e => e.2.1)
      (Multiset.coe_le.mpr (delivered_append_up_subperm hf j))
    rw [Multiset.map_coe,Multiset.map_coe,List.map_append,←Multiset.coe_add,List.map_map] at hs
    exact hs
  calc (firedObjects n : Multiset ω)
      =↑n.skipped.flatten+↑(dispatched n).flatten+↑(pending c n.center (n.up j)).flatten := by
        rw [firedObjects_eq,hlocal]
        abel
    _≤↑n.skipped.flatten+↑(dispatched n).flatten+(↑n.center+↑((n.up j).map Prod.fst)) :=
        add_le_add_right (pending_le ha) _
    _=↑(objects n.delivered)+↑((n.up j).map Prod.fst) := by
        rw [h.delivered]
        abel
    _≤↑(objects n.sent) := hsent

/-- When nothing is under way, every object was fired once or is in the
center's buffer. -/
theorem Inv.firedObjects_quiescent [DecidableEq ω] (h : Inv c n) (hf : Replica.Fifo n)
    (hq : ∀ i,n.up i=[]) : (↑(firedObjects n)+↑n.center : Multiset ω)=↑(objects n.sent) := by
  obtain ⟨j,-,-,hp⟩ := h.focus
  rw [hq j,pending,List.append_nil] at hp
  have hlocal : ((localBatches n).flatten : Multiset ω)=↑n.skipped.flatten :=
    Multiset.coe_eq_coe.mpr hp.flatten
  have hsent : (objects n.delivered : Multiset ω)=↑(objects n.sent) :=
    Multiset.coe_eq_coe.mpr ((delivered_perm_sent hf hq).map _)
  rw [firedObjects_eq,hlocal,←hsent,h.delivered]

/-- Batches of size one are fired where they are put; no buffer ever fills. -/
structure Single (n : Net ι (List ω) ω (List ω) ς) : Prop where
  leaf : ∀ i,n.leaf i=[]
  center : n.center=[]
  marked : ∀ i,∀ e∈n.up i,e.2=true
  /-- Every put has fired its object. -/
  fired : n.fired.map Prod.snd=(objects n.sent).map fun o => [o]

/-- Every step keeps this, without any guard. -/
theorem single_step {e : Event ι ω} (h : Single n) (hs : (batch 1 session).step n e=some m) :
    Single m := by
  obtain ⟨i,o,-,rfl⟩|⟨i,o,mark,rest,-,hu,rfl⟩|⟨i,s,rest,-,-,rfl⟩ := (batch 1 session).step_cases hs
  · refine ⟨?_,h.center,?_,?_⟩
    · intro j
      by_cases hj : j=i
      · subst hj
        simp [Replica.put,batch,next]
      · simpa [Replica.put,hj] using h.leaf j
    · intro j e he
      by_cases hj : j=i
      · subst hj
        simp only [Replica.put,Function.update_self,List.mem_append,List.mem_singleton] at he
        rcases he with he|rfl
        · exact h.marked j e he
        · simp [batch]
      · simp only [Replica.put,Function.update_of_ne hj] at he
        exact h.marked j e he
    · simp [Replica.put,batch,objects,h.fired,h.leaf]
  · have hmark : mark=true := h.marked i (o,mark) (hu ▸ List.mem_cons_self)
    subst hmark
    refine ⟨h.leaf,?_,?_,h.fired⟩
    · simp [Replica.deliver,batch,next]
    · intro j e he
      by_cases hj : j=i
      · subst hj
        simp only [Replica.deliver,Function.update_self] at he
        exact h.marked j e (hu ▸ List.mem_cons_of_mem _ he)
      · simp only [Replica.deliver,Function.update_of_ne hj] at he
        exact h.marked j e he
  · refine ⟨?_,h.center,h.marked,h.fired⟩
    intro j
    by_cases hj : j=i
    · subst hj
      simp [Replica.recvClear,batch]
    · simpa [Replica.recvClear,hj] using h.leaf j

/-- In every run of batches of size one, the fired objects are the put ones. -/
theorem single_run {l : List (Event ι ω)} (hr : run (batch 1 session).step (Net.start []) l=some n) :
    firedObjects n=objects n.sent ∧ n.center=[] := by
  have h : Single n := run_invariant (fun _ _ _ => single_step)
    ⟨fun _ => rfl,rfl,fun _ _ he => absurd he List.not_mem_nil,rfl⟩ hr
  refine ⟨?_,h.center⟩
  rw [firedObjects,h.fired]
  simp [←List.flatMap_def]

end Pheromone.BatchReplicas
