import Mathlib.Data.List.SplitLengths
import Mathlib.Algebra.BigOperators.Ring.Finset

/-!
# Dealing units to slots of limited capacity

Units are dealt in turns around a circle of slots, and full slots are passed
over. A sequence cut at the loads gives every slot its part, in order.
-/

namespace Pheromone.CappedRoundRobin

/-- Spare capacity and load of every slot, and whose turn it is. -/
structure Table where
  /-- Spare capacity of every slot. -/
  spare : List ℤ
  /-- Units dealt to every slot. -/
  loads : List ℕ
  /-- Slot at which the next search begins. -/
  turn : ℕ
  deriving DecidableEq

/-- The table before the first unit. -/
def Table.start (caps : List ℤ) : Table := ⟨caps,List.replicate caps.length 0,0⟩

/-- Go around the circle to a slot with spare capacity, visiting at most as
many slots as the first argument says. -/
def seek (spare : List ℤ) : ℕ → ℕ → Option ℕ
  | 0,_ => none
  | visits+1,i => do
    let s ← spare[i]?
    if s≤0 then seek spare visits ((i+1)%spare.length) else some i

/-- Deal one unit. -/
def dealOne (t : Table) : Option Table := do
  let i ← seek t.spare t.spare.length t.turn
  some ⟨t.spare.modify i (·-1),t.loads.modify i (·+1),(i+1)%t.spare.length⟩

/-- Deal a number of units. -/
def deal : ℕ → Table → Option Table
  | 0,t => some t
  | units+1,t => (dealOne t).bind (deal units)

variable {spare : List ℤ} {i : ℕ}

/-- A search that has a slot with spare capacity in reach finds one. -/
theorem seek_reaches {visits d : ℕ} (hi : i<spare.length) (hd : d<visits)
    (hs : ∃ s,spare[(i+d)%spare.length]?=some s ∧ 0<s) :
    ∃ j s,seek spare visits i=some j ∧ spare[j]?=some s ∧ 0<s := by
  induction visits generalizing i d with
  | zero => omega
  | succ visits ih =>
    have hget : spare[i]?=some spare[i] := List.getElem?_eq_getElem hi
    by_cases hp : spare[i]≤0
    · cases d with
      | zero =>
        obtain ⟨s,he,h0⟩ := hs
        rw [Nat.add_zero,Nat.mod_eq_of_lt hi,hget,Option.some.injEq] at he
        omega
      | succ d =>
        have hn : (i+1)%spare.length<spare.length := Nat.mod_lt _ (by omega)
        have hstep : ∃ s,spare[((i+1)%spare.length+d)%spare.length]?=some s ∧ 0<s := by
          rw [Nat.mod_add_mod,Nat.add_right_comm]
          exact hs
        obtain ⟨j,s,hj,hrest⟩ := ih hn (by omega) hstep
        refine ⟨j,s,?_,hrest⟩
        rw [seek,hget]
        simpa [hp] using hj
    · refine ⟨i,spare[i],?_,hget,by omega⟩
      rw [seek,hget]
      simp [hp]

/-- One turn around the circle suffices. -/
theorem seek_isSome (hi : i<spare.length) (hs : ∃ s∈spare,0<s) :
    ∃ j s,seek spare spare.length i=some j ∧ spare[j]?=some s ∧ 0<s := by
  obtain ⟨s,hm,h0⟩ := hs
  obtain ⟨j,hj,he⟩ := List.getElem_of_mem hm
  have hd : (j+spare.length-i)%spare.length<spare.length := Nat.mod_lt _ (by omega)
  refine seek_reaches hi hd ⟨s,?_,h0⟩
  have hback : (i+(j+spare.length-i)%spare.length)%spare.length=j := by
    rw [Nat.add_mod_mod,show i+(j+spare.length-i)=j+spare.length by omega,Nat.add_mod_right,
      Nat.mod_eq_of_lt hj]
  rw [hback,List.getElem?_eq_getElem hj,he]

/-- The search stays where it begins if there is spare capacity. -/
theorem seek_here {s : ℤ} (hs : spare[i]?=some s) (h0 : 0<s) :
    seek spare spare.length i=some i := by
  have hi : i<spare.length := (List.getElem?_eq_some_iff.mp hs).1
  obtain ⟨n,hn⟩ : ∃ n,spare.length=n+1 := ⟨spare.length-1,by omega⟩
  rw [hn,seek,hs]
  simp [show ¬s≤0 by omega]

/-- What holds after dealing a number of units. -/
structure Dealt (caps : List ℤ) (units : ℕ) (t : Table) : Prop where
  /-- One spare capacity per slot. -/
  spare_length : t.spare.length=caps.length
  loads_length : t.loads.length=caps.length
  /-- The turn is at a slot. -/
  turn_lt : t.turn<caps.length
  /-- Load and spare capacity make up the capacity. -/
  balance : ∀ (i : ℕ) (c : ℤ),caps[i]?=some c →
    ∃ (s : ℤ) (l : ℕ),t.spare[i]?=some s ∧ t.loads[i]?=some l ∧ 0≤ s ∧ s+l=c
  /-- The loads add up to the units. -/
  total : t.loads.sum=units
  /-- Every slot has a load, or exactly those before the turn have one. -/
  front : (∀ (i l : ℕ),t.loads[i]?=some l → 0<l) ∨
    ∀ (i l : ℕ),t.loads[i]?=some l → (0<l ↔ i<t.turn)

variable {caps : List ℤ}

theorem dealt_start (hne : caps≠[]) (hcaps : ∀ c∈caps,0<c) : Dealt caps 0 (Table.start caps) := by
  have hzero : ∀ (i l : ℕ),(List.replicate caps.length 0)[i]?=some l → l=0 := by
    intro i l h
    exact List.eq_of_mem_replicate (List.mem_of_getElem? h)
  refine ⟨rfl,List.length_replicate,List.length_pos_iff.mpr hne,?_,by simp [Table.start],Or.inr ?_⟩
  · intro i c hc
    have hi : i<caps.length := (List.getElem?_eq_some_iff.mp hc).1
    have h0 : 0<c := hcaps c (List.mem_of_getElem? hc)
    refine ⟨c,0,hc,?_,h0.le,by simp⟩
    simp [Table.start,hi]
  · intro i l hl
    rw [hzero i l hl]
    simp [Table.start]

/-- Adding one at a position adds one to the sum. -/
theorem sum_modify_succ {l : List ℕ} (hi : i<l.length) : (l.modify i (·+1)).sum=l.sum+1 := by
  induction l generalizing i with
  | nil => simp at hi
  | cons a l ih =>
    cases i with
    | zero =>
      simp only [List.modify_zero_cons,List.sum_cons]
      omega
    | succ i =>
      have hl := ih (i:=i) (by simpa using hi)
      simp only [List.modify_succ_cons,List.sum_cons,hl]
      omega

variable {units : ℕ} {t : Table}

/-- Capacity that is not used up leaves a slot with spare capacity. -/
theorem Dealt.exists_spare (h : Dealt caps units t) (hu : (units : ℤ)<caps.sum) :
    ∃ s∈t.spare,0<s := by
  by_contra hno
  have hle : ∀ s∈t.spare,s≤0 := by
    intro s hs
    by_contra h0
    exact hno ⟨s,hs,by omega⟩
  have hsum : caps=t.loads.map (Nat.cast : ℕ → ℤ) := by
    apply List.ext_getElem?
    intro i
    rw [List.getElem?_map]
    cases hc : caps[i]? with
    | none =>
      have hlen : caps.length≤ i := List.getElem?_eq_none_iff.mp hc
      rw [List.getElem?_eq_none (by rw [h.loads_length]; exact hlen)]
      rfl
    | some c =>
      obtain ⟨s,l,hs,hl,h0,he⟩ := h.balance i c hc
      have hs0 := hle s (List.mem_of_getElem? hs)
      rw [hl,Option.map_some,Option.some.injEq]
      omega
  rw [hsum,←Nat.cast_list_sum,h.total] at hu
  omega

variable {j : ℕ}

/-- A load after adding one at a position. -/
theorem getElem?_modify_succ {loads : List ℕ} {l : ℕ} (hl : (loads.modify j (·+1))[i]?=some l) :
    (i=j ∧ 0<l) ∨ (i≠j ∧ loads[i]?=some l) := by
  rw [List.getElem?_modify] at hl
  by_cases hij : j=i
  · subst hij
    cases hq : loads[j]? with
    | none => simp [hq] at hl
    | some q =>
      simp only [hq,Option.map_eq_map,Option.map_some,if_true,Option.some.injEq] at hl
      exact Or.inl ⟨rfl,by omega⟩
  · simp only [if_neg hij,Option.map_eq_map,Option.map_id_fun',id] at hl
    exact Or.inr ⟨fun h => hij h.symm,hl⟩

/-- Until every slot has a load, the unit goes to the slot whose turn it is. -/
theorem Dealt.front_dealOne (hcaps : ∀ c∈caps,0<c) (h : Dealt caps units t)
    (hj : seek t.spare t.spare.length t.turn=some j) (hjl : j<caps.length) :
    (∀ (i l : ℕ),(t.loads.modify j (·+1))[i]?=some l → 0<l) ∨
    ∀ (i l : ℕ),(t.loads.modify j (·+1))[i]?=some l → (0<l ↔ i<(j+1)%t.spare.length) := by
  rcases h.front with hall|hfront
  · refine Or.inl fun i l hl => ?_
    rcases getElem?_modify_succ hl with ⟨-,hl0⟩|⟨-,hold⟩
    · exact hl0
    · exact hall i l hold
  · obtain ⟨c,hc⟩ : ∃ c,caps[t.turn]?=some c := ⟨_,List.getElem?_eq_getElem h.turn_lt⟩
    obtain ⟨s,l,hs,hl,-,he⟩ := h.balance t.turn c hc
    have hc0 : 0<c := hcaps c (List.mem_of_getElem? hc)
    have hl0 : ¬0<l := by
      rw [hfront t.turn l hl]
      omega
    have hjt : j=t.turn := Option.some.inj (hj.symm.trans (seek_here hs (by omega)))
    by_cases hlast : j+1<caps.length
    · refine Or.inr fun i l hl => ?_
      rw [h.spare_length,Nat.mod_eq_of_lt hlast]
      rcases getElem?_modify_succ hl with ⟨rfl,hlpos⟩|⟨hne,hold⟩
      · exact ⟨fun _ => by omega,fun _ => hlpos⟩
      · rw [hfront i l hold]
        omega
    · refine Or.inl fun i l hl => ?_
      rcases getElem?_modify_succ hl with ⟨-,hlpos⟩|⟨hne,hold⟩
      · exact hlpos
      · have hi : i<t.loads.length := (List.getElem?_eq_some_iff.mp hold).1
        rw [h.loads_length] at hi
        exact (hfront i l hold).mpr (by omega)

/-- One unit can be dealt while the capacity is not used up. -/
theorem dealt_dealOne (hcaps : ∀ c∈caps,0<c) (h : Dealt caps units t) (hu : (units : ℤ)<caps.sum) :
    ∃ t',dealOne t=some t' ∧ Dealt caps (units+1) t' := by
  have hturn : t.turn<t.spare.length := by rw [h.spare_length]; exact h.turn_lt
  obtain ⟨j,s,hj,hs,h0⟩ := seek_isSome hturn (h.exists_spare hu)
  have hjl : j<caps.length := by
    rw [←h.spare_length]
    exact (List.getElem?_eq_some_iff.mp hs).1
  have hpos : 0<caps.length := by omega
  refine ⟨_,by rw [dealOne,hj]; rfl,⟨?_,?_,?_,?_,?_,?_⟩⟩
  · rw [List.length_modify,h.spare_length]
  · rw [List.length_modify,h.loads_length]
  · rw [h.spare_length]
    exact Nat.mod_lt _ hpos
  · intro i c hc
    obtain ⟨s',l,hs',hl,h0',he⟩ := h.balance i c hc
    by_cases hij : j=i
    · subst hij
      have hss : s'=s := Option.some.inj (hs'.symm.trans hs)
      refine ⟨s'-1,l+1,by simp [hs'],by simp [hl],
        by omega,by push_cast; omega⟩
    · exact ⟨s',l,by simp [hij,hs'],by simp [hij,hl],h0',he⟩
  · rw [sum_modify_succ (by rw [h.loads_length]; exact hjl),h.total]
  · exact h.front_dealOne hcaps hj hjl

/-- All units can be dealt if the capacities suffice. -/
theorem dealt_deal (hcaps : ∀ c∈caps,0<c) {done : ℕ} (h : Dealt caps done t) (units : ℕ)
    (hu : ((done+units : ℕ) : ℤ)≤ caps.sum) :
    ∃ t',deal units t=some t' ∧ Dealt caps (done+units) t' := by
  induction units generalizing done t with
  | zero => exact ⟨t,rfl,h⟩
  | succ units ih =>
    obtain ⟨t',ht,hd⟩ := dealt_dealOne hcaps h (by push_cast at hu; omega)
    obtain ⟨t'',ht',hd'⟩ := ih hd (by push_cast at hu ⊢; omega)
    refine ⟨t'',?_,?_⟩
    · rw [deal,ht,Option.bind_some,ht']
    · rw [show done+(units+1)=done+1+units by omega]
      exact hd'

/-- The slots without load are the last ones. -/
theorem Dealt.loads_eq (h : Dealt caps units t) :
    ∃ parts zeros,t.loads=parts++List.replicate zeros 0 ∧ ∀ p∈parts,0<p := by
  rcases h.front with hall|hfront
  · refine ⟨t.loads,0,by simp,fun p hp => ?_⟩
    obtain ⟨i,hi,he⟩ := List.getElem_of_mem hp
    exact hall i p (by rw [List.getElem?_eq_getElem hi,he])
  · refine ⟨t.loads.take t.turn,t.loads.length-t.turn,?_,fun p hp => ?_⟩
    · have hzero : t.loads.drop t.turn=List.replicate (t.loads.length-t.turn) 0 := by
        rw [List.eq_replicate_iff]
        refine ⟨List.length_drop,fun p hp => ?_⟩
        obtain ⟨i,hi,he⟩ := List.getElem_of_mem hp
        have hget : t.loads[t.turn+i]?=some p := by
          rw [←List.getElem?_drop,List.getElem?_eq_getElem hi,he]
        have := hfront _ p hget
        omega
      rw [←hzero,List.take_append_drop]
    · obtain ⟨i,hi,he⟩ := List.getElem_of_mem hp
      have hlt : i<t.turn := by
        rw [List.length_take] at hi
        omega
      have hget : t.loads[i]?=some p := by
        rw [←List.getElem?_take_of_lt hlt,List.getElem?_eq_getElem hi,he]
      exact (hfront i p hget).mpr hlt

section Cut

variable {α : Type}

/-- Collect items one at a time; the collection is closed when it has the
load of the current slot. Returns the closed collections and what is left. -/
def cut (loads : List ℕ) : ℕ → List α → List α → Option (List (List α)×List α)
  | _,held,[] => some ([],held)
  | i,held,a::rest => do
    let load ← loads[i]?
    if (held++[a]).length=load then
      let r ← cut loads (i+1) [] rest
      some ((held++[a])::r.1,r.2)
    else cut loads i (held++[a]) rest

/-- Items as many as the loads are cut into parts of these lengths. -/
theorem cut_eq {loads parts : List ℕ} {zeros i : ℕ} (hl : loads.drop i=parts++List.replicate zeros 0)
    (hp : ∀ p∈parts,0<p) (held items : List α) (hh : ∀ p∈parts.head?,held.length<p)
    (hs : held.length+items.length=parts.sum) :
    cut loads i held items=some (parts.splitLengths (held++items),[]) := by
  induction items generalizing i held parts with
  | nil =>
    cases parts with
    | nil =>
      have h0 : held=[] := List.length_eq_zero_iff.mp (by simpa using hs)
      subst h0
      rfl
    | cons p parts =>
      have hlt := hh p rfl
      rw [List.sum_cons,List.length_nil] at hs
      omega
  | cons a items ih =>
    cases parts with
    | nil => simp at hs
    | cons p parts =>
      have hlt : held.length<p := hh p rfl
      have hget : loads[i]?=some p := by
        have h0 : (loads.drop i)[0]?=some p := by rw [hl]; rfl
        rwa [List.getElem?_drop,Nat.add_zero] at h0
      have hdrop : loads.drop (i+1)=parts++List.replicate zeros 0 := by
        rw [←List.drop_drop,hl]
        rfl
      have hsum : held.length+(items.length+1)=p+parts.sum := by
        rw [List.sum_cons,List.length_cons] at hs
        exact hs
      have hparts : ∀ q∈parts,0<q := fun q hq => hp q (List.mem_cons_of_mem _ hq)
      rw [cut,hget]
      by_cases hfull : (held++[a]).length=p
      · have hlen : held.length+1=p := by simpa using hfull
        have hrest := ih hdrop hparts [] (fun q hq => hparts q (List.mem_of_mem_head? hq))
          (by rw [List.length_nil]; omega)
        have hsplit : held++a::items=(held++[a])++items := by simp
        rw [List.splitLengths_cons,hsplit,List.take_left' hfull,List.drop_left' hfull]
        simp [hlen,hrest]
      · have hmore := ih hl hp (held++[a]) (fun q hq => by
            have hq' : q=p := by simpa using hq.symm
            rw [List.length_append,List.length_singleton] at hfull ⊢
            omega) (by rw [List.length_append,List.length_singleton,List.sum_cons]; omega)
        have hlen : held.length+1≠p := by simpa using hfull
        simp only [List.append_assoc,List.singleton_append] at hmore
        simp [hlen,hmore]

end Cut

end Pheromone.CappedRoundRobin
