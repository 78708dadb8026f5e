import Pheromone.ReactiveMachines
import Pheromone.RedundantReplication

/-!
# Rounds of a redundant trigger

A redundant trigger acts on the first k of every n objects. If k is n, the
first object of the next round is lost for it.
-/

namespace Pheromone.RedundantRounds

open ReactiveMachines CommonNames TriggerPrimitives RedundantReplication

/-- The trigger as it is built. -/
def initial (k n : UInt32) : RedundantTrigger := ⟨k,n,0,[]⟩

/-- What an action takes of an object. -/
def sessionKey (bk : BucketKey) : Session×Key := (bk.session,bk.key)

/-- The i-th of the consecutive blocks of n. -/
def block {α : Type*} (n i : ℕ) (l : List α) : List α := (l.drop (i*n)).take n

/-- What a trigger does on a sequence of objects, block by block. -/
structure Rounds (target : Str) (k n : UInt32) (l : List BucketKey) : Prop where
  /-- The k-th object of a block fires with the first k of it, the others produce nothing. -/
  actions : ∀ i j,(i+1)*n.toNat≤l.length → j<n.toNat →
    (outputs (RedundantTrigger.actionForNewObject target) (initial k n) l)[i*n.toNat+j]?=
      some (if j+1=k.toNat then
        [⟨target,((block n.toNat i l).take k.toNat).map sessionKey⟩] else [])
  /-- After a block the trigger is as it was built. -/
  refreshed : ∀ i,(i+1)*n.toNat≤l.length →
    after (RedundantTrigger.actionForNewObject target) (initial k n) (l.take ((i+1)*n.toNat))=
      initial k n

/-- An arrival is one at the collector of session keys. -/
theorem actionForNewObject_eq (target : Str) (t : RedundantTrigger) (bk : BucketKey) :
    t.actionForNewObject target bk=((redundant.arrive t (sessionKey bk)).1,
      (redundant.arrive t (sessionKey bk)).2.map fun objs => ⟨target,objs⟩) := by
  simp only [redundant,sessionKey,RedundantTrigger.actionForNewObject]
  split
  · split <;> rfl
  · split <;> rfl

theorem initial_eq_roundState (k n : UInt32) : initial k n=roundState k n [] := by
  unfold initial roundState
  rw [ite_self]
  rfl

section Rounds

variable {k n : UInt32} (target : Str)

/-- The objects after the last complete block. -/
def openRound (n : ℕ) (l : List BucketKey) : List (Session×Key) :=
  (l.drop (l.length/n*n)).map sessionKey

theorem length_openRound (n : ℕ) (l : List BucketKey) : (openRound n l).length=l.length%n := by
  have hdiv := Nat.div_add_mod' l.length n
  rw [openRound,List.length_map,List.length_drop]
  omega

theorem openRound_concat {n : ℕ} (hn : 0<n) (l : List BucketKey) (bk : BucketKey) :
    openRound n (l++[bk])=
      if (openRound n l).length+1=n then [] else openRound n l++[sessionKey bk] := by
  have hdiv := Nat.div_add_mod' l.length n
  have hmod := Nat.mod_lt l.length hn
  rw [length_openRound]
  unfold openRound
  rw [List.length_append,List.length_singleton]
  split
  · rename_i hfull
    have hnext : (l.length+1)/n*n=l.length+1 := by
      refine Nat.div_mul_cancel ⟨l.length/n+1,?_⟩
      rw [Nat.mul_add,Nat.mul_comm,Nat.mul_one]
      omega
    rw [hnext,List.drop_of_length_le (by simp),List.map_nil]
  · rename_i hopen
    have hsame : (l.length+1)/n=l.length/n := by
      refine Nat.div_eq_of_lt_le (by omega) ?_
      rw [Nat.add_mul,Nat.one_mul]
      omega
    rw [hsame,List.drop_append_of_le_length (by omega),List.map_append]
    rfl

theorem after_eq_roundState (hkn : k<n) (l : List BucketKey) :
    after (RedundantTrigger.actionForNewObject target) (initial k n) l=
      roundState k n (openRound n.toNat l) := by
  have hn : 0<n.toNat := Nat.zero_lt_of_lt (show k.toNat<n.toNat from hkn)
  induction l using List.reverseRecOn with
  | nil =>
    rw [initial_eq_roundState,openRound,List.drop_nil]
    rfl
  | append_singleton l bk ih =>
    have hlen : (openRound n.toNat l).length<n.toNat := by
      rw [length_openRound]
      exact Nat.mod_lt _ hn
    rw [after_concat,ih,openRound_concat hn,actionForNewObject_eq,arrive_roundState hkn hlen]

/-- The open round before the object at a place of a complete block. -/
theorem openRound_take {n i j : ℕ} {l : List BucketKey} (hi : (i+1)*n≤l.length) (hj : j<n) :
    openRound n (l.take (i*n+j))=((block n i l).take j).map sessionKey := by
  rw [Nat.add_mul,Nat.one_mul] at hi
  have hlen : (l.take (i*n+j)).length=i*n+j := by
    rw [List.length_take]
    omega
  have hquot : (i*n+j)/n=i := by
    refine Nat.div_eq_of_lt_le (by omega) ?_
    rw [Nat.add_mul,Nat.one_mul]
    omega
  rw [openRound,hlen,hquot,block,List.drop_take,List.take_take,Nat.min_eq_left hj.le]
  congr 2
  omega

theorem rounds_of_lt (hkn : k<n) (l : List BucketKey) : Rounds target k n l := by
  have hkn' : k.toNat<n.toNat := hkn
  refine ⟨fun i j hi hj => ?_,fun i hi => ?_⟩
  · have hlength : i*n.toNat+j<l.length := by
      rw [Nat.add_mul,Nat.one_mul] at hi
      omega
    have hblock : (block n.toNat i l)[j]?=some l[i*n.toNat+j] := by
      rw [block,List.getElem?_take_of_lt hj,List.getElem?_drop,List.getElem?_eq_getElem hlength]
    have hround : (openRound n.toNat (l.take (i*n.toNat+j))).length=j := by
      rw [openRound_take hi hj,List.length_map,List.length_take,block,List.length_take,
        List.length_drop]
      rw [Nat.add_mul,Nat.one_mul] at hi
      omega
    rw [getElem?_outputs,List.getElem?_eq_getElem hlength,Option.map_some,
      after_eq_roundState target hkn,actionForNewObject_eq,arrive_roundState hkn (by omega),hround]
    by_cases hk : j+1=k.toNat
    · rw [if_pos hk,if_pos hk,openRound_take hi hj,←hk,List.take_add_one,hblock,List.map_append]
      rfl
    · rw [if_neg hk,if_neg hk]
      rfl
  · have hlength : (l.take ((i+1)*n.toNat)).length=(i+1)*n.toNat := by
      rw [List.length_take]
      omega
    rw [after_eq_roundState target hkn,openRound,hlength,
      Nat.mul_div_cancel _ (Nat.zero_lt_of_lt hkn'),List.drop_of_length_le hlength.le,
      initial_eq_roundState]
    rfl

theorem count_after (target : Str) (k n : UInt32) {l : List BucketKey} (hl : l.length≤k.toNat) :
    (after (RedundantTrigger.actionForNewObject target) (initial k n) l).k=k ∧
      (after (RedundantTrigger.actionForNewObject target) (initial k n) l).count.toNat=l.length := by
  induction l using List.reverseRecOn with
  | nil => exact ⟨rfl,rfl⟩
  | append_singleton l bk ih =>
    rw [List.length_append,List.length_singleton] at hl ⊢
    obtain ⟨hk,hcount⟩ := ih (by omega)
    rw [after_concat]
    generalize after _ (initial k n) l=t at hk hcount
    have hsucc : (t.count+1).toNat=l.length+1 := by
      have hbound := k.toNat_lt
      have hone : (1 : UInt32).toNat=1 := rfl
      rw [UInt32.toNat_add,hcount]
      omega
    have hle : t.count+1≤t.k := by
      rw [UInt32.le_iff_toNat_le,hsucc,hk]
      exact hl
    simp only [RedundantTrigger.actionForNewObject,if_pos hle]
    split <;> exact ⟨hk,hsucc⟩

/-- With k equal to n the first complete block does not bring the trigger back. -/
theorem not_rounds_self (hk : 1≤k) {l : List BucketKey} (hl : k.toNat≤l.length) :
    ¬Rounds target k k l := by
  intro h
  have hrefreshed := h.refreshed 0 (by omega)
  have hlength : (l.take ((0+1)*k.toNat)).length=k.toNat := by
    rw [List.length_take]
    omega
  have hcount := (count_after target k k hlength.le).2
  rw [hrefreshed,hlength] at hcount
  have hpos : 1≤k.toNat := hk
  have hzero : (initial k k).count.toNat=0 := rfl
  omega

/-- The blocks of n objects are the rounds of the trigger exactly if k is less
than n or no block is complete. -/
theorem rounds_iff (hk : 1≤k) (hkn : k≤n) (l : List BucketKey) :
    Rounds target k n l ↔ k<n ∨ l.length<n.toNat := by
  have hkn' : k.toNat≤n.toNat := hkn
  refine ⟨fun h => ?_,fun h => ?_⟩
  · by_contra hc
    have hself : n=k := by
      apply UInt32.toNat_inj.mp
      have hnot : ¬k.toNat<n.toNat := fun hlt => hc (Or.inl hlt)
      omega
    subst hself
    exact not_rounds_self target hk (not_lt.mp fun hlt => hc (Or.inr hlt)) h
  · rcases h with h|h
    · exact rounds_of_lt target h l
    · have hfew : ∀ i,¬(i+1)*n.toNat≤l.length := by
        intro i hi
        rw [Nat.add_mul,Nat.one_mul] at hi
        omega
      exact ⟨fun i _ hi _ => absurd hi (hfew i),fun i hi => absurd hi (hfew i)⟩

end Rounds

/-- Objects of one session. -/
def objects (keys : List String) : List BucketKey := keys.map fun key => ⟨str "b",str key,str "s"⟩

theorem rounds_two_of_three :
    Rounds (str "h") 2 3 (objects ["a","b","c","d","e","f","g"]) :=
  (rounds_iff (str "h") (by decide) (by decide) _).mpr (Or.inl (by decide))

/-- With two of two the first object of the second block is dropped, and its
second waits for the third block. -/
theorem rounds_two_of_two_shift :
    outputs (RedundantTrigger.actionForNewObject (str "h")) (initial 2 2)
      (objects ["a","b","c","d","e","f"])=
    [[],[⟨str "h",[(str "s",str "a"),(str "s",str "b")]⟩],[],[],
      [⟨str "h",[(str "s",str "d"),(str "s",str "e")]⟩],[]] := by
  decide +kernel

end Pheromone.RedundantRounds
