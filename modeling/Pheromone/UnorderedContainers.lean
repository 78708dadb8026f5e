import Mathlib.Data.List.Perm.Subperm
import Mathlib.Data.List.Nodup
import Mathlib.Algebra.BigOperators.Group.List.Basic
import Mathlib.Tactic.Abel

/-!
# Unordered sets and maps with an explicit iteration order

Hash containers are lists without repetition in the order of insertion; an
assignment keeps its place. Loops take them in this order, the library may
take another: the arguments of a join's call and the actions of a dynamic
group stand in it. Where an iteration starts can be a parameter instead.
-/

namespace Pheromone.UnorderedContainers

/-- A set as the list of its elements in iteration order. -/
structure USet (α : Type*) where
  /-- The elements, in iteration order. -/
  elems : List α
  /-- No element is stored twice. -/
  nodup : elems.Nodup
  deriving DecidableEq

namespace USet

variable {α : Type*}

instance : Membership α (USet α) := ⟨fun s a => a∈s.elems⟩

variable {s : USet α} {a : α}

theorem mem_def : a∈s ↔ a∈s.elems := Iff.rfl

/-- The element an iteration starts at, whatever place it has in the list. -/
def first (place : List α → ℕ) (s : USet α) : Option α := s.elems[place s.elems%s.elems.length]?

variable {place : List α → ℕ}

theorem mem_of_first (h : s.first place=some a) : a∈s := List.mem_of_getElem? h

theorem exists_first (h : s.elems≠[]) : ∃ a∈s,s.first place=some a := by
  have hlt := Nat.mod_lt (place s.elems) (List.length_pos_iff.mpr h)
  exact ⟨_,List.getElem_mem hlt,List.getElem?_eq_getElem hlt⟩

/-- The empty set. -/
def empty : USet α := ⟨[],List.nodup_nil⟩

instance : EmptyCollection (USet α) := ⟨empty⟩
instance : Inhabited (USet α) := ⟨∅⟩

/-- Number of elements. -/
def size (s : USet α) : ℕ := s.elems.length

@[simp] theorem not_mem_empty (a : α) : ¬a∈(∅ : USet α) := List.not_mem_nil

@[simp] theorem size_empty : (∅ : USet α).size=0 := rfl

variable {t : USet α}

/-- A set inside another one of no larger size has the same elements. -/
theorem mem_of_subset_of_size_le (hs : ∀ a∈s,a∈t) (hl : t.size≤ s.size) (ha : a∈t) : a∈s := by
  have hp : s.elems.Subperm t.elems := s.nodup.subperm hs
  exact (hp.perm_of_length_le hl).mem_iff.mpr ha

/-- Two sets with the same elements are permutations of each other. -/
theorem perm_of_mem_iff (h : ∀ a,a∈s ↔ a∈t) : s.elems.Perm t.elems :=
  (List.perm_ext_iff_of_nodup s.nodup t.nodup).mpr h

/-- Equal elements give equal sizes. -/
theorem size_eq_of_mem_iff (h : ∀ a,a∈s ↔ a∈t) : s.size=t.size :=
  (perm_of_mem_iff h).length_eq

/-- A part of a set has its size exactly if it is the whole set. -/
theorem size_eq_iff_of_subset (h : ∀ a∈s,a∈t) : s.size=t.size ↔ ∀ a∈t,a∈s := by
  constructor
  · intro he a ha
    exact mem_of_subset_of_size_le h he.ge ha
  · intro ha
    exact size_eq_of_mem_iff fun a => ⟨h a,ha a⟩

variable [DecidableEq α]

instance (a : α) (s : USet α) : Decidable (a∈s) := inferInstanceAs (Decidable (a∈s.elems))

/-- Insertion; a present element keeps its place. -/
def insert (a : α) (s : USet α) : USet α :=
  if h : a∈s.elems then s
  else ⟨s.elems++[a],List.nodup_append.mpr ⟨s.nodup,List.nodup_singleton a,by
    intro x hx y hy he
    rw [List.mem_singleton.mp hy] at he
    exact h (he ▸ hx)⟩⟩

/-- Removal of one element. -/
def erase (a : α) (s : USet α) : USet α := ⟨s.elems.erase a,s.nodup.erase a⟩

/-- Insert the elements of a list one after the other. -/
def ofList (l : List α) : USet α := l.foldl (fun s a => s.insert a) ∅

variable {b : α}

@[simp] theorem mem_insert : b∈s.insert a ↔ b=a ∨ b∈s := by
  unfold insert
  split
  · rename_i h
    constructor
    · exact Or.inr
    · rintro (rfl|hb)
      · exact h
      · exact hb
  · simp only [mem_def,List.mem_append,List.mem_singleton]
    exact or_comm

@[simp] theorem mem_erase : b∈s.erase a ↔ b≠a ∧ b∈s :=
  s.nodup.mem_erase_iff

theorem erase_of_not_mem (h : ¬a∈s) : s.erase a=s := by
  have he : s.elems.erase a=s.elems := List.erase_of_not_mem h
  cases s
  simp only [erase,he]

theorem insert_of_mem (h : a∈s) : s.insert a=s := dif_pos h

theorem elems_insert_of_not_mem (h : ¬a∈s) : (s.insert a).elems=s.elems++[a] := by
  unfold insert
  rw [dif_neg (mem_def.not.mp h)]

theorem foldl_insert_mem (l : List α) (s : USet α) :
    b∈l.foldl (fun s a => s.insert a) s ↔ b∈s ∨ b∈l := by
  induction l generalizing s with
  | nil => simp
  | cons a l ih =>
    rw [List.foldl_cons,ih,mem_insert,List.mem_cons]
    tauto

@[simp] theorem mem_ofList {l : List α} : b∈ofList l ↔ b∈l := by
  rw [ofList,foldl_insert_mem]
  simp

theorem foldl_insert_elems (l : List α) (s : USet α) (hl : l.Nodup)
    (hd : ∀ a∈l,¬a∈s) : (l.foldl (fun s a => s.insert a) s).elems=s.elems++l := by
  induction l generalizing s with
  | nil => simp
  | cons a l ih =>
    obtain ⟨ha,hl⟩ := List.nodup_cons.mp hl
    have hs := elems_insert_of_not_mem (hd a List.mem_cons_self)
    rw [List.foldl_cons,ih _ hl,hs,List.append_assoc,List.singleton_append]
    intro b hb hm
    rcases mem_insert.mp hm with rfl|hm
    · exact ha hb
    · exact hd b (List.mem_cons_of_mem _ hb) hm

/-- Inserting the elements of a set in its own order rebuilds it. -/
@[simp] theorem ofList_elems (s : USet α) : ofList s.elems=s := by
  have h : (ofList s.elems).elems=s.elems :=
    foldl_insert_elems s.elems ∅ s.nodup (fun a _ => not_mem_empty a)
  cases ho : ofList s.elems with
  | mk l hl =>
    rw [ho] at h
    cases s
    simp only at h
    simp only [h]

/-- A list without repetition is collected as it is. -/
theorem elems_ofList {l : List α} (h : l.Nodup) : (ofList l).elems=l :=
  foldl_insert_elems l ∅ h fun a _ => not_mem_empty a

/-- One more element at the end of the list. -/
theorem ofList_concat (l : List α) (a : α) : ofList (l++[a])=(ofList l).insert a := by
  simp [ofList]

/-- Collecting renamed elements keeps their order. -/
theorem ofList_map_elems {β : Type*} [DecidableEq β] {f : α → β} (hf : Function.Injective f)
    (l : List α) : (ofList (l.map f)).elems=(ofList l).elems.map f := by
  have hfold : ∀ (s : USet α) (t : USet β),t.elems=s.elems.map f →
      ((l.map f).foldl (fun t b => t.insert b) t).elems=
        (l.foldl (fun s a => s.insert a) s).elems.map f := by
    induction l with
    | nil => exact fun _ _ h => h
    | cons a l ih =>
      intro s t h
      apply ih (s.insert a) (t.insert (f a))
      have hmem : f a∈t ↔ a∈s := by
        rw [mem_def,h,List.mem_map]
        exact ⟨fun ⟨b,hb,he⟩ => hf he ▸ hb,fun ha => ⟨a,ha,rfl⟩⟩
      by_cases ha : a∈s
      · rw [insert_of_mem ha,insert_of_mem (hmem.mpr ha),h]
      · rw [elems_insert_of_not_mem ha,elems_insert_of_not_mem fun hb => ha (hmem.mp hb),h,
          List.map_append]
        rfl
  exact hfold ∅ ∅ rfl

end USet

/-- A map as the list of its entries in iteration order. -/
structure UMap (κ ν : Type*) where
  /-- The key/value pairs, in iteration order. -/
  entries : List (κ×ν)
  /-- Every key has at most one entry. -/
  nodup : (entries.map Prod.fst).Nodup
  deriving DecidableEq

/-- Assignment on the entry list: in place for a present key, else at the end. -/
def setEntry {κ ν : Type*} [DecidableEq κ] (k : κ) (v : ν) : List (κ×ν) → List (κ×ν)
  | [] => [(k,v)]
  | e::l => if e.1=k then (k,v)::l else e::setEntry k v l

section SetEntry

variable {κ ν : Type*} [DecidableEq κ]

theorem setEntry_keys (k : κ) (v : ν) (l : List (κ×ν)) :
    (setEntry k v l).map Prod.fst=
      if k∈l.map Prod.fst then l.map Prod.fst else l.map Prod.fst++[k] := by
  induction l with
  | nil => simp [setEntry]
  | cons e l ih =>
    by_cases he : e.1=k
    · simp [setEntry,he]
    · rw [setEntry,if_neg he,List.map_cons,ih]
      have hk : (k∈(e::l).map Prod.fst) ↔ k∈l.map Prod.fst := by
        simp only [List.map_cons,List.mem_cons]
        exact or_iff_right (fun h => he h.symm)
      by_cases hm : k∈l.map Prod.fst
      · rw [if_pos hm,if_pos (hk.mpr hm),List.map_cons]
      · rw [if_neg hm,if_neg (fun h => hm (hk.mp h)),List.map_cons,List.cons_append]

variable {k : κ}

theorem lookup_cons_of_ne {e : κ×ν} (h : k≠e.1) (l : List (κ×ν)) : (e::l).lookup k=l.lookup k := by
  rw [List.lookup_cons,beq_eq_false_iff_ne.mpr h]

theorem lookup_cons_of_eq {e : κ×ν} (h : k=e.1) (l : List (κ×ν)) : (e::l).lookup k=some e.2 := by
  rw [List.lookup_cons,beq_iff_eq.mpr h]

theorem setEntry_lookup (k k' : κ) (v : ν) (l : List (κ×ν)) :
    (setEntry k v l).lookup k'=if k'=k then some v else l.lookup k' := by
  induction l with
  | nil =>
    by_cases hk : k'=k
    · rw [setEntry,lookup_cons_of_eq hk,if_pos hk]
    · rw [setEntry,lookup_cons_of_ne hk,if_neg hk]
  | cons e l ih =>
    by_cases he : e.1=k
    · rw [setEntry,if_pos he]
      by_cases hk : k'=k
      · rw [lookup_cons_of_eq hk,if_pos hk]
      · rw [lookup_cons_of_ne hk,if_neg hk,lookup_cons_of_ne (he ▸ hk)]
    · rw [setEntry,if_neg he]
      by_cases hk : k'=e.1
      · rw [lookup_cons_of_eq hk,lookup_cons_of_eq hk,if_neg (hk ▸ he)]
      · rw [lookup_cons_of_ne hk,lookup_cons_of_ne hk,ih]

theorem lookup_eq_some_of_mem {l : List (κ×ν)} (hn : (l.map Prod.fst).Nodup) {v : ν} (hm : (k,v)∈l) :
    l.lookup k=some v := by
  induction l with
  | nil => cases hm
  | cons e l ih =>
    obtain ⟨he,hn⟩ := List.nodup_cons.mp hn
    rcases List.mem_cons.mp hm with rfl|hm
    · exact lookup_cons_of_eq (e:=(k,v)) rfl l
    · have hk : k≠e.1 := fun h => he (List.mem_map.mpr ⟨(k,v),hm,h⟩)
      rw [lookup_cons_of_ne hk]
      exact ih hn hm

theorem mem_of_lookup_eq_some {l : List (κ×ν)} {v : ν} (h : l.lookup k=some v) : (k,v)∈l := by
  induction l with
  | nil => cases h
  | cons e l ih =>
    by_cases hk : k=e.1
    · rw [lookup_cons_of_eq hk,Option.some.injEq] at h
      rw [←h,hk]
      exact List.mem_cons_self
    · rw [lookup_cons_of_ne hk] at h
      exact List.mem_cons_of_mem _ (ih h)

/-- Replacing one present value changes a sum over the entries by the
difference of that value's terms. -/
theorem setEntry_sum {M : Type*} [AddCommMonoid M] (f : ν → M) (k : κ) (v old : ν)
    (l : List (κ×ν)) (h : l.lookup k=some old) :
    ((setEntry k v l).map (fun e => f e.2)).sum+f old=
      (l.map (fun e => f e.2)).sum+f v := by
  induction l with
  | nil => cases h
  | cons e l ih =>
    by_cases he : e.1=k
    · rw [lookup_cons_of_eq he.symm,Option.some.injEq] at h
      rw [setEntry,if_pos he,List.map_cons,List.sum_cons,List.map_cons,List.sum_cons,←h]
      abel
    · rw [lookup_cons_of_ne (Ne.symm he)] at h
      rw [setEntry,if_neg he,List.map_cons,List.sum_cons,List.map_cons,List.sum_cons,
        add_assoc,ih h,add_assoc]

/-- A new entry adds its own term to a sum over the entries. -/
theorem setEntry_sum_new {M : Type*} [AddCommMonoid M] (f : ν → M) (k : κ) (v : ν)
    (l : List (κ×ν)) (h : l.lookup k=none) :
    ((setEntry k v l).map (fun e => f e.2)).sum=(l.map (fun e => f e.2)).sum+f v := by
  induction l with
  | nil => simp [setEntry]
  | cons e l ih =>
    by_cases he : e.1=k
    · rw [lookup_cons_of_eq he.symm] at h
      cases h
    · rw [lookup_cons_of_ne (Ne.symm he)] at h
      rw [setEntry,if_neg he,List.map_cons,List.sum_cons,List.map_cons,List.sum_cons,
        ih h,add_assoc]

end SetEntry

namespace UMap

variable {κ ν : Type*}

/-- The map without entries. -/
def empty : UMap κ ν := ⟨[],List.nodup_nil⟩

instance : EmptyCollection (UMap κ ν) := ⟨empty⟩
instance : Inhabited (UMap κ ν) := ⟨∅⟩

/-- Number of entries. -/
def size (m : UMap κ ν) : ℕ := m.entries.length

/-- The keys in iteration order. -/
def keys (m : UMap κ ν) : List κ := m.entries.map Prod.fst

/-- Whether there is no entry at all. -/
def isEmpty (m : UMap κ ν) : Bool := m.entries.isEmpty

variable [DecidableEq κ]

/-- The value stored under a key. -/
def find? (m : UMap κ ν) (k : κ) : Option ν := m.entries.lookup k

/-- Whether a key has an entry. -/
def contains (m : UMap κ ν) (k : κ) : Bool := (m.find? k).isSome

/-- The value stored under a key, or the given default. -/
def getD (m : UMap κ ν) (k : κ) (d : ν) : ν := (m.find? k).getD d

/-- Assign a value to a key. -/
def set (m : UMap κ ν) (k : κ) (v : ν) : UMap κ ν :=
  ⟨setEntry k v m.entries,by
    rw [setEntry_keys]
    split
    · exact m.nodup
    · rename_i h
      refine List.nodup_append.mpr ⟨m.nodup,List.nodup_singleton k,?_⟩
      intro x hx y hy he
      rw [List.mem_singleton.mp hy] at he
      exact h (he ▸ hx)⟩

/-- Remove the entry of a key. -/
def erase (m : UMap κ ν) (k : κ) : UMap κ ν :=
  ⟨m.entries.filter (fun e => decide (e.1≠k)),
    (List.filter_sublist.map Prod.fst).nodup m.nodup⟩

/-- Read access that stores the default under an absent key. -/
def touch (m : UMap κ ν) (k : κ) (d : ν) : UMap κ ν :=
  if m.contains k then m else m.set k d

/-- Apply a function to every value. -/
def mapVals {μ : Type*} (f : ν → μ) (m : UMap κ ν) : UMap κ μ :=
  ⟨m.entries.map fun e => (e.1,f e.2),by
    rw [List.map_map]
    exact m.nodup⟩

@[simp] theorem find?_empty (k : κ) : (∅ : UMap κ ν).find? k=none := rfl

@[simp] theorem getD_empty (k : κ) (d : ν) : (∅ : UMap κ ν).getD k d=d := rfl

theorem find?_set (m : UMap κ ν) (k k' : κ) (v : ν) :
    (m.set k v).find? k'=if k'=k then some v else m.find? k' :=
  setEntry_lookup k k' v m.entries

@[simp] theorem find?_set_self (m : UMap κ ν) (k : κ) (v : ν) :
    (m.set k v).find? k=some v := by
  rw [find?_set,if_pos rfl]

variable {k : κ}

theorem find?_set_of_ne (m : UMap κ ν) {k' : κ} (h : k'≠k) (v : ν) :
    (m.set k v).find? k'=m.find? k' := by
  rw [find?_set,if_neg h]

theorem find?_erase (m : UMap κ ν) (k k' : κ) :
    (m.erase k).find? k'=if k'=k then none else m.find? k' := by
  unfold find? erase
  dsimp only
  induction m.entries with
  | nil => simp
  | cons e l ih =>
    by_cases he : e.1=k
    · rw [List.filter_cons,if_neg (by simpa using he),ih]
      by_cases hk : k'=k
      · rw [if_pos hk,if_pos hk]
      · rw [if_neg hk,if_neg hk,lookup_cons_of_ne (he ▸ hk)]
    · rw [List.filter_cons,if_pos (by simpa using he)]
      by_cases hk : k'=e.1
      · rw [lookup_cons_of_eq hk,lookup_cons_of_eq hk,if_neg (hk ▸ he)]
      · rw [lookup_cons_of_ne hk,lookup_cons_of_ne hk,ih]

@[simp] theorem find?_erase_self (m : UMap κ ν) (k : κ) : (m.erase k).find? k=none := by
  rw [find?_erase,if_pos rfl]

theorem find?_erase_of_ne (m : UMap κ ν) {k' : κ} (h : k'≠k) : (m.erase k).find? k'=m.find? k' := by
  rw [find?_erase,if_neg h]

variable {m : UMap κ ν} {v : ν}

theorem find?_eq_some_iff : m.find? k=some v ↔ (k,v)∈m.entries :=
  ⟨mem_of_lookup_eq_some,lookup_eq_some_of_mem m.nodup⟩

theorem find?_touch (m : UMap κ ν) (k k' : κ) (d : ν) :
    (m.touch k d).find? k'=if k'=k then some (m.getD k d) else m.find? k' := by
  unfold touch contains getD
  cases h : m.find? k with
  | none => simp [find?_set]
  | some v =>
    by_cases hk : k'=k
    · subst hk
      simp [h]
    · simp [hk]

/-- Reading with a default creates no other value. -/
theorem getD_touch (m : UMap κ ν) (k k' : κ) (d : ν) : (m.touch k d).getD k' d=m.getD k' d := by
  rw [getD,find?_touch]
  split
  · rename_i h
    rw [h]
    rfl
  · rfl

theorem contains_eq_true_iff : m.contains k=true ↔ ∃ v,m.find? k=some v := by
  rw [contains,Option.isSome_iff_exists]

/-- Every stored value has a property. -/
def All (Q : ν → Prop) (m : UMap κ ν) : Prop := ∀ k v,m.find? k=some v → Q v

theorem all_empty (Q : ν → Prop) : All Q (∅ : UMap κ ν) := by
  intro k v h
  cases h

variable {Q : ν → Prop}

theorem All.set (h : All Q m) (k : κ) (hv : Q v) : All Q (m.set k v) := by
  intro k' v' hf
  rw [find?_set] at hf
  split at hf
  · exact Option.some.inj hf ▸ hv
  · exact h k' v' hf

theorem All.erase (h : All Q m) (k : κ) : All Q (m.erase k) := by
  intro k' v' hf
  rw [find?_erase] at hf
  split at hf
  · cases hf
  · exact h k' v' hf

theorem find?_mapVals {μ : Type*} (f : ν → μ) (m : UMap κ ν) (k : κ) :
    (m.mapVals f).find? k=(m.find? k).map f := by
  show (m.entries.map fun e => (e.1,f e.2)).lookup k=(m.entries.lookup k).map f
  induction m.entries with
  | nil => rfl
  | cons e l ih =>
    rw [List.map_cons]
    by_cases hk : k=e.1
    · rw [lookup_cons_of_eq hk,lookup_cons_of_eq (e:=(e.1,f e.2)) hk]
      rfl
    · rw [lookup_cons_of_ne hk,lookup_cons_of_ne (e:=(e.1,f e.2)) hk,ih]

/-- Values that are changed alike are read changed, too. -/
theorem getD_mapVals {μ : Type*} (f : ν → μ) (m : UMap κ ν) (k : κ) (d : ν) :
    (m.mapVals f).getD k (f d)=f (m.getD k d) := by
  rw [getD,getD,find?_mapVals]
  cases m.find? k <;> rfl

theorem All.mapVals (h : All Q m) {f : ν → ν} (hf : ∀ v,Q v → Q (f v)) : All Q (m.mapVals f) := by
  intro k v hv
  obtain ⟨e,he,hval⟩ := List.mem_map.mp (find?_eq_some_iff.mp hv)
  obtain ⟨rfl,rfl⟩ := Prod.mk.inj hval
  exact hf e.2 (h e.1 e.2 (find?_eq_some_iff.mpr he))

theorem contains_iff_mem_keys : m.contains k=true ↔ k∈m.keys := by
  rw [contains_eq_true_iff,keys,List.mem_map]
  constructor
  · rintro ⟨v,hv⟩
    exact ⟨(k,v),find?_eq_some_iff.mp hv,rfl⟩
  · rintro ⟨⟨k',v⟩,hv,rfl⟩
    exact ⟨v,find?_eq_some_iff.mpr hv⟩

theorem getD_set (m : UMap κ ν) (k k' : κ) (v d : ν) :
    (m.set k v).getD k' d=if k'=k then v else m.getD k' d := by
  unfold getD
  rw [find?_set]
  split <;> rfl

@[simp] theorem getD_set_self (m : UMap κ ν) (k : κ) (v d : ν) : (m.set k v).getD k d=v := by
  rw [getD_set,if_pos rfl]

theorem getD_erase (m : UMap κ ν) (k k' : κ) (d : ν) :
    (m.erase k).getD k' d=if k'=k then d else m.getD k' d := by
  unfold getD
  rw [find?_erase]
  split <;> rfl

/-- Assigning the value that is stored changes nothing. -/
theorem set_eq_self (h : m.find? k=some v) : m.set k v=m := by
  have hentries : ∀ l : List (κ×ν),l.lookup k=some v → setEntry k v l=l := by
    intro l hl
    induction l with
    | nil => cases hl
    | cons e l ih =>
      by_cases he : e.1=k
      · rw [lookup_cons_of_eq he.symm] at hl
        rw [setEntry,if_pos he,←Option.some.inj hl,←he]
      · rw [lookup_cons_of_ne fun hk => he hk.symm] at hl
        rw [setEntry,if_neg he,ih hl]
  cases m with
  | mk entries nodup =>
    rw [set,mk.injEq]
    exact hentries entries h

theorem contains_set (m : UMap κ ν) (k k' : κ) (v : ν) :
    (m.set k v).contains k'=(decide (k'=k) || m.contains k') := by
  unfold contains
  rw [find?_set]
  split
  · rename_i h
    simp [h]
  · rename_i h
    simp [h]

theorem contains_erase (m : UMap κ ν) (k k' : κ) :
    (m.erase k).contains k'=(decide (k'≠k) && m.contains k') := by
  unfold contains
  rw [find?_erase]
  split
  · rename_i h
    simp [h]
  · rename_i h
    simp [h]

theorem entries_eq_nil_iff : m.entries=[] ↔ ∀ k,m.contains k=false := by
  constructor
  · intro h k
    rw [contains,find?,h]
    rfl
  · intro h
    rw [List.eq_nil_iff_forall_not_mem]
    rintro ⟨k,v⟩ hm
    have hc := contains_eq_true_iff.mpr ⟨v,find?_eq_some_iff.mpr hm⟩
    rw [h k] at hc
    cases hc

/-- A new key is put at the end. -/
theorem entries_set_of_not_mem (h : k∉m.keys) (v : ν) : (m.set k v).entries=m.entries++[(k,v)] := by
  have hnew : ∀ l : List (κ×ν),k∉l.map Prod.fst → setEntry k v l=l++[(k,v)] := by
    intro l
    induction l with
    | nil => exact fun _ => rfl
    | cons e l ih =>
      intro hk
      rw [List.map_cons,List.mem_cons,not_or] at hk
      rw [setEntry,if_neg (Ne.symm hk.1),ih hk.2,List.cons_append]
  exact hnew m.entries h

/-- Storing new keys one after the other lists them in this order. -/
theorem entries_foldl_set {ι : Type*} (key : ι → κ) (val : ι → ν) {l : List ι}
    (hn : (l.map key).Nodup) (hm : ∀ i∈l,key i∉m.keys) :
    (l.foldl (fun m i => m.set (key i) (val i)) m).entries=
      m.entries++l.map fun i => (key i,val i) := by
  induction l generalizing m with
  | nil => simp
  | cons i l ih =>
    obtain ⟨hi,hl⟩ := List.nodup_cons.mp hn
    have hnew := entries_set_of_not_mem (hm i List.mem_cons_self) (val i)
    have hrest : ∀ j∈l,key j∉(m.set (key i) (val i)).keys := by
      intro j hj hk
      rw [keys,hnew,List.map_append,List.mem_append] at hk
      rcases hk with hk|hk
      · exact hm j (List.mem_cons_of_mem _ hj) hk
      · have he : key j=key i := by simpa using hk
        exact hi (he ▸ List.mem_map_of_mem hj)
    rw [List.foldl_cons,ih hl hrest,hnew,List.append_assoc]
    rfl

/-- Replacing a value changes a sum over the map by the difference of its terms. -/
theorem sum_set {M : Type*} [AddCommMonoid M] (f : ν → M) {old : ν} (h : m.find? k=some old) (v : ν) :
    ((m.set k v).entries.map (fun e => f e.2)).sum+f old=
      (m.entries.map (fun e => f e.2)).sum+f v := setEntry_sum f k v old m.entries h

/-- Creating an entry without weight leaves a sum over the map unchanged. -/
theorem sum_touch {M : Type*} [AddCommMonoid M] (f : ν → M) (m : UMap κ ν) (k : κ) {d : ν}
    (hd : f d=0) :
    ((m.touch k d).entries.map (fun e => f e.2)).sum=(m.entries.map (fun e => f e.2)).sum := by
  unfold touch
  split
  · rfl
  · rename_i h
    have hn : m.find? k=none := by
      rw [contains,Option.not_isSome_iff_eq_none] at h
      exact h
    refine (setEntry_sum_new f k d m.entries hn).trans ?_
    rw [hd,add_zero]

/-- Creating an entry removes none. -/
theorem contains_touch (h : m.contains k=true) (k' : κ) (d : ν) :
    (m.touch k' d).contains k=true := by
  unfold touch
  split
  · exact h
  · rw [contains_set,h]
    simp

/-- Looking up a list of keys, in which those of the map stand in the map's
order, gives the values in that order. -/
theorem filterMap_find? {l : List κ} (hl : l.Nodup) (h : m.keys.Sublist l) :
    l.filterMap m.find?=m.entries.map Prod.snd := by
  have hown : m.keys.filterMap m.find?=m.entries.map Prod.snd := by
    rw [keys,List.filterMap_map,←List.filterMap_eq_map]
    exact List.filterMap_congr fun e he => find?_eq_some_iff.mpr he
  have hrest : ∀ k∈l,k∉m.keys → m.find? k=none := by
    intro k _ hk
    rwa [←contains_iff_mem_keys,contains,Option.not_isSome_iff_eq_none] at hk
  rw [←hown]
  clear hown
  generalize m.keys=ks at h hrest
  induction h with
  | slnil => rfl
  | cons a _ ih =>
    obtain ⟨ha,hl⟩ := List.nodup_cons.mp hl
    have hnone := hrest a List.mem_cons_self fun hk => ha (List.Sublist.mem hk ‹_›)
    rw [List.filterMap_cons_none hnone]
    exact ih hl fun k hk => hrest k (List.mem_cons_of_mem a hk)
  | cons_cons a _ ih =>
    obtain ⟨ha,hl⟩ := List.nodup_cons.mp hl
    rw [List.filterMap_cons,List.filterMap_cons,ih hl fun k hk hks => ?_]
    refine hrest k (List.mem_cons_of_mem a hk) fun hc => ?_
    rcases List.mem_cons.mp hc with rfl|hc
    · exact ha hk
    · exact hks hc

end UMap

variable {κ α : Type*} [DecidableEq κ]

/-- The same keys with the same members. -/
def SameSets (m m' : UMap κ (USet α)) : Prop :=
  ∀ k,m.contains k=m'.contains k ∧ ∀ a,a∈m.getD k ∅ ↔ a∈m'.getD k ∅

namespace SameSets

variable {m m' : UMap κ (USet α)}

theorem refl (m : UMap κ (USet α)) : SameSets m m := fun _ => ⟨rfl,fun _ => Iff.rfl⟩

theorem symm (h : SameSets m m') : SameSets m' m :=
  fun k => ⟨(h k).1.symm,fun a => ((h k).2 a).symm⟩

theorem trans {m'' : UMap κ (USet α)} (h : SameSets m m') (h' : SameSets m' m'') :
    SameSets m m'' :=
  fun k => ⟨(h k).1.trans (h' k).1,fun a => ((h k).2 a).trans ((h' k).2 a)⟩

theorem set (h : SameSets m m') (k : κ) {s s' : USet α} (hs : ∀ a,a∈s ↔ a∈s') :
    SameSets (m.set k s) (m'.set k s') := by
  intro k'
  rw [UMap.contains_set,UMap.contains_set,(h k').1,UMap.getD_set,UMap.getD_set]
  refine ⟨rfl,fun a => ?_⟩
  split
  · exact hs a
  · exact (h k').2 a

theorem erase (h : SameSets m m') (k : κ) : SameSets (m.erase k) (m'.erase k) := by
  intro k'
  rw [UMap.contains_erase,UMap.contains_erase,(h k').1,UMap.getD_erase,UMap.getD_erase]
  refine ⟨rfl,fun a => ?_⟩
  split
  · exact Iff.rfl
  · exact (h k').2 a

theorem entries_eq_nil_iff (h : SameSets m m') : m.entries=[] ↔ m'.entries=[] := by
  rw [UMap.entries_eq_nil_iff,UMap.entries_eq_nil_iff]
  exact forall_congr' fun k => by rw [(h k).1]

/-- The entries correspond, up to their order. -/
theorem entries (h : SameSets m m') : ∃ l,m.entries.Perm l ∧
    List.Forall₂ (fun e e' => e.1=e'.1 ∧ ∀ a,a∈e.2 ↔ a∈e'.2) l m'.entries := by
  have hvalue : ∀ (n : UMap κ (USet α)),∀ e∈n.entries,n.getD e.1 ∅=e.2 := by
    intro n e he
    rw [UMap.getD,UMap.find?_eq_some_iff.mpr he,Option.getD_some]
  have hkeys : m.keys.Perm m'.keys := by
    refine (List.perm_ext_iff_of_nodup m.nodup m'.nodup).mpr fun k => ?_
    show k∈m.keys ↔ k∈m'.keys
    rw [←UMap.contains_iff_mem_keys,←UMap.contains_iff_mem_keys,(h k).1]
  have hentries : m.keys.map (fun k => (k,m.getD k ∅))=m.entries := by
    rw [UMap.keys,List.map_map]
    refine (List.map_congr_left fun e he => ?_).trans (List.map_id _)
    exact Prod.ext rfl (hvalue m e he)
  refine ⟨m'.entries.map fun e => (e.1,m.getD e.1 ∅),?_,?_⟩
  · rw [←hentries]
    refine (hkeys.map _).trans (List.Perm.of_eq ?_)
    rw [UMap.keys,List.map_map]
    rfl
  · rw [List.forall₂_map_left_iff,List.forall₂_same]
    intro e he
    refine ⟨rfl,fun a => ?_⟩
    rw [←hvalue m' e he]
    exact (h e.1).2 a

end SameSets

end Pheromone.UnorderedContainers
