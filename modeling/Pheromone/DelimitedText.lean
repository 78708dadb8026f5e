import Mathlib.Data.List.TakeWhile
import Mathlib.Data.Nat.Digits.Lemmas

/-!
# Delimited, terminated and length-prefixed text, and decimal numerals

Text is cut at a delimiter the way repeated line extraction cuts it: nothing
after the last delimiter gives no further field. A terminator truncates, and
a text can stand behind one byte with its length.
-/

namespace Pheromone.DelimitedText

variable {α : Type*} [DecidableEq α]

/-- The fields of a text. The field after a final delimiter is not read. -/
def fields (d : α) : List α → List (List α)
  | [] => []
  | c::s =>
    if c=d then []::fields d s
    else match fields d s with
      | [] => [[c]]
      | item::items => (c::item)::items

/-- The part of a buffer before its terminator. -/
def terminated (t : α) (s : List α) : List α := s.takeWhile (fun c => decide (c≠t))

@[simp] theorem fields_nil (d : α) : fields d []=[] := rfl

theorem fields_cons_self (d : α) (s : List α) : fields d (d::s)=[]::fields d s := if_pos rfl

variable {d : α} {a : List α}

/-- A text without the delimiter, closed by it, is exactly one field. -/
theorem fields_append_delim (h : d∉a) (b : List α) : fields d (a++d::b)=a::fields d b := by
  induction a with
  | nil => exact fields_cons_self d b
  | cons c a ih =>
    rw [List.mem_cons,not_or] at h
    obtain ⟨hc,ha⟩ := h
    rw [List.cons_append,fields,if_neg (Ne.symm hc),ih ha]

/-- A nonempty text without the delimiter is one field. -/
theorem fields_of_not_mem (h : d∉a) (hn : a≠[]) : fields d a=[a] := by
  induction a with
  | nil => exact absurd rfl hn
  | cons c a ih =>
    rw [List.mem_cons,not_or] at h
    obtain ⟨hc,ha⟩ := h
    rw [fields,if_neg (Ne.symm hc)]
    cases a with
    | nil => rfl
    | cons e a => rw [ih ha (List.cons_ne_nil e a)]

/-- The first field of a nonempty text is what precedes the first delimiter. -/
theorem fields_head {s : List α} (h : s≠[]) : ∃ items,fields d s=terminated d s::items := by
  induction s with
  | nil => exact absurd rfl h
  | cons c s ih =>
    by_cases hc : c=d
    · subst hc
      refine ⟨fields c s,?_⟩
      rw [fields_cons_self,terminated,List.takeWhile_cons,if_neg (by simp)]
    · rw [fields,if_neg hc,terminated,List.takeWhile_cons,if_pos (by simpa using hc)]
      cases s with
      | nil => exact ⟨[],rfl⟩
      | cons e s =>
        obtain ⟨items,hi⟩ := ih (List.cons_ne_nil e s)
        exact ⟨items,by rw [hi,terminated]⟩

/-- No field contains the delimiter. -/
theorem not_mem_of_mem_fields {s item : List α} (h : item∈fields d s) : d∉item := by
  induction s generalizing item with
  | nil => cases h
  | cons c s ih =>
    by_cases hc : c=d
    · subst hc
      rw [fields_cons_self] at h
      rcases List.mem_cons.mp h with rfl|h
      · exact List.not_mem_nil
      · exact ih h
    · rw [fields,if_neg hc] at h
      cases hf : fields d s with
      | nil =>
        rw [hf] at h
        rw [List.mem_singleton.mp h]
        simpa using Ne.symm hc
      | cons first items =>
        rw [hf] at h ih
        rcases List.mem_cons.mp h with rfl|h
        · have hfirst := ih List.mem_cons_self
          rw [List.mem_cons,not_or]
          exact ⟨Ne.symm hc,hfirst⟩
        · exact ih (List.mem_cons_of_mem _ h)

/-- The terminated part has no terminator. -/
theorem not_mem_terminated (t : α) (s : List α) : t∉terminated t s := by
  intro h
  have ht := List.mem_takeWhile_imp h
  simp at ht

variable {t : α}

/-- A text is its own terminated part exactly when it has no terminator. -/
theorem terminated_eq_self_iff {s : List α} : terminated t s=s ↔ t∉s := by
  constructor
  · intro h
    rw [←h]
    exact not_mem_terminated t s
  · intro h
    rw [terminated,List.takeWhile_eq_self_iff]
    intro c hc
    have hn : c≠t := fun he => h (he ▸ hc)
    simpa using hn

/-- Text without the terminator passes in front of the truncation. -/
theorem terminated_append (h : t∉a) (b : List α) : terminated t (a++b)=a++terminated t b := by
  rw [terminated,List.takeWhile_append_of_pos]
  · rfl
  · intro c hc
    have hn : c≠t := fun he => h (he ▸ hc)
    simpa using hn

variable {items : List (List α)}

/-- Fields that are closed by the delimiter are read back, in order, in
front of the fields of the rest. -/
theorem fields_foldr_delim (h : ∀ item∈items,d∉item) (s : List α) :
    fields d (items.foldr (fun item rest => item++d::rest) s)=items++fields d s := by
  induction items with
  | nil => rfl
  | cons item items ih =>
    rw [List.foldr_cons,fields_append_delim (h item List.mem_cons_self),
      ih (fun x hx => h x (List.mem_cons_of_mem _ hx)),List.cons_append]

/-- Fields of which each but the first follows a delimiter are read back
unless the last one is empty. -/
theorem fields_flatMap_delim {first : List α} (h : ∀ item∈first::items,d∉item)
    (hlast : (first::items).getLast?≠some []) :
    fields d (first++items.flatMap fun item => d::item)=first::items := by
  induction items generalizing first with
  | nil =>
    have hne : first≠[] := fun hnil => hlast (by rw [hnil]; rfl)
    rw [List.flatMap_nil,List.append_nil]
    exact fields_of_not_mem (h first List.mem_cons_self) hne
  | cons item items ih =>
    have hrest := ih (fun x hx => h x (List.mem_cons_of_mem _ hx))
      (by rwa [List.getLast?_cons_cons] at hlast)
    rw [List.flatMap_cons,List.cons_append,fields_append_delim (h first List.mem_cons_self),hrest]

omit [DecidableEq α] in
/-- Texts are recovered from before and after the last delimiter. -/
theorem append_delim_inj {a' b b' : List α} (hb : d∉b) (hb' : d∉b') :
    a++d::b=a'++d::b' ↔ a=a' ∧ b=b' := by
  refine ⟨fun h => ?_,fun h => by rw [h.1,h.2]⟩
  have hempty : ∀ {c x y : List α},d∉x → d::x=c++d::y → c=[] := by
    intro c x y hx he
    cases c with
    | nil => rfl
    | cons e c =>
      rw [List.cons_append] at he
      exact absurd ((List.cons.inj he).2 ▸ List.mem_append_right c List.mem_cons_self) hx
  rcases List.append_eq_append_iff.mp h with ⟨c,ha,hc⟩|⟨c,ha,hc⟩
  · have hnil := hempty hb hc
    rw [hnil] at ha hc
    exact ⟨(ha.trans (List.append_nil a)).symm,(List.cons.inj hc).2⟩
  · have hnil := hempty hb' hc
    rw [hnil] at ha hc
    exact ⟨ha.trans (List.append_nil a'),(List.cons.inj hc).2.symm⟩

/-- The decimal numeral of a natural number, in ASCII. -/
def decimal (n : ℕ) : List UInt8 :=
  if n=0 then [48] else (Nat.digits 10 n).reverse.map (fun d => UInt8.ofNat (48+d))

/-- The value of an ASCII digit. -/
def digitValue (c : UInt8) : Option ℕ :=
  if 48≤ c.toNat ∧ c.toNat≤57 then some (c.toNat-48) else none

/-- The values of the digits a text starts with. -/
def leadingDigits : List UInt8 → List ℕ
  | [] => []
  | c::s => match digitValue c with
    | none => []
    | some v => v::leadingDigits s

theorem digitValue_ofNat {d : ℕ} (h : d<10) : digitValue (UInt8.ofNat (48+d))=some d := by
  have hn : (UInt8.ofNat (48+d)).toNat=48+d := by
    rw [UInt8.toNat_ofNat_of_lt']
    show 48+d<2^8
    omega
  rw [digitValue,hn,if_pos (by omega)]
  congr 1
  omega

theorem leadingDigits_map {l : List ℕ} (h : ∀ d∈l,d<10) :
    leadingDigits (l.map (fun d => UInt8.ofNat (48+d)))=l := by
  induction l with
  | nil => rfl
  | cons d l ih =>
    rw [List.map_cons,leadingDigits,digitValue_ofNat (h d List.mem_cons_self)]
    dsimp only
    rw [ih (fun x hx => h x (List.mem_cons_of_mem _ hx))]

/-- The value of a list of digits, most significant first. -/
def digitsNumber (l : List ℕ) : ℕ := Nat.ofDigits 10 l.reverse

/-- A numeral is read back as its number. -/
theorem decimal_value (n : ℕ) : digitsNumber (leadingDigits (decimal n))=n := by
  by_cases hn : n=0
  · subst hn
    rfl
  · rw [decimal,if_neg hn,leadingDigits_map]
    · rw [digitsNumber,List.reverse_reverse,Nat.ofDigits_digits]
    · intro d hd
      exact Nat.digits_lt_base (by omega) (List.mem_reverse.mp hd)

variable {n : ℕ}

theorem decimal_inj {m : ℕ} : decimal n=decimal m ↔ n=m := by
  refine ⟨fun h => ?_,fun h => by rw [h]⟩
  rw [←decimal_value n,h,decimal_value]

theorem decimal_ne_nil (n : ℕ) : decimal n≠[] := by
  unfold decimal
  split
  · exact List.cons_ne_nil _ _
  · rename_i hn
    have hd := Nat.digits_ne_nil_iff_ne_zero (b:=10).mpr hn
    simpa using hd

/-- Every character of a numeral is an ASCII digit. -/
theorem decimal_digit {c : UInt8} (h : c∈decimal n) : 48≤ c.toNat ∧ c.toNat≤57 := by
  unfold decimal at h
  split at h
  · rw [List.mem_singleton.mp h]
    decide
  · obtain ⟨d,hd,rfl⟩ := List.mem_map.mp h
    have hb : d<10 := Nat.digits_lt_base (by omega) (List.mem_reverse.mp hd)
    rw [UInt8.toNat_ofNat_of_lt']
    · omega
    · show 48+d<2^8
      omega

/-- A text behind one byte with its length, and what follows it. -/
def framed (s rest : List UInt8) : List UInt8 := UInt8.ofNat s.length::(s++rest)

/-- Cut off a text by the length in front of it. -/
def unframed : List UInt8 → Option (List UInt8×List UInt8)
  | [] => none
  | size::s => if size.toNat≤ s.length then some (s.take size.toNat,s.drop size.toNat) else none

variable {s : List UInt8}

theorem toNat_lengthByte (h : s.length<256) : (UInt8.ofNat s.length).toNat=s.length := by
  rw [UInt8.toNat_ofNat']
  exact Nat.mod_eq_of_lt h

/-- As much is cut off as the length byte says, which is the length modulo 256. -/
theorem unframed_framed (s rest : List UInt8) :
    unframed (framed s rest)=
      some ((s++rest).take (s.length%256),(s++rest).drop (s.length%256)) := by
  have hbyte : (UInt8.ofNat s.length).toNat=s.length%256 := UInt8.toNat_ofNat'
  have hmod : s.length%256≤ s.length := Nat.mod_le _ _
  rw [framed,unframed,hbyte,List.length_append,if_pos (by omega)]

variable {rest : List UInt8}

/-- A text comes back exactly when its length fits into the byte. -/
theorem fst_unframed_framed_iff :
    (unframed (framed s rest)).map Prod.fst=some s ↔ s.length<256 := by
  rw [unframed_framed]
  constructor
  · intro h
    have htake := congrArg List.length (Option.some.inj h)
    rw [List.length_take,List.length_append] at htake
    have hmod : s.length%256<256 := Nat.mod_lt _ (by decide)
    omega
  · intro h
    rw [Nat.mod_eq_of_lt h,List.take_left]
    rfl

/-- What follows a framed text is read back if the text is short. -/
theorem unframed_framed_iff : unframed (framed s rest)=some (s,rest) ↔ s.length<256 := by
  constructor
  · intro h
    exact fst_unframed_framed_iff.mp (congrArg (Option.map Prod.fst) h)
  · intro h
    rw [unframed_framed,Nat.mod_eq_of_lt h,List.take_left,List.drop_left]

/-- What was cut off can be put behind its length again. -/
theorem framed_of_unframed {msg : List UInt8} (h : unframed msg=some (s,rest)) :
    framed s rest=msg ∧ s.length<256 := by
  cases msg with
  | nil => cases h
  | cons size text =>
    rw [unframed] at h
    split at h
    · rename_i hle
      cases h
      have hlen : (text.take size.toNat).length=size.toNat := by
        rw [List.length_take]
        exact Nat.min_eq_left hle
      refine ⟨?_,?_⟩
      · rw [framed,hlen,List.take_append_drop,UInt8.ofNat_toNat]
      · rw [hlen]
        exact size.toNat_lt
    · cases h

end Pheromone.DelimitedText
