import Pheromone.CommonNames
import Mathlib.Data.Rat.Floor
import Mathlib.Data.Nat.Log

/-!
# Timestamps of durable writes

Timestamps scale the time by a power of ten and add the thread's number; the
client library scales seconds. So the kind of the writer decides first. Times
are exact numbers of seconds since the epoch.
-/

namespace Pheromone.WriteTimestamps

/-- A loop with its test in front. There is no result if the tests do not
suffice to leave it. -/
def loop {α : Type*} (test : α → Bool) (body : α → α) : ℕ → α → Option α
  | 0,_ => none
  | tests+1,a => if test a then loop test body tests (body a) else some a

/-- The timestamp of an I/O thread. Where the power of ten overflows to zero
the loop does not end. -/
def generateTimestamp (id : UInt32) (time : UInt64) : Option UInt64 := do
  let pow ← loop (fun pow : UInt32 => decide (id≥pow)) (·*10) 33 10
  some (time*pow.toUInt64+id.toUInt64)

/-- Milliseconds of a time. -/
def milliseconds (t : ℚ) : ℕ := ⌊t*1000⌋.toNat

/-- The clock of the I/O threads. -/
def getTime (t : ℚ) : UInt64 := UInt64.ofNat (milliseconds t)

/-- The timestamp of the client library. -/
def clientTimestamp (tid : ℕ) (t : ℚ) : Option ℤ := do
  let p ← loop (fun p : ℕ => decide (tid≥p)) (·*10) (tid+1) 10
  some ⌊t*p+tid⌋

/-- Who writes to the durable store. -/
inductive Writer where
  | ioThread (id : UInt32)
  | client
  deriving DecidableEq

/-- The timestamp of a write at a time. -/
def Writer.timestamp : Writer → ℚ → Option ℕ
  | .ioThread id,t => (generateTimestamp id (getTime t)).map UInt64.toNat
  | .client,t => (clientTimestamp 0 t).map Int.toNat

/-- The number that a writer adds. -/
def Writer.id : Writer → ℕ
  | .ioThread id => id.toNat
  | .client => 0

/-- The least power of ten, at least ten, above a number. -/
def multiplier (id : ℕ) : ℕ := 10^(Nat.log 10 id+1)

/-- How far the timestamps of a writer go in a second. -/
def Writer.scale : Writer → ℕ
  | .ioThread id => 1000*multiplier id.toNat
  | .client => 10

/-- The timestamp does not overflow. -/
def Writer.InRange : Writer → ℚ → Prop
  | .ioThread id,t => milliseconds t*multiplier id.toNat+id.toNat<2^64
  | .client,_ => True

/-- Every write wins over one a second or more before. -/
def Wins (earlier later : Writer) : Prop :=
  ∀ t t' : ℚ,0≤t → t+1≤t' → earlier.InRange t → later.InRange t' →
    ∃ s s',earlier.timestamp t=some s ∧ later.timestamp t'=some s' ∧ s<s'

theorem lt_multiplier (id : ℕ) : id< multiplier id :=
  Nat.lt_pow_succ_log_self (by decide) id

theorem ten_le_multiplier (id : ℕ) : 10≤ multiplier id := by
  unfold multiplier
  rw [Nat.pow_succ']
  exact Nat.le_mul_of_pos_right 10 (Nat.pow_pos (by decide))

theorem multiplier_le {id : ℕ} (h : id<10^9) : multiplier id≤10^9 :=
  Nat.pow_le_pow_right (by decide) (Nat.log_lt_of_lt_pow' (by decide) h)

/-- Of two different powers of ten one is at least ten times the other. -/
theorem multiplier_gap {id id' : ℕ} (h : multiplier id< multiplier id') :
    10*multiplier id≤ multiplier id' := by
  unfold multiplier at h ⊢
  rw [←Nat.pow_succ']
  exact Nat.pow_le_pow_right (by decide) ((Nat.pow_lt_pow_iff_right (by decide)).mp h)

theorem toNat_ofNat_pow {k : ℕ} (h : 10^k<2^32) : (UInt32.ofNat (10^k)).toNat=10^k :=
  UInt32.toNat_ofNat_of_lt' h

/-- The loop multiplies by ten until it is above the number. -/
theorem loop_pow (id : UInt32) (k n tests : ℕ) (htests : n<tests) (hbound : 10^(k+n)<2^32)
    (hlt : id.toNat<10^(k+n)) (hle : ∀ i<n,10^(k+i)≤ id.toNat) :
    loop (fun pow : UInt32 => decide (id≥pow)) (·*10) tests (UInt32.ofNat (10^k))=
      some (UInt32.ofNat (10^(k+n))) := by
  induction n generalizing k tests with
  | zero =>
    obtain ⟨tests,rfl⟩ := Nat.exists_eq_succ_of_ne_zero (Nat.ne_zero_of_lt htests)
    have htest : ¬id≥UInt32.ofNat (10^k) := by
      have hk : 10^k<2^32 := hbound
      rw [ge_iff_le,UInt32.le_iff_toNat_le,toNat_ofNat_pow hk]
      exact Nat.not_le.mpr hlt
    exact if_neg fun hc => htest (of_decide_eq_true hc)
  | succ n ih =>
    obtain ⟨tests,rfl⟩ := Nat.exists_eq_succ_of_ne_zero (Nat.ne_zero_of_lt htests)
    have hshift : k+1+n=k+(n+1) := by omega
    have hk : 10^k<2^32 := lt_of_le_of_lt (Nat.pow_le_pow_right (by decide) (by omega)) hbound
    have htest : id≥UInt32.ofNat (10^k) := by
      rw [ge_iff_le,UInt32.le_iff_toNat_le,toNat_ofNat_pow hk]
      exact hle 0 (Nat.succ_pos n)
    have hnext : UInt32.ofNat (10^k)*10=UInt32.ofNat (10^(k+1)) := by
      rw [Nat.pow_succ,UInt32.ofNat_mul]
      rfl
    have hrest : ∀ i<n,10^(k+1+i)≤ id.toNat := by
      intro i hi
      rw [show k+1+i=k+(i+1) by omega]
      exact hle (i+1) (by omega)
    have hloop := ih (k+1) tests (by omega) (hshift ▸ hbound) (hshift ▸ hlt) hrest
    rw [hshift,←hnext] at hloop
    exact (if_pos (decide_eq_true htest)).trans hloop

/-- The loop ends with the least power of ten above the number. -/
theorem loop_multiplier {id : UInt32} (h : id.toNat<10^9) :
    loop (fun pow : UInt32 => decide (id≥pow)) (·*10) 33 10=
      some (UInt32.ofNat (multiplier id.toNat)) := by
  have hlog : Nat.log 10 id.toNat<9 := Nat.log_lt_of_lt_pow' (by decide) h
  have hcomm : 1+Nat.log 10 id.toNat=Nat.log 10 id.toNat+1 := Nat.add_comm _ _
  have hpow : 10^(1+Nat.log 10 id.toNat)=multiplier id.toNat := by rw [hcomm]; rfl
  have hle : ∀ i<Nat.log 10 id.toNat,10^(1+i)≤ id.toNat := by
    intro i hi
    refine Nat.pow_le_of_le_log ?_ (by omega)
    intro hzero
    rw [hzero,Nat.log_zero_right] at hi
    omega
  have hloop := loop_pow id 1 (Nat.log 10 id.toNat) 33 (by omega)
    (hpow ▸ (multiplier_le h).trans_lt (by decide)) (hpow ▸ lt_multiplier _) hle
  rw [hpow] at hloop
  exact hloop

/-- The timestamp of a write, as a number. -/
def Writer.value : Writer → ℚ → ℕ
  | .ioThread id,t => milliseconds t*multiplier id.toNat+id.toNat
  | .client,t => ⌊t*10⌋.toNat

/-- The timestamp is that number unless it overflows. -/
theorem timestamp_eq {w : Writer} {t : ℚ} (hid : w.id<10^9) (hrange : w.InRange t) :
    w.timestamp t=some (w.value t) := by
  cases w with
  | ioThread id =>
    have hrange' : milliseconds t*multiplier id.toNat+id.toNat<2^64 := hrange
    have hmult : (UInt32.ofNat (multiplier id.toNat)).toNat=multiplier id.toNat :=
      UInt32.toNat_ofNat_of_lt' ((multiplier_le hid).trans_lt (by decide))
    have htime : milliseconds t<2^64 := by
      have hle := Nat.le_mul_of_pos_right (milliseconds t) (Nat.zero_lt_of_lt (lt_multiplier id.toNat))
      omega
    show (generateTimestamp id (getTime t)).map UInt64.toNat=_
    rw [generateTimestamp,loop_multiplier hid]
    refine congrArg some ?_
    rw [UInt64.toNat_add,UInt64.toNat_mul,UInt32.toNat_toUInt64,UInt32.toNat_toUInt64,hmult,getTime,
      UInt64.toNat_ofNat_of_lt' htime,Nat.mod_add_mod,Nat.mod_eq_of_lt hrange']
    rfl
  | client =>
    show some (⌊t*(10 : ℕ)+(0 : ℕ)⌋.toNat)=some (⌊t*10⌋.toNat)
    rw [Nat.cast_zero,add_zero,Nat.cast_ofNat]

/-- A second later a clock has gone on by its resolution. -/
theorem floor_gap (c : ℕ) {t t' : ℚ} (ht : 0≤t) (h : t+1≤t') :
    ⌊t*c⌋.toNat+c≤⌊t'*c⌋.toNat := by
  have hfloor : ⌊t*c⌋+c≤⌊t'*c⌋ := by
    rw [←Int.floor_add_natCast]
    refine Int.floor_le_floor ?_
    calc t*c+c=(t+1)*c := by rw [add_mul,one_mul]
      _≤t'*c := mul_le_mul_of_nonneg_right h (Nat.cast_nonneg c)
  have hpos : 0≤⌊t*c⌋ := Int.floor_nonneg.mpr (mul_nonneg ht (Nat.cast_nonneg c))
  omega

theorem milliseconds_gap {t t' : ℚ} (ht : 0≤t) (h : t+1≤t') :
    milliseconds t+1000≤ milliseconds t' := floor_gap 1000 ht h

/-- The client's clock is behind that of the I/O threads. -/
theorem client_value_le {t : ℚ} (ht : 0≤t) : Writer.client.value t≤ milliseconds t := by
  refine Int.toNat_le_toNat (Int.floor_le_floor ?_)
  exact mul_le_mul_of_nonneg_left (by norm_num) ht

/-- A writer whose timestamps go at least as far in a second is not behind. -/
theorem value_lt {w w' : Writer} (hscale : w.scale≤w'.scale) {t t' : ℚ} (ht : 0≤t) (h : t+1≤t') :
    w.value t<w'.value t' := by
  cases w with
  | ioThread id =>
    cases w' with
    | ioThread id' =>
      have hscale' : 1000*multiplier id.toNat≤1000*multiplier id'.toNat := hscale
      have hid := lt_multiplier id.toNat
      have hgap := milliseconds_gap ht h
      calc milliseconds t*multiplier id.toNat+id.toNat
          <(milliseconds t+1)*multiplier id.toNat := by rw [Nat.add_mul,Nat.one_mul]; omega
        _≤ milliseconds t'*multiplier id'.toNat := Nat.mul_le_mul (by omega) (by omega)
        _≤ milliseconds t'*multiplier id'.toNat+id'.toNat := Nat.le_add_right _ _
    | client =>
      have hscale' : 1000*multiplier id.toNat≤10 := hscale
      have hid := ten_le_multiplier id.toNat
      omega
  | client =>
    cases w' with
    | ioThread id' =>
      have hgap := milliseconds_gap ht h
      have hid := ten_le_multiplier id'.toNat
      calc Writer.client.value t≤ milliseconds t := client_value_le ht
        _< milliseconds t' := by omega
        _≤ milliseconds t'*multiplier id'.toNat := Nat.le_mul_of_pos_right _ (by omega)
        _≤ milliseconds t'*multiplier id'.toNat+id'.toNat := Nat.le_add_right _ _
    | client =>
      have hgap : ⌊t*10⌋.toNat+10≤⌊t'*10⌋.toNat := floor_gap 10 ht h
      show ⌊t*10⌋.toNat<⌊t'*10⌋.toNat
      omega

/-- Ten seconds after the epoch a writer with larger steps is ahead of what
another writes a second later. -/
theorem value_gt {w w' : Writer} (hscale : w'.scale< w.scale) : w'.value 11<w.value 10 := by
  have hten : milliseconds 10=10000 := by decide +kernel
  have heleven : milliseconds 11=11000 := by decide +kernel
  have hclient : Writer.client.value 11=110 := by decide +kernel
  cases w with
  | ioThread id =>
    cases w' with
    | ioThread id' =>
      have hscale' : 1000*multiplier id'.toNat<1000*multiplier id.toNat := hscale
      have hgap := multiplier_gap (Nat.lt_of_mul_lt_mul_left hscale')
      have hid := lt_multiplier id'.toNat
      show milliseconds 11*multiplier id'.toNat+id'.toNat< milliseconds 10*multiplier id.toNat+id.toNat
      rw [hten,heleven]
      omega
    | client =>
      have hid := ten_le_multiplier id.toNat
      show Writer.client.value 11< milliseconds 10*multiplier id.toNat+id.toNat
      rw [hten,hclient]
      omega
  | client =>
    cases w' with
    | ioThread id' =>
      have hscale' : 1000*multiplier id'.toNat<10 := hscale
      have hid := ten_le_multiplier id'.toNat
      omega
    | client => exact absurd hscale (Nat.lt_irrefl _)

/-- Soon after the epoch no timestamp overflows. -/
theorem inRange_of_le {w : Writer} (hid : w.id<10^9) {t : ℚ} (ht : milliseconds t≤11000) :
    w.InRange t := by
  cases w with
  | ioThread id =>
    have hid' : id.toNat<10^9 := hid
    have hmul := Nat.mul_le_mul ht (multiplier_le hid')
    show milliseconds t*multiplier id.toNat+id.toNat<2^64
    omega
  | client => trivial

/-- Between two writers the later write always wins, as long as no timestamp
overflows, if and only if the timestamps of the earlier do not go further in
a second than those of the later. -/
theorem later_write_wins_iff {w w' : Writer} (hw : w.id<10^9) (hw' : w'.id<10^9) :
    Wins w w' ↔ w.scale≤w'.scale := by
  constructor
  · intro hwins
    by_contra hscale
    have hten : milliseconds 10≤11000 := by decide +kernel
    have heleven : milliseconds 11≤11000 := by decide +kernel
    obtain ⟨s,s',hs,hs',hlt⟩ := hwins 10 11 (by norm_num) (by norm_num)
      (inRange_of_le hw hten) (inRange_of_le hw' heleven)
    rw [timestamp_eq hw (inRange_of_le hw hten)] at hs
    rw [timestamp_eq hw' (inRange_of_le hw' heleven)] at hs'
    have hgt := value_gt (Nat.lt_of_not_le hscale)
    have hvalue := Option.some.inj hs
    have hvalue' := Option.some.inj hs'
    omega
  · intro hscale t t' ht h hrange hrange'
    exact ⟨_,_,timestamp_eq hw hrange,timestamp_eq hw' hrange',value_lt hscale ht h⟩

theorem later_write_wins_client : Wins .client (.ioThread 0) :=
  (later_write_wins_iff (by decide) (by decide)).mpr (by decide)

/-- A client writes an hour after an I/O thread, thread 0 an hour after thread
10, and thread 10000000 twenty seconds after itself, when its timestamp has
overflowed. The earlier timestamps are larger. -/
theorem later_write_loses :
    ((Writer.ioThread 0).timestamp 1700000000=some 17000000000000 ∧
      Writer.client.timestamp 1700003600=some 17000036000) ∧
    ((Writer.ioThread 10).timestamp 1700000000=some 170000000000010 ∧
      (Writer.ioThread 0).timestamp 1700003600=some 17000036000000) ∧
    ((Writer.ioThread 10000000).timestamp 1660206960=some 18446743410333587072 ∧
      (Writer.ioThread 10000000).timestamp 1660206980=some 1336624035456) := by
  decide +kernel

end Pheromone.WriteTimestamps
