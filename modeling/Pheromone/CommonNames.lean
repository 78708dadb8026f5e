import Pheromone.UnorderedContainers
import Pheromone.DelimitedText

/-!
# Byte strings, object names and shared helpers

A `string` of the source is a list of bytes. Object names join the bucket
and the session-suffixed key with the delimiter. The pseudo-random source of
the C library enters as a parameter.
-/

namespace Pheromone.CommonNames

open DelimitedText

/-- A byte string. -/
abbrev Str := List UInt8

/-- Equality of texts is decided character by character. -/
instance : LawfulBEq Str := inferInstance

abbrev Key := Str
abbrev Bucket := Str
abbrev Session := Str
abbrev Address := Str

/-- The bytes of a literal. -/
def str (s : String) : Str := s.toUTF8.data.toList

/-- The field delimiter of object names and of all text messages. -/
def kDelimiterChar : UInt8 := 124

/-- The delimiter as a string. -/
def kDelimiter : Str := [kDelimiterChar]

/-- The byte that ends a C string. -/
def nulChar : UInt8 := 0

/-- Objects up to this size travel inside the notification. -/
def msgDataPackingThreshold : ℕ := 1024

/-- Bucket of objects that only serve direct invocation. -/
def bucketNameDirectInvoc : Bucket := str "direct_invoc"

/-- Pseudo bucket under which durable objects are cached. -/
def kvsKeyPrefix : Str := str "KVS"

/-- Key with its session appended. -/
def getKeySessionName (key session : Str) : Str := key++session

/-- Name of an object in shared memory and in all object tables. -/
def getLocalObjectName (bucket key session : Str) : Str :=
  bucket++kDelimiter++getKeySessionName key session

/-- An object's bucket, key and session. -/
structure BucketKey where
  /-- Bucket the object was put into. -/
  bucket : Bucket
  /-- Key without the session. -/
  key : Key
  /-- Session of the producing function. -/
  session : Session
  deriving DecidableEq

/-- Cut a session key at its last sixteen bytes. A session key of at most
sixteen bytes leaves both the key and the session empty. -/
def BucketKey.ofSessionKey (bucket sessionKey : Str) : BucketKey :=
  let keySize := sessionKey.length
  if keySize>16 then
    ⟨bucket,sessionKey.take (keySize-16),sessionKey.drop (keySize-16)⟩
  else ⟨bucket,[],[]⟩

/-- The cut concerns the session key only. -/
theorem BucketKey.ofSessionKey_bucket (bucket sessionKey : Str) :
    (BucketKey.ofSessionKey bucket sessionKey).bucket=bucket := by
  unfold BucketKey.ofSessionKey
  dsimp only
  split <;> rfl

/-- The name used in shared memory. -/
def BucketKey.shmKeyName (bk : BucketKey) : Str := getLocalObjectName bk.bucket bk.key bk.session

/-- A session key of more than sixteen bytes is cut without loss. -/
theorem BucketKey.shmKeyName_ofSessionKey {sessionKey : Str} (h : 16<sessionKey.length)
    (bucket : Str) : (BucketKey.ofSessionKey bucket sessionKey).shmKeyName=
      bucket++kDelimiter++sessionKey := by
  rw [BucketKey.ofSessionKey,if_pos h,BucketKey.shmKeyName,getLocalObjectName,getKeySessionName,
    List.take_append_drop]

/-- Cutting the suffixed key of a sixteen-byte session recovers both parts. -/
theorem BucketKey.ofSessionKey_append {bucket key session : Str} (hk : key≠[])
    (hs : session.length=16) :
    BucketKey.ofSessionKey bucket (getKeySessionName key session)=⟨bucket,key,session⟩ := by
  have hp : 0<key.length := List.length_pos_iff.mpr hk
  have hl : (key++session).length-16=key.length := by
    rw [List.length_append,hs]
    omega
  rw [BucketKey.ofSessionKey,getKeySessionName]
  rw [if_pos (by rw [List.length_append,hs]; omega),hl,List.take_left,List.drop_left]

/-- Extract the delimited items of a string. -/
def split (s : Str) (delim : UInt8) : List Str := fields delim s

/-- Whether a byte is skipped in front of a number. -/
def isSpace (c : UInt8) : Bool := c=32 || (9≤ c && c≤13)

/-- Decimal conversion of a string. It has no value where the library
throws: no digit to read, or a number outside the range of `int`. -/
def stoi (s : Str) : Option ℤ :=
  let body := s.dropWhile isSpace
  let (negative,digits) : Bool×List ℕ := match body with
    | 45::rest => (true,leadingDigits rest)
    | 43::rest => (false,leadingDigits rest)
    | rest => (false,leadingDigits rest)
  if digits=[] then none
  else
    let value : ℤ := if negative then -(digitsNumber digits : ℤ) else digitsNumber digits
    if -2147483648≤value ∧ value≤2147483647 then some value else none

theorem dropWhile_isSpace_decimal (n : ℕ) : (decimal n).dropWhile isSpace=decimal n := by
  cases hd : decimal n with
  | nil => rfl
  | cons c s =>
    have hc : 48≤ c.toNat ∧ c.toNat≤57 := decimal_digit (by rw [hd]; exact List.mem_cons_self)
    have hs : isSpace c=false := by
      have h32 : c≠32 := by rintro rfl; simp at hc
      have h13 : ¬c≤13 := by
        rw [UInt8.le_iff_toNat_le]
        show ¬c.toNat≤13
        omega
      simp [isSpace,h32,h13]
    rw [List.dropWhile_cons,hs,if_neg Bool.false_ne_true]

/-- The numeral of a number in the range of `int` converts back to it. -/
theorem stoi_decimal {n : ℕ} (h : n<2^31) : stoi (decimal n)=some (n : ℤ) := by
  have hv := decimal_value n
  have hb : ∀ c s,decimal n=c::s → c≠45 ∧ c≠43 := by
    intro c s he
    have hc : 48≤ c.toNat ∧ c.toNat≤57 := decimal_digit (by rw [he]; exact List.mem_cons_self)
    constructor <;> rintro rfl <;> simp at hc
  have hd : leadingDigits (decimal n)≠[] := by
    cases he : decimal n with
    | nil => exact absurd he (decimal_ne_nil n)
    | cons c s =>
      have hc : 48≤ c.toNat ∧ c.toNat≤57 := decimal_digit (by rw [he]; exact List.mem_cons_self)
      rw [leadingDigits,digitValue,if_pos hc]
      exact List.cons_ne_nil _ _
  have hm : (match decimal n with
      | 45::rest => (true,leadingDigits rest)
      | 43::rest => (false,leadingDigits rest)
      | rest => (false,leadingDigits rest))=(false,leadingDigits (decimal n)) := by
    cases he : decimal n with
    | nil => rfl
    | cons c s =>
      obtain ⟨h45,h43⟩ := hb c s he
      split
      · rename_i heq
        exact absurd (List.cons.inj heq).1 h45
      · rename_i heq
        exact absurd (List.cons.inj heq).1 h43
      · rfl
  unfold stoi
  dsimp only
  rw [dropWhile_isSpace_decimal,hm]
  dsimp only
  rw [if_neg hd,hv,if_neg Bool.false_ne_true,if_pos (by omega)]

/-- Numerals hold no delimiter. -/
theorem delimiter_not_mem_decimal (n : ℕ) : kDelimiterChar∉decimal n := by
  intro hm
  have hd := decimal_digit hm
  simp [kDelimiterChar] at hd

section Random

variable (randR : UInt32 → UInt32×UInt32)

/-- The sixty-two letters of generated identifiers. -/
def alphaNum : Str := str "0123456789ABCDEFGHIJKLMNOPQRSTUVWXYZabcdefghijklmnopqrstuvwxyz"

/-- Draw an identifier of the given length, advancing the seed once per letter. -/
def genRandom (seed : UInt32) : ℕ → Str×UInt32
  | 0 => ([],seed)
  | len+1 =>
    let draw := randR seed
    let tail := genRandom draw.2 len
    (alphaNum.getD (draw.1.toNat%62) 0::tail.1,tail.2)

/-- The identifier has exactly the requested length. -/
theorem genRandom_length (seed : UInt32) (len : ℕ) : (genRandom randR seed len).1.length=len := by
  induction len generalizing seed with
  | zero => rfl
  | succ len ih =>
    rw [genRandom]
    dsimp only
    rw [List.length_cons,ih]

end Random

end Pheromone.CommonNames
