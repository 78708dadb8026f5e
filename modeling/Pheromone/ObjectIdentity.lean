import Pheromone.ObjectDispatch

/-!
# Names of objects as their identity

An object's name joins bucket, key and session. Its parts are found again at
the first delimiter and by the length of the session; shared memory uses the
name up to the end of a C string.
-/

namespace Pheromone.ObjectIdentity

open UnorderedContainers DelimitedText CommonNames SchedulerState SchedulerLoop ObjectTransport
open SchedulingRules ObjectDispatch

/-- The object of a name: the bucket ends at the first delimiter. A name
without one is taken as a whole for both parts. -/
def getBucketKeyFromString (keyName : Str) : BucketKey :=
  let bucket := terminated kDelimiterChar keyName
  let sessionKey := if kDelimiterChar∈keyName then keyName.drop (bucket.length+1) else keyName
  BucketKey.ofSessionKey bucket sessionKey

/-- The name of an object's segment in shared memory, read as a C string. -/
def segmentName (bk : BucketKey) : Str := terminated nulChar bk.shmKeyName

/-- The object that the scheduler makes from a message about an object. -/
def rebuilt (msg : Str) : Option BucketKey :=
  (objectInfo (cString msg 4)).map fun info => BucketKey.ofSessionKey info.bucket info.sessionKey

/-- Objects with a name: the bucket has no delimiter, the key is not empty and
the session has sixteen characters. -/
structure Named (bk : BucketKey) : Prop where
  /-- No delimiter in the bucket. -/
  bucket : kDelimiterChar∉bk.bucket
  key : bk.key≠[]
  /-- A session of the usual length. -/
  session : bk.session.length=16

/-- Nothing that is stored for one object concerns the other one. -/
structure Apart (bk bk' : BucketKey) : Prop where
  /-- Writing the segment of one leaves that of the other. -/
  segment : ∀ (st : SchedState) data,
    (copyToShmObj st (segmentName bk) data).shm.find? (segmentName bk')=
      st.shm.find? (segmentName bk')
  /-- Recording one leaves length and value of the other. -/
  entries : ∀ (st st1 : SchedState) isDataPacking info,info.objName=bk.shmKeyName →
    recordObject st isDataPacking info=.ok st1 →
      st1.keyLenMap.find? bk'.shmKeyName=st.keyLenMap.find? bk'.shmKeyName ∧
      st1.keyValMap.find? bk'.shmKeyName=st.keyValMap.find? bk'.shmKeyName

theorem Named.parsed {bk : BucketKey} (h : Named bk) :
    getBucketKeyFromString bk.shmKeyName=bk := by
  have hname : bk.shmKeyName=bk.bucket++kDelimiterChar::getKeySessionName bk.key bk.session := by
    simp [BucketKey.shmKeyName,getLocalObjectName,kDelimiter]
  have hbucket : terminated kDelimiterChar bk.shmKeyName=bk.bucket := by
    rw [hname,terminated_append h.bucket,terminated,List.takeWhile_cons_of_neg (by simp),
      List.append_nil]
  have hmem : kDelimiterChar∈bk.shmKeyName := by
    rw [hname]
    exact List.mem_append_right _ List.mem_cons_self
  have hrest : bk.shmKeyName.drop (bk.bucket.length+1)=getKeySessionName bk.key bk.session := by
    rw [hname,List.drop_append,List.drop_of_length_le (Nat.le_succ _),Nat.add_sub_cancel_left]
    rfl
  unfold getBucketKeyFromString
  dsimp only
  rw [hbucket,if_pos hmem,hrest]
  exact BucketKey.ofSessionKey_append h.key h.session

theorem Named.injective {bk bk' : BucketKey} (h : Named bk) (h' : Named bk')
    (he : bk.shmKeyName=bk'.shmKeyName) : bk=bk' := by
  rw [←h.parsed,he,h'.parsed]

/-- The text of the message is read up to its end. -/
theorem objectInfo_sendObject {lib : UserLibrary} {bucket key target : Str}
    (hnames : PlainNames lib bucket key target) (value : Str) (output : Bool) :
    objectInfo (cString (sendObject lib
        (createObject bucket key lib.sessionId target value) output).1 4)=
      if terminated nulChar (textOf value)=[] then none
      else some (sentInfo lib bucket key target
        (terminated kDelimiterChar (terminated nulChar (textOf value)))) := by
  have htext : (sendObject lib (createObject bucket key lib.sessionId target value) output).1.drop 4=
      objectFields lib (createObject bucket key lib.sessionId target value)++textOf value := by
    by_cases hsmall : value.length≤ msgDataPackingThreshold <;>
      simp [sendObject,createObject,textOf,hsmall]
  rw [cString,htext]
  exact objectInfo_fields hnames value (textOf value)

/-- The scheduler rebuilds an object exactly if its value can be read. -/
theorem rebuilt_iff {lib : UserLibrary} {bucket key target : Str}
    (hnames : PlainNames lib bucket key target) (hkey : key≠[]) (hsession : lib.sessionId.length=16)
    (value : Str) (output : Bool) :
    rebuilt (sendObject lib (createObject bucket key lib.sessionId target value) output).1=
      some ⟨bucket,key,lib.sessionId⟩ ↔ Legible value := by
  rw [rebuilt,objectInfo_sendObject hnames,legible_iff]
  constructor
  · intro h hempty
    rw [if_pos hempty] at h
    cases h
  · intro hread
    rw [if_neg hread]
    exact congrArg some (BucketKey.ofSessionKey_append hkey hsession)

/-- Different names keep objects apart. -/
theorem apart_of_ne {bk bk' : BucketKey} (hsegment : segmentName bk'≠segmentName bk)
    (hname : bk'.shmKeyName≠bk.shmKeyName) : Apart bk bk' where
  segment st data := by
    show (st.shm.set _ _).find? _=_
    rw [UMap.find?_set,if_neg hsegment]
  entries st st1 isDataPacking info hinfo hrecord := by
    obtain ⟨lens,rfl,hlens⟩ := recordObject_ok hrecord
    refine ⟨hlens _ (hinfo ▸ hname),?_⟩
    show (if isDataPacking=1 then _ else _ : UMap Str Str).find? _=_
    split
    · rw [UMap.find?_set,if_neg (hinfo ▸ hname)]
    · rfl

/-- Different objects are stored apart exactly if their segments have different
names: an object overwrites another one in the same segment. -/
theorem apart_iff {bk bk' : BucketKey} (hname : bk.shmKeyName≠bk'.shmKeyName) :
    Apart bk bk' ↔ segmentName bk≠segmentName bk' := by
  refine ⟨fun hapart hsame => ?_,fun hsegment => apart_of_ne hsegment.symm hname.symm⟩
  have hkept := hapart.segment (SchedState.start sampleConfig 0) []
  have hwritten : (copyToShmObj (SchedState.start sampleConfig 0) (segmentName bk) []).shm.find?
    (segmentName bk)=some [] := UMap.find?_set_self _ _ _
  rw [←hsame,hwritten] at hkept
  cases hkept

/-- A name gives back its object. Different objects have different names, and
are stored apart exactly if the names differ before the end of a C string, as
all names without it do. The scheduler rebuilds the object of a message
exactly if its value can be read. -/
theorem object_names_sound_iff (bk bk' : BucketKey) (lib : UserLibrary) (target value : Str)
    (output : Bool) :
    (Named bk → getBucketKeyFromString bk.shmKeyName=bk) ∧
    (Named bk → Named bk' → bk≠bk' → bk.shmKeyName≠bk'.shmKeyName ∧
      (Apart bk bk' ↔ segmentName bk≠segmentName bk') ∧
      (nulChar∉bk.shmKeyName → nulChar∉bk'.shmKeyName → segmentName bk≠segmentName bk')) ∧
    (Named bk → lib.sessionId=bk.session → PlainNames lib bk.bucket bk.key target →
      (rebuilt (sendObject lib (createObject bk.bucket bk.key bk.session target value) output).1=
        some bk ↔ Legible value)) := by
  refine ⟨fun h => h.parsed,fun h h' hne => ?_,fun h hsession hnames => ?_⟩
  · have hname : bk.shmKeyName≠bk'.shmKeyName := fun he => hne (h.injective h' he)
    refine ⟨hname,apart_iff hname,fun hplain hplain' => ?_⟩
    rw [segmentName,segmentName,terminated_eq_self_iff.mpr hplain,
      terminated_eq_self_iff.mpr hplain']
    exact hname
  · have hiff := rebuilt_iff hnames h.key (hsession ▸ h.session) value output
    rwa [hsession] at hiff

/-- A value of one byte, the end of a C string: the message about it cannot be
read. And two keys that differ after such a byte share their segment. -/
theorem nul_hides_object :
    rebuilt (sendObject sampleLibrary
      (createObject (str "b") (str "k") sampleLibrary.sessionId [] [nulChar]) false).1=none ∧
    segmentName ⟨str "b",str "k"++nulChar::str "1",sampleLibrary.sessionId⟩=
      segmentName ⟨str "b",str "k"++nulChar::str "2",sampleLibrary.sessionId⟩ := by
  constructor <;> decide +kernel

end Pheromone.ObjectIdentity
