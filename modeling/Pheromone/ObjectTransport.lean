import Pheromone.SchedulerFrames

/-!
# Objects on the way from a function to the scheduler

A small value travels inside the text message of its object, up to a
delimiter or the end of a C string; of a large one only the length does.
-/

namespace Pheromone.ObjectTransport

open UnorderedContainers FaultingRuns DelimitedText CommonNames SchedulerState SchedulerLoop
open SchedulerFrames

/-- An object of a function: its name, the function to start and the bytes of
its size in shared memory. -/
structure EpheObject where
  /-- Name of the object. -/
  objName : Str
  /-- Function that is to be started directly, if any. -/
  targetFunc : Str
  value : Str
  deriving DecidableEq

/-- An object of a bucket. -/
def createObject (bucket key session target value : Str) : EpheObject :=
  ⟨getLocalObjectName bucket key session,target,value⟩

/-- What the user library of an executor holds during a call. -/
structure UserLibrary where
  /-- Number of the executor's channel. -/
  chanId : UInt8
  /-- Last request number. -/
  rid : UInt8
  /-- The running function. -/
  function : Str
  sessionId : Session
  /-- One if the output is persisted. -/
  persistFlag : UInt8
  deriving DecidableEq

/-- The next request number; it starts again after ninety-nine. -/
def getRequestId (lib : UserLibrary) : UInt8×UserLibrary :=
  let next := lib.rid+1
  let rid := if next%100=0 then 0 else next
  (rid,{lib with rid := rid})

/-- The kind of a message about an object: ephemeral, durable or output. -/
def objectKind (lib : UserLibrary) (output : Bool) : UInt8 :=
  if output then if lib.persistFlag=1 then 3 else 4 else 2

/-- The fields in front of the value, each closed by the delimiter. -/
def objectFields (lib : UserLibrary) (data : EpheObject) : Str :=
  lib.sessionId++kDelimiter++lib.function++kDelimiter++data.targetFunc++kDelimiter++
    data.objName++kDelimiter

/-- The message by which a function sends an object. -/
def sendObject (lib : UserLibrary) (data : EpheObject) (output : Bool) : Str×UserLibrary :=
  let r := getRequestId lib
  let packing := decide (data.value.length≤ msgDataPackingThreshold)
  (lib.chanId::objectKind lib output::r.1::(if packing then 1 else 2)::
    (objectFields lib data++if packing then data.value else decimal data.value.length),r.2)

/-- A message about an object is handled by its text. -/
theorem recvExecutor_sends (cfg : SchedulerConfig) (st : SchedState) {kind : UInt8}
    (hkind : kind≠1 ∧ 2≤kind ∧ kind≤4) (address reqId packing : UInt8)
    (params : Str) : recvExecutor cfg st (address::kind::reqId::packing::params)=
      recvObject cfg st (address-1) kind reqId packing (terminated nulChar params) := by
  simp [recvExecutor,orFault,cString,bind,Except.bind,hkind]

theorem recvExecutor_object (cfg : SchedulerConfig) (st : SchedState) (address reqId packing : UInt8)
    (params : Str) : recvExecutor cfg st (address::2::reqId::packing::params)=
      recvObject cfg st (address-1) 2 reqId packing (terminated nulChar params) :=
  recvExecutor_sends cfg st (by decide) address reqId packing params

/-- Names as the source assumes them: no delimiter and no end of a C string. -/
def Plain (s : Str) : Prop := kDelimiterChar∉s ∧ nulChar∉s

instance (s : Str) : Decidable (Plain s) := inferInstanceAs (Decidable (_∧_))

variable {s : Str}

theorem Plain.append {t : Str} (hs : Plain s) (ht : Plain t) : Plain (s++t) :=
  ⟨by simp [hs.1,ht.1],by simp [hs.2,ht.2]⟩

/-- Fields closed by the delimiter in front of a text. -/
def closed (items : List Str) (s : Str) : Str :=
  items.foldr (fun item rest => item++kDelimiterChar::rest) s

theorem terminated_closed {items : List Str} (h : ∀ item∈items,Plain item) (s : Str) :
    terminated nulChar (closed items s)=closed items (terminated nulChar s) := by
  induction items with
  | nil => rfl
  | cons item items ih =>
    show terminated nulChar (item++kDelimiterChar::closed items s)=_
    have hitem : nulChar∉item++[kDelimiterChar] := by
      have hd : nulChar≠kDelimiterChar := by decide
      simp [(h item List.mem_cons_self).2,hd]
    have hcons : item++kDelimiterChar::closed items s=(item++[kDelimiterChar])++closed items s := by
      simp
    rw [hcons,terminated_append hitem,ih fun x hx => h x (List.mem_cons_of_mem _ hx)]
    simp [closed]

variable {bucket target : Str}

/-- Five plain fields and a text are read as the fields and what the text
shows up to its end and its first delimiter; an empty text is rejected. -/
theorem objectInfo_closed {session source sessionKey : Str}
    (h : ∀ item∈[session,source,target,bucket,sessionKey],Plain item) (s : Str) :
    objectInfo (terminated nulChar (closed [session,source,target,bucket,sessionKey] s))=
      if terminated nulChar s=[] then none
      else some ⟨session,source,target,bucket,sessionKey,
        terminated kDelimiterChar (terminated nulChar s)⟩ := by
  rw [terminated_closed h,objectInfo,split,closed,
    fields_foldr_delim fun item hm => (h item hm).1]
  by_cases hs : terminated nulChar s=[]
  · rw [if_pos hs,hs]
    rfl
  · obtain ⟨items,hi⟩ := fields_head (d:=kDelimiterChar) hs
    rw [if_neg hs,hi]
    rfl

/-- Reading up to two terminators gives back a text exactly when it has neither. -/
theorem terminated_terminated_iff :
    terminated kDelimiterChar (terminated nulChar s)=s ↔ Plain s := by
  constructor
  · intro h
    constructor
    · rw [←h]
      exact not_mem_terminated _ _
    · intro hm
      rw [←h] at hm
      exact not_mem_terminated nulChar s (List.takeWhile_subset _ hm)
  · rintro ⟨hd,hn⟩
    rw [terminated_eq_self_iff.mpr hn,terminated_eq_self_iff.mpr hd]

/-- The message of a sent object, as fields in front of a text. -/
theorem objectFields_closed (lib : UserLibrary) (bucket key target value s : Str) :
    objectFields lib (createObject bucket key lib.sessionId target value)++s=
      closed [lib.sessionId,lib.function,target,bucket,getKeySessionName key lib.sessionId] s := by
  simp [objectFields,createObject,closed,getLocalObjectName,kDelimiter]

/-- The fields that the scheduler should read. -/
def sentInfo (lib : UserLibrary) (bucket key target value : Str) : ObjectInfo :=
  ⟨lib.sessionId,lib.function,target,bucket,getKeySessionName key lib.sessionId,value⟩

/-- The message of a function about an ephemeral object. -/
def objectMessage (lib : UserLibrary) (bucket key target value : Str) : Str :=
  (sendObject lib (createObject bucket key lib.sessionId target value) false).1

/-- The names around a value, all of them plain. -/
structure PlainNames (lib : UserLibrary) (bucket key target : Str) : Prop where
  /-- The session of the function. -/
  session : Plain lib.sessionId
  function : Plain lib.function
  target : Plain target
  bucket : Plain bucket
  key : Plain key

variable {lib : UserLibrary} {key : Str}

/-- What the scheduler reads when a text follows the fields of an object. -/
theorem objectInfo_fields (h : PlainNames lib bucket key target) (value s : Str) :
    objectInfo (terminated nulChar
        (objectFields lib (createObject bucket key lib.sessionId target value)++s))=
      if terminated nulChar s=[] then none
      else some (sentInfo lib bucket key target
        (terminated kDelimiterChar (terminated nulChar s))) := by
  rw [objectFields_closed]
  apply objectInfo_closed
  have hkeySession : Plain (getKeySessionName key lib.sessionId) := h.key.append h.session
  simp only [List.forall_mem_cons,List.not_mem_nil,false_implies,implies_true,and_true]
  exact ⟨h.session,h.function,h.target,h.bucket,hkeySession⟩

/-- A plain text that is not empty is read as the value. -/
theorem objectInfo_plain (h : PlainNames lib bucket key target) (value : Str) (hne : s≠[])
    (hs : Plain s) :
    objectInfo (terminated nulChar
        (objectFields lib (createObject bucket key lib.sessionId target value)++s))=
      some (sentInfo lib bucket key target s) := by
  rw [objectInfo_fields h,if_neg (by rwa [terminated_eq_self_iff.mpr hs.2]),
    terminated_terminated_iff.mpr hs]

/-- How a value is sent: packed, or by its length. -/
def packingOf (value : Str) : UInt8 := if value.length≤ msgDataPackingThreshold then 1 else 2

/-- What is sent of a value. -/
def textOf (value : Str) : Str :=
  if value.length≤ msgDataPackingThreshold then value else decimal value.length

theorem objectMessage_eq (lib : UserLibrary) (bucket key target value : Str) :
    objectMessage lib bucket key target value=
      lib.chanId::2::(getRequestId lib).1::packingOf value::
        (objectFields lib (createObject bucket key lib.sessionId target value)++textOf value) := by
  by_cases hsmall : value.length≤ msgDataPackingThreshold <;>
    simp [objectMessage,sendObject,objectKind,createObject,packingOf,textOf,hsmall]

/-- Numerals are plain. -/
theorem plain_decimal (n : ℕ) : Plain (decimal n) := by
  refine ⟨delimiter_not_mem_decimal n,fun hm => ?_⟩
  have hd := decimal_digit hm
  simp [nulChar] at hd

variable {value : Str}

/-- What is sent of a plain value that is not empty is so, too. -/
theorem textOf_plain (hne : value≠[]) (hplain : Plain value) :
    textOf value≠[] ∧ Plain (textOf value) := by
  unfold textOf
  split
  · exact ⟨hne,hplain⟩
  · exact ⟨decimal_ne_nil _,plain_decimal _⟩

/-- The tables with a sent object: its length, and its value if it is small. -/
def recordedObject (st : SchedState) (name value : Str) : SchedState :=
  {st with
    keyValMap := if value.length≤ msgDataPackingThreshold then st.keyValMap.set name value
      else st.keyValMap
    keyLenMap := st.keyLenMap.set name (UInt32.ofNat value.length)}

variable {info : ObjectInfo}

theorem recordObject_sent (st : SchedState) (hinfo : info.value=textOf value)
    (hsize : value.length<2^31) :
    recordObject st (packingOf value) info=.ok (recordedObject st info.objName value) := by
  unfold recordedObject
  rw [recordObject,hinfo,textOf,packingOf]
  by_cases hsmall : value.length≤ msgDataPackingThreshold
  · rw [if_pos hsmall,if_pos hsmall,if_pos hsmall,if_pos rfl]
  · have hcast : UInt32.ofInt (value.length : ℤ)=UInt32.ofNat value.length := by
      rw [UInt32.ofInt,Int.emod_eq_of_lt (by omega) (by omega),Int.toNat_natCast]
    rw [if_neg hsmall,if_neg hsmall,if_neg hsmall,if_neg (by decide),if_pos rfl,
      stoi_decimal hsize,←hcast]
    rfl

/-- The text of a sent object is read as it was sent. -/
theorem objectInfo_sent (hnames : PlainNames lib bucket key target) (hne : value≠[])
    (hplain : Plain value) :
    objectInfo (cString (objectMessage lib bucket key target value) 4)=
      some (sentInfo lib bucket key target (textOf value)) := by
  rw [objectMessage_eq]
  exact objectInfo_plain hnames value (textOf_plain hne hplain).1 (textOf_plain hne hplain).2

theorem recvExecutor_sent (cfg : SchedulerConfig) (st : SchedState)
    (hnames : PlainNames lib bucket key target) (hne : value≠[]) (hplain : Plain value) :
    recvExecutor cfg st (objectMessage lib bucket key target value)=
      recvEphemeral cfg st (packingOf value) (sentInfo lib bucket key target (textOf value)) := by
  have hinfo := objectInfo_plain hnames value (textOf_plain hne hplain).1 (textOf_plain hne hplain).2
  rw [objectMessage_eq,recvExecutor_object,recvObject,hinfo]
  rfl

/-- What is recorded of an object is still there at the end of the step. -/
theorem recorded_of_objectInfo (cfg : SchedulerConfig) {st st1 : SchedState}
    (address reqId packing : UInt8) {params : Str}
    (h : objectInfo (terminated nulChar params)=some info)
    (hrec : recordObject st packing info=.ok st1) :
    Keeps (fun _ => True) st1
      (endState id (recvExecutor cfg st (address::2::reqId::packing::params))) := by
  have hrun : recvExecutor cfg st (address::2::reqId::packing::params)=
      recvEphemeral cfg st packing info := by
    rw [recvExecutor_object,recvObject,h]
    rfl
  rw [hrun]
  exact (recvEphemeral_keeps (fun _ _ => trivial) hrec).endState

/-- A function sends a packed object: the scheduler reads its fields as they
were sent and has its value and length exactly when the value is not empty
and plain. -/
theorem packed_object_arrives_iff (cfg : SchedulerConfig) (st : SchedState) (lib : UserLibrary)
    (bucket key target value : Str) (hnames : PlainNames lib bucket key target)
    (hsmall : value.length≤ msgDataPackingThreshold) :
    (objectInfo (cString (objectMessage lib bucket key target value) 4)=
          some (sentInfo lib bucket key target value) ∧
        (endState id (recvExecutor cfg st (objectMessage lib bucket key target value))).keyValMap.find?
          (getLocalObjectName bucket key lib.sessionId)=some value ∧
        (endState id (recvExecutor cfg st (objectMessage lib bucket key target value))).keyLenMap.find?
          (getLocalObjectName bucket key lib.sessionId)=some (UInt32.ofNat value.length)) ↔
      value≠[] ∧ Plain value := by
  have hmsg : objectMessage lib bucket key target value=lib.chanId::2::(getRequestId lib).1::1::
      (objectFields lib (createObject bucket key lib.sessionId target value)++value) := by
    simp [objectMessage,sendObject,objectKind,createObject,hsmall]
  rw [hmsg]
  constructor
  · rintro ⟨hread,-,-⟩
    have hread' := (objectInfo_fields hnames value value).symm.trans hread
    split at hread'
    · cases hread'
    · rename_i hne
      have hval : terminated kDelimiterChar (terminated nulChar value)=value :=
        congrArg ObjectInfo.value (Option.some.inj hread')
      have hplain := terminated_terminated_iff.mp hval
      rw [terminated_eq_self_iff.mpr hplain.2] at hne
      exact ⟨hne,hplain⟩
  · rintro ⟨hne,hplain⟩
    have hinfo := objectInfo_plain hnames value hne hplain
    obtain ⟨st1,hrec,hval,hlen⟩ : ∃ st1,
        recordObject st 1 (sentInfo lib bucket key target value)=.ok st1 ∧
        st1.keyValMap.find? (getLocalObjectName bucket key lib.sessionId)=some value ∧
        st1.keyLenMap.find? (getLocalObjectName bucket key lib.sessionId)=
          some (UInt32.ofNat value.length) :=
      ⟨_,rfl,UMap.find?_set_self _ _ _,UMap.find?_set_self _ _ _⟩
    have hkeep := recorded_of_objectInfo cfg lib.chanId (getRequestId lib).1 1 hinfo hrec
    rw [hkeep.keyValMap]
    exact ⟨hinfo,hval,hkeep.keyLenMap _ _ hlen⟩

/-- The length of a large object arrives, for every value whose length is an `int`. -/
theorem large_object_arrives (cfg : SchedulerConfig) (st : SchedState) (lib : UserLibrary)
    (bucket key target value : Str) (hnames : PlainNames lib bucket key target)
    (hlarge : msgDataPackingThreshold<value.length) (hsize : value.length<2^31) :
    (endState id (recvExecutor cfg st (objectMessage lib bucket key target value))).keyLenMap.find?
      (getLocalObjectName bucket key lib.sessionId)=some (UInt32.ofNat value.length) := by
  have htext : textOf value=decimal value.length := if_neg (not_le.mpr hlarge)
  have hinfo : objectInfo (terminated nulChar
      (objectFields lib (createObject bucket key lib.sessionId target value)++textOf value))=
        some (sentInfo lib bucket key target (textOf value)) := by
    rw [htext]
    exact objectInfo_plain hnames value (decimal_ne_nil _) (plain_decimal _)
  have hrec : recordObject st (packingOf value) (sentInfo lib bucket key target (textOf value))=
      .ok (recordedObject st (getLocalObjectName bucket key lib.sessionId) value) :=
    recordObject_sent st rfl hsize
  rw [objectMessage_eq]
  exact (recorded_of_objectInfo cfg lib.chanId (getRequestId lib).1 _ hinfo hrec).keyLenMap _ _
    (UMap.find?_set_self _ _ _)

/-- A function in its first call. -/
def sampleLibrary : UserLibrary := ⟨1,0,str "f",str "0123456789abcdef",1⟩

theorem large_object_arrives_kilobyte :
    (endState id (recvExecutor sampleConfig (.start sampleConfig 1)
      (objectMessage sampleLibrary (str "b") (str "k") [] (.replicate 1025 65)))).keyLenMap.find?
      (getLocalObjectName (str "b") (str "k") sampleLibrary.sessionId)=some 1025 := by
  have h := large_object_arrives sampleConfig (.start sampleConfig 1) sampleLibrary (str "b")
    (str "k") [] (.replicate 1025 65) ⟨by decide,by decide,by decide,by decide,by decide⟩
    (by rw [List.length_replicate]; decide) (by rw [List.length_replicate]; decide)
  rwa [List.length_replicate] at h

theorem packed_object_arrives_iff_plain :
    (endState id (recvExecutor sampleConfig (.start sampleConfig 1)
      (objectMessage sampleLibrary (str "b") (str "k") [] (str "value")))).keyValMap.find?
      (getLocalObjectName (str "b") (str "k") sampleLibrary.sessionId)=some (str "value") :=
  ((packed_object_arrives_iff sampleConfig (.start sampleConfig 1) sampleLibrary (str "b") (str "k")
    [] (str "value") ⟨by decide,by decide,by decide,by decide,by decide⟩ (by decide)).mpr
      ⟨by decide,by decide⟩).2.1

/-- A value with a delimiter is cut, and an empty one is not recorded at all. -/
theorem packed_object_cut :
    (endState id (recvExecutor sampleConfig (.start sampleConfig 1)
      (objectMessage sampleLibrary (str "b") (str "k") [] (str "a|b")))).keyValMap.find?
      (getLocalObjectName (str "b") (str "k") sampleLibrary.sessionId)=some (str "a") ∧
    (endState id (recvExecutor sampleConfig (.start sampleConfig 1)
      (objectMessage sampleLibrary (str "b") (str "k") [] []))).keyValMap.find?
      (getLocalObjectName (str "b") (str "k") sampleLibrary.sessionId)=none := by
  constructor <;> decide +kernel

end Pheromone.ObjectTransport
