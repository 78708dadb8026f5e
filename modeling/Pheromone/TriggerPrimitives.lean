import Pheromone.CommonNames

/-!
# The seven trigger primitives

Each trigger class is a record of its private members; the common base is held
once outside. A serialized primitive is the record of its protobuf fields by
number, and parsing under another type reads the fields of that type. Clock
readings are nanoseconds.
-/

namespace Pheromone.TriggerPrimitives

open UnorderedContainers CommonNames

/-- One function start and the objects it is given. -/
structure TriggerAction where
  /-- Function to start. -/
  function : Str
  /-- Session and key of every object. -/
  sessionKeys : List (Session×Key)
  deriving DecidableEq

/-- A source-function call as it is kept for re-execution. -/
structure TriggerFunctionMetadata where
  /-- Called function. -/
  funcName : Str
  /-- Its arguments in the layout of the call. -/
  funcArgs : List Str
  /-- Argument mode of the call. -/
  argFlag : ℤ
  deriving DecidableEq

/-- One re-execution hint of a trigger. -/
structure RerunMetadata where
  /-- Function that produces an object for the trigger. -/
  sourceFunc : Str
  /-- Key of that object. -/
  sourceKey : Str
  /-- Milliseconds after which the function counts as failed. -/
  timeout : UInt32
  deriving DecidableEq

/-- Primitive types of the protocol; protobuf keeps unrecognized values. -/
inductive PrimitiveType where
  | immediate
  | byName
  | byBatchSize
  | bySet
  | dynamicGroup
  | redundant
  | byTime
  | unrecognized (value : ℤ)
  deriving DecidableEq

/-- Calls waiting for their session's object, by session or object name. -/
abbrev SessionStatusCache := UMap Str TriggerFunctionMetadata

/-- Fires on every object. -/
structure ImmediateTrigger where
  /-- Latest source call of each session. -/
  sessionStatusCache : SessionStatusCache
  deriving DecidableEq

/-- Fires on every object of one key. -/
structure ByNameTrigger where
  keyName : Key
  /-- Latest source call of each session. -/
  sessionStatusCache : SessionStatusCache
  deriving DecidableEq

/-- Fires on every full batch. -/
structure ByBatchSizeTrigger where
  /-- Batch size, a signed `int` of the source. -/
  count : Int32
  /-- Objects of the open batch. -/
  buffer : List (Session×Key)
  /-- Latest source call of each session. -/
  sessionStatusCache : SessionStatusCache
  deriving DecidableEq

/-- Fires when all keys of a set have arrived in a session. -/
structure BySetTrigger where
  /-- The keys to wait for. -/
  keySet : USet Key
  /-- Keys that have arrived, by session. -/
  sessionPreparedKeysMap : UMap Session (USet Key)
  /-- Key produced by each hinted source function. -/
  funcKeyMap : UMap Str Key
  /-- Latest source call of each key and session. -/
  sessionStatusCache : SessionStatusCache
  deriving DecidableEq

/-- Fires once per data group when all control keys have arrived. -/
structure DynamicGroupTrigger where
  /-- Data keys of the open round, by group. -/
  dataGroupKeysMap : UMap Str (USet Key)
  /-- The control keys to wait for. -/
  controlGroup : USet Key
  /-- Control keys of the open round. -/
  curControlKeys : USet Key
  deriving DecidableEq

/-- Fires on the first k of every n objects. -/
structure RedundantTrigger where
  /-- Objects per action. -/
  k : UInt32
  /-- Objects per round. -/
  n : UInt32
  /-- Objects of the open round; it wraps as an `unsigned` does. -/
  count : UInt32
  /-- Objects of the open action. -/
  buffer : List (Session×Key)
  deriving DecidableEq

/-- Fires on the first object after a time window. -/
structure ByTimeTrigger where
  /-- Window in milliseconds. -/
  timeWindow : UInt32
  /-- Objects since the last action. -/
  buffer : List (Session×Key)
  /-- Clock reading at the last action. -/
  lastTriggerStamp : ℤ
  deriving DecidableEq

/-- The state of a trigger of any class. -/
inductive TriggerState where
  | immediate (t : ImmediateTrigger)
  | byName (t : ByNameTrigger)
  | byBatchSize (t : ByBatchSizeTrigger)
  | bySet (t : BySetTrigger)
  | dynamicGroup (t : DynamicGroupTrigger)
  | redundant (t : RedundantTrigger)
  | byTime (t : ByTimeTrigger)
  deriving DecidableEq

/-- A trigger: the members of the base class and the class state. -/
structure Trigger where
  /-- Function started by every action. -/
  targetFunction : Str
  /-- Name within the bucket. -/
  triggerName : Str
  /-- Pass the value (0), key and value (1) or the key only (2). -/
  triggerOption : ℤ
  /-- Members of the class. -/
  state : TriggerState
  deriving DecidableEq

/-- The type of a class state. -/
def TriggerState.getType : TriggerState → PrimitiveType
  | .immediate _ => .immediate
  | .byName _ => .byName
  | .byBatchSize _ => .byBatchSize
  | .bySet _ => .bySet
  | .dynamicGroup _ => .dynamicGroup
  | .redundant _ => .redundant
  | .byTime _ => .byTime

/-- The type recorded in the base class. -/
def Trigger.getType (t : Trigger) : PrimitiveType := t.state.getType

/-- Every object starts the target function with itself. -/
def ImmediateTrigger.actionForNewObject (target : Str) (t : ImmediateTrigger) (bk : BucketKey) :
    ImmediateTrigger×List TriggerAction :=
  (⟨t.sessionStatusCache.erase bk.session⟩,[⟨target,[(bk.session,bk.key)]⟩])

/-- Objects of the key start the target function. -/
def ByNameTrigger.actionForNewObject (target : Str) (t : ByNameTrigger) (bk : BucketKey) :
    ByNameTrigger×List TriggerAction :=
  ({t with sessionStatusCache := t.sessionStatusCache.erase bk.session},
    if bk.key=t.keyName then [⟨target,[(bk.session,bk.key)]⟩] else [])

/-- The batch size as the comparison with `size()` reads it: the signed
value converted to the 64-bit unsigned type. -/
def ByBatchSizeTrigger.threshold (t : ByBatchSizeTrigger) : ℕ := (t.count.toInt%2^64).toNat

/-- A full buffer becomes the action and is emptied. -/
def ByBatchSizeTrigger.actionForNewObject (target : Str) (t : ByBatchSizeTrigger)
    (bk : BucketKey) : ByBatchSizeTrigger×List TriggerAction :=
  let buffer := t.buffer++[(bk.session,bk.key)]
  let cache := t.sessionStatusCache.erase bk.session
  if buffer.length≥t.threshold then ({t with buffer := [],sessionStatusCache := cache},[⟨target,buffer⟩])
  else ({t with buffer := buffer,sessionStatusCache := cache},[])

/-- A key of the set is recorded for its session; the complete session
fires with all keys in the iteration order of the set and is forgotten. -/
def BySetTrigger.actionForNewObject (target : Str) (t : BySetTrigger) (bk : BucketKey) :
    BySetTrigger×List TriggerAction :=
  if bk.key∈t.keySet then
    let prepared := (t.sessionPreparedKeysMap.getD bk.session ∅).insert bk.key
    let cache := t.sessionStatusCache.erase (bk.key++bk.session)
    if prepared.size=t.keySet.size then
      ({t with
          sessionPreparedKeysMap :=
            (t.sessionPreparedKeysMap.set bk.session prepared).erase bk.session
          sessionStatusCache := cache},
        [⟨target,t.keySet.elems.map fun key => (bk.session,key)⟩])
    else
      ({t with
          sessionPreparedKeysMap := t.sessionPreparedKeysMap.set bk.session prepared
          sessionStatusCache := cache},[])
  else (t,[])

/-- Separates the group from the rest of a key. -/
def groupDelimiter : UInt8 := 58

/-- Group of the control keys. -/
def controlGroupPrefix : Str := str "ctrl"

/-- The group of a key: everything before the first delimiter. -/
def groupOf (key : Key) : Str := DelimitedText.terminated groupDelimiter key

/-- Data keys are grouped; the last missing control key fires one action
per group, with the session of that control key, and opens a new round. -/
def DynamicGroupTrigger.actionForNewObject (target : Str) (t : DynamicGroupTrigger)
    (bk : BucketKey) : DynamicGroupTrigger×List TriggerAction :=
  let group := groupOf bk.key
  if group=controlGroupPrefix then
    let control := if bk.key∈t.controlGroup then t.curControlKeys.insert bk.key else t.curControlKeys
    if control.size=t.controlGroup.size then
      ({t with dataGroupKeysMap := ∅,curControlKeys := ∅},
        t.dataGroupKeysMap.entries.map fun groupKeys =>
          ⟨target,groupKeys.2.elems.map fun key => (bk.session,key)⟩)
    else ({t with curControlKeys := control},[])
  else
    ({t with dataGroupKeysMap :=
      t.dataGroupKeysMap.set group ((t.dataGroupKeysMap.getD group ∅).insert bk.key)},[])

/-- The first k objects are buffered and fire together; later ones are
dropped, and one that brings the count to n resets it. -/
def RedundantTrigger.actionForNewObject (target : Str) (t : RedundantTrigger) (bk : BucketKey) :
    RedundantTrigger×List TriggerAction :=
  let count := t.count+1
  if count≤t.k then
    let buffer := t.buffer++[(bk.session,bk.key)]
    if count=t.k then ({t with count := count,buffer := []},[⟨target,buffer⟩])
    else ({t with count := count,buffer := buffer},[])
  else if count≥t.n then ({t with count := 0},[])
  else ({t with count := count},[])

/-- Everything buffered fires with the first object after the window. -/
def ByTimeTrigger.actionForNewObject (target : Str) (now : ℤ) (t : ByTimeTrigger)
    (bk : BucketKey) : ByTimeTrigger×List TriggerAction :=
  let buffer := t.buffer++[(bk.session,bk.key)]
  if Int.tdiv (now-t.lastTriggerStamp) 1000000≥t.timeWindow.toNat then
    ({t with buffer := [],lastTriggerStamp := now},[⟨target,buffer⟩])
  else ({t with buffer := buffer},[])

/-- Arrival at a trigger of any class, at the given clock reading. -/
def TriggerState.actionForNewObject (target : Str) (now : ℤ) (s : TriggerState)
    (bk : BucketKey) : TriggerState×List TriggerAction :=
  match s with
  | .immediate t => let r := t.actionForNewObject target bk; (.immediate r.1,r.2)
  | .byName t => let r := t.actionForNewObject target bk; (.byName r.1,r.2)
  | .byBatchSize t => let r := t.actionForNewObject target bk; (.byBatchSize r.1,r.2)
  | .bySet t => let r := t.actionForNewObject target bk; (.bySet r.1,r.2)
  | .dynamicGroup t => let r := t.actionForNewObject target bk; (.dynamicGroup r.1,r.2)
  | .redundant t => let r := t.actionForNewObject target bk; (.redundant r.1,r.2)
  | .byTime t => let r := t.actionForNewObject target now bk; (.byTime r.1,r.2)

/-- The virtual arrival function of the base class. -/
def Trigger.actionForNewObject (now : ℤ) (t : Trigger) (bk : BucketKey) :
    Trigger×List TriggerAction :=
  let r := t.state.actionForNewObject t.targetFunction now bk
  ({t with state := r.1},r.2)

/-- Arrival at all triggers of a bucket, in the order of the bucket's list. -/
def arrivals (now : ℤ) (triggers : List Trigger) (bk : BucketKey) :
    List (Trigger×List TriggerAction) := triggers.map fun t => t.actionForNewObject now bk

/-- Names of the triggers that fire on an arrival. -/
def firedNames (results : List (Trigger×List TriggerAction)) : List Str :=
  (results.filter fun r => !r.2.isEmpty).map fun r => r.1.triggerName

/-- Clearing a batch drops its buffer and all cached calls, whatever the session. -/
def ByBatchSizeTrigger.clear (t : ByBatchSizeTrigger) : ByBatchSizeTrigger :=
  {t with buffer := [],sessionStatusCache := ∅}

/-- Clearing a set trigger forgets one session. The cache is keyed by key
and session, so erasing the bare session rarely removes a cached call. -/
def BySetTrigger.clear (t : BySetTrigger) (session : Session) : BySetTrigger :=
  {t with
    sessionPreparedKeysMap := t.sessionPreparedKeysMap.erase session
    sessionStatusCache := t.sessionStatusCache.erase session}

/-- Clearing a group trigger drops the open round. -/
def DynamicGroupTrigger.clear (t : DynamicGroupTrigger) : DynamicGroupTrigger :=
  {t with dataGroupKeysMap := ∅,curControlKeys := ∅}

/-- Clearing a redundant trigger counts k objects and drops the buffer. -/
def RedundantTrigger.clear (t : RedundantTrigger) : RedundantTrigger :=
  {t with count := t.count+t.k,buffer := []}

/-- Clearing a time trigger drops its buffer. -/
def ByTimeTrigger.clear (t : ByTimeTrigger) : ByTimeTrigger := {t with buffer := []}

/-- Clear at a trigger of any class. -/
def TriggerState.clear (s : TriggerState) (session : Session) : TriggerState :=
  match s with
  | .immediate t => .immediate t
  | .byName t => .byName t
  | .byBatchSize t => .byBatchSize t.clear
  | .bySet t => .bySet (t.clear session)
  | .dynamicGroup t => .dynamicGroup t.clear
  | .redundant t => .redundant t.clear
  | .byTime t => .byTime t.clear

/-- The virtual clear function of the base class. -/
def Trigger.clear (t : Trigger) (session : Session) : Trigger :=
  {t with state := t.state.clear session}

/-- Remember a source call under its session. -/
def notifySessionCall (cache : SessionStatusCache) (call : TriggerFunctionMetadata)
    (session : Session) : SessionStatusCache := cache.set session call

/-- The remembered source call of a session. -/
def sessionRerun (cache : SessionStatusCache) (session : Session) :
    List TriggerFunctionMetadata := (cache.find? session).toList

/-- A hinted set trigger remembers the call under the hinted key and the
session; a function without hint gets the empty key, which is then stored. -/
def BySetTrigger.notifySourceFunc (t : BySetTrigger) (call : TriggerFunctionMetadata)
    (session : Session) : BySetTrigger :=
  if t.funcKeyMap.isEmpty then t
  else {t with
    funcKeyMap := t.funcKeyMap.touch call.funcName []
    sessionStatusCache := t.sessionStatusCache.set
      (t.funcKeyMap.getD call.funcName []++session) call}

/-- The remembered calls of the set's keys, in the set's iteration order. -/
def BySetTrigger.actionForRerun (t : BySetTrigger) (session : Session) :
    List TriggerFunctionMetadata :=
  if t.funcKeyMap.isEmpty then []
  else t.keySet.elems.filterMap fun key => t.sessionStatusCache.find? (key++session)

/-- The virtual notification of a scheduled source call. -/
def TriggerState.notifySourceFunc (s : TriggerState) (call : TriggerFunctionMetadata)
    (session : Session) : TriggerState :=
  match s with
  | .immediate t => .immediate ⟨notifySessionCall t.sessionStatusCache call session⟩
  | .byName t =>
    .byName {t with sessionStatusCache := notifySessionCall t.sessionStatusCache call session}
  | .byBatchSize t =>
    .byBatchSize {t with sessionStatusCache := notifySessionCall t.sessionStatusCache call session}
  | .bySet t => .bySet (t.notifySourceFunc call session)
  | .dynamicGroup t => .dynamicGroup t
  | .redundant t => .redundant t
  | .byTime t => .byTime t

/-- Notification of a scheduled source call. -/
def Trigger.notifySourceFunc (t : Trigger) (call : TriggerFunctionMetadata)
    (session : Session) : Trigger := {t with state := t.state.notifySourceFunc call session}

/-- The calls to execute again for a session. -/
def Trigger.actionForRerun (t : Trigger) (session : Session) : List TriggerFunctionMetadata :=
  match t.state with
  | .immediate t => sessionRerun t.sessionStatusCache session
  | .byName t => sessionRerun t.sessionStatusCache session
  | .byBatchSize t => sessionRerun t.sessionStatusCache session
  | .bySet t => t.actionForRerun session
  | .dynamicGroup _ => []
  | .redundant _ => []
  | .byTime _ => []

/-- Record the hints; only the set trigger keeps them. -/
def Trigger.setRerunMetadata (t : Trigger) (hints : List RerunMetadata) : Trigger :=
  match t.state with
  | .bySet s => {t with state := .bySet {s with
      funcKeyMap := hints.foldl (fun m hint => m.set hint.sourceFunc hint.sourceKey) s.funcKeyMap}}
  | _ => t

/-- The fields of a serialized primitive by number and wire type. -/
structure PrimitiveFields where
  /-- Field one: the target function. -/
  function : Str
  /-- Occurrences of field two as text: the key name, the key set or the control group. -/
  texts : List Str
  /-- Field two as a number: the count, k or the time window. -/
  number : UInt32
  /-- Field three: n. -/
  total : UInt32
  deriving DecidableEq

/-- A singular text field keeps its last occurrence. -/
def PrimitiveFields.text (p : PrimitiveFields) : Str := p.texts.getLastD []

/-- Serialize the configuration of a trigger. -/
def Trigger.dumpPritimive (t : Trigger) : PrimitiveFields :=
  match t.state with
  | .immediate _ => ⟨t.targetFunction,[],0,0⟩
  | .byName s => ⟨t.targetFunction,[s.keyName],0,0⟩
  | .byBatchSize s => ⟨t.targetFunction,[],s.count.toUInt32,0⟩
  | .bySet s => ⟨t.targetFunction,s.keySet.elems,0,0⟩
  | .dynamicGroup s => ⟨t.targetFunction,s.controlGroup.elems,0,0⟩
  | .redundant s => ⟨t.targetFunction,[],s.k,s.n⟩
  | .byTime s => ⟨t.targetFunction,[],s.timeWindow,0⟩

/-- A fresh class state for a primitive; unrecognized types have none. -/
def genTriggerState (type : PrimitiveType) (p : PrimitiveFields) (now : ℤ) : Option TriggerState :=
  match type with
  | .immediate => some (.immediate ⟨∅⟩)
  | .byName => some (.byName ⟨p.text,∅⟩)
  | .byBatchSize => some (.byBatchSize ⟨p.number.toInt32,[],∅⟩)
  | .bySet => some (.bySet ⟨USet.ofList p.texts,∅,∅,∅⟩)
  | .dynamicGroup => some (.dynamicGroup ⟨∅,USet.ofList p.texts,∅⟩)
  | .redundant => some (.redundant ⟨p.number,p.total,0,[]⟩)
  | .byTime => some (.byTime ⟨p.number,[],now⟩)
  | .unrecognized _ => none

/-- Build a trigger with option zero from serialized data; the null pointer
of an unrecognized type is `none`. -/
def genTriggerPointer (type : PrimitiveType) (triggerName : Str) (p : PrimitiveFields)
    (now : ℤ) : Option Trigger :=
  (genTriggerState type p now).map fun s => ⟨p.function,triggerName,0,s⟩

/-- Set the option after construction. -/
def Trigger.setTriggerOption (t : Trigger) (option : ℤ) : Trigger := {t with triggerOption := option}

end Pheromone.TriggerPrimitives
