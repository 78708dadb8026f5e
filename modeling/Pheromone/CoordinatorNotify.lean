import Pheromone.OperationMessages

/-!
# The coordinator's notification handler

The coordinator records where reported objects are, advances its replicas of
the triggers, skips those that fired on the worker and routes the remaining
actions. Where the source reads an address that is missing or too short the
handler has no result.
-/

namespace Pheromone.CoordinatorNotify

open UnorderedContainers CommonNames TriggerPrimitives OperationMessages

/-- What the coordinator knows of a worker. -/
structure NodeStatus where
  /-- Free executors, as last reported and reduced by every routed call. -/
  availExecutors : ℤ
  deriving DecidableEq

/-- The entry that reading an unknown node creates. -/
def NodeStatus.unset : NodeStatus := ⟨0⟩

/-- The tables of a coordinator thread. -/
structure CoordState where
  /-- Data servers of every object by bucket and key. -/
  bucketKeyAddressMap : UMap Bucket (UMap Key (USet Address))
  bucketTriggersMap : UMap Bucket (List Trigger)
  /-- Application of every bucket. -/
  bucketAppMap : UMap Bucket Str
  /-- Buckets of every application. -/
  appBucketsMap : UMap Str (USet Bucket)
  /-- Values of small objects by object name. -/
  bucketKeyValMap : UMap Str Str
  /-- Workers that have put objects into a bucket. -/
  bucketNodeMap : UMap Bucket (USet Address)
  /-- Known workers. -/
  nodeStatusMap : UMap Address NodeStatus
  /-- Seed of the thread's random numbers. -/
  seed : UInt32
  deriving DecidableEq

/-- What the coordinator is started with. -/
structure CoordConfig where
  /-- I/O threads per worker. -/
  ioThreadNum : ℕ
  /-- Random numbers of the C library. -/
  randR : UInt32 → UInt32×UInt32
  /-- The place, among the addresses of an object in the order of their
  insertion, where the hash set that holds them begins. -/
  firstPlace : List Address → ℕ

/-- One action of a trigger that was not skipped, with the internal call
built for it and the worker and I/O thread it was sent to. -/
structure Dispatch where
  /-- The trigger right after the arrival. -/
  trigger : Trigger
  action : TriggerAction
  /-- The call built for the action. -/
  call : FunctionCall
  /-- Destination; none when no worker was available. -/
  routed : Option (Address×ℕ)
  deriving DecidableEq

/-- Everything a coordinator does to the outside. -/
inductive CoordOut where
  | dispatch (d : Dispatch)
  | update (node : Address) (msg : UpdateCoordMsg)
  | call (node : Address) (ioThread : ℕ) (msg : FunctionCall)
  | callResponse (address : Address) (msg : FunctionCallResponse)
  | bucketResponse (address : Address) (msg : BucketOperationResponse)
  | triggerResponse (address : Address) (msg : TriggerOperationResponse)
  deriving DecidableEq

/-- The host part of a data server address. -/
def hostOf (ip : Address) : Option Address :=
  if ip.length<6 then none else some (DelimitedText.terminated 58 (ip.drop 6))

/-- Add a data server to an object's addresses. -/
def updateAddress (bk : BucketKey) (addr : Address)
    (m : UMap Bucket (UMap Key (USet Address))) : UMap Bucket (UMap Key (USet Address)) :=
  let keys := m.getD bk.bucket ∅
  m.set bk.bucket (keys.set bk.key ((keys.getD bk.key ∅).insert addr))

/-- Record the worker and the address of an object. -/
def CoordState.recordObject (st : CoordState) (bk : BucketKey) (ip host : Address) : CoordState :=
  {st with
    bucketNodeMap := st.bucketNodeMap.set bk.bucket
      ((st.bucketNodeMap.getD bk.bucket ∅).insert host)
    bucketKeyAddressMap := updateAddress bk ip st.bucketKeyAddressMap}

/-- The first part of the loop body: an object with a payload is recorded
with its value, one without only if its bucket exists. The inner option is
empty where the loop ends with a missing bucket. -/
def registerObject (st : CoordState) (address : BucketKeyAddress) : Option (Option CoordState) := do
  let bk := getBucketKeyFromAddr address
  let ip ← address.ips.head?
  if address.payload≠[] then
    let host ← hostOf ip
    let st := st.recordObject bk ip host
    some (some {st with bucketKeyValMap := st.bucketKeyValMap.set bk.shmKeyName address.payload})
  else if st.bucketAppMap.contains bk.bucket then
    let host ← hostOf ip
    some (some (st.recordObject bk ip host))
  else some none

/-- The values of an action's objects, if all are known. -/
def valToBatch (st : CoordState) (bucket : Bucket) (action : TriggerAction) : Option (List Str) :=
  action.sessionKeys.mapM fun sessionKey =>
    st.bucketKeyValMap.find? (getLocalObjectName bucket sessionKey.2 sessionKey.1)

/-- Every value is followed by the delimiter. -/
def imploded (values : List Str) : Str := values.flatMap fun value => value++kDelimiter

/-- The key arguments of an action: object name, mode and first address. -/
def keyArguments (cfg : CoordConfig) (st : CoordState) (bucket : Bucket) (argFlag : ℤ)
    (action : TriggerAction) : Option (List Argument) :=
  action.sessionKeys.mapM fun sessionKey => do
    let addresses := (st.bucketKeyAddressMap.getD bucket ∅).getD sessionKey.2 ∅
    let dataAddress ← addresses.first cfg.firstPlace
    some ⟨getLocalObjectName bucket sessionKey.2 sessionKey.1,UInt32.ofInt argFlag,dataAddress⟩

/-- The workers that hold the objects of key arguments. -/
def dataNodes (arguments : List Argument) : Option (USet Address) := do
  let hosts ← arguments.mapM fun arg => hostOf arg.dataAddress
  some (USet.ofList hosts)

/-- Arguments and data workers of an action: one joined value if all values
are known, otherwise the object names. -/
def packArguments (cfg : CoordConfig) (st : CoordState) (bucket : Bucket) (argFlag : ℤ)
    (action : TriggerAction) : Option (List Argument×USet Address) :=
  match valToBatch st bucket action with
  | some values => some ([⟨imploded values,0,[]⟩],∅)
  | none => do
    let arguments ← keyArguments cfg st bucket argFlag action
    let nodes ← dataNodes arguments
    some (arguments,nodes)

/-- Running maximum of the free executors: a worker with strictly more than
the best so far replaces it. -/
def mostAvailable : List (Address×NodeStatus) → ℤ×Address → ℤ×Address
  | [],best => best
  | entry::rest,best =>
    mostAvailable rest
      (if entry.2.availExecutors>best.1 then (entry.2.availExecutors,entry.1) else best)

/-- Reading the status of the data workers creates missing entries. -/
def touchNodes (nodes : List Address) (m : UMap Address NodeStatus) : UMap Address NodeStatus :=
  nodes.foldl (fun m ip => m.touch ip .unset) m

/-- The worker for an action: the data worker with most free executors, or
else the worker with most; empty when nobody has a free one. -/
def routedWorker (nodes : USet Address) (m : UMap Address NodeStatus) : Address :=
  let best := mostAvailable (nodes.elems.map fun ip => (ip,m.getD ip .unset)) (0,[])
  if best.2=[] then (mostAvailable m.entries best).2 else best.2

/-- Build and route the internal call of one action. -/
def dispatchAction (cfg : CoordConfig) (req : KeyNotifyRequest) (bk : BucketKey)
    (trigger : Trigger) (st : CoordState) (action : TriggerAction) :
    Option (CoordState×Dispatch) := do
  let bucketAppMap := st.bucketAppMap.touch bk.bucket []
  let st := {st with bucketAppMap := bucketAppMap}
  let (arguments,nodes) ← packArguments cfg st bk.bucket (trigger.triggerOption+1) action
  let call : FunctionCall :=
    ⟨bucketAppMap.getD bk.bucket [],[⟨action.function,arguments⟩],[],[],req.responseAddress,
      bk.session,true⟩
  let nodeStatusMap := touchNodes nodes.elems st.nodeStatusMap
  let worker := routedWorker nodes nodeStatusMap
  if worker=[] then
    some ({st with nodeStatusMap := nodeStatusMap},⟨trigger,action,call,none⟩)
  else
    let draw := cfg.randR st.seed
    let status := nodeStatusMap.getD worker .unset
    some ({st with
        nodeStatusMap := nodeStatusMap.set worker {status with availExecutors := status.availExecutors-1}
        seed := draw.2},
      ⟨trigger,action,call,some (worker,draw.1.toNat%cfg.ioThreadNum)⟩)

/-- Route the actions of one trigger one after the other. -/
def dispatchActions (cfg : CoordConfig) (req : KeyNotifyRequest) (bk : BucketKey)
    (trigger : Trigger) : List TriggerAction → CoordState → Option (CoordState×List Dispatch)
  | [],st => some (st,[])
  | action::rest,st => do
    let (st,d) ← dispatchAction cfg req bk trigger st action
    let (st,ds) ← dispatchActions cfg req bk trigger rest st
    some (st,d::ds)

/-- Route the actions of all triggers that did not fire on the worker. -/
def dispatchResults (cfg : CoordConfig) (req : KeyNotifyRequest) (bk : BucketKey) :
    List (Trigger×List TriggerAction) → CoordState → Option (CoordState×List Dispatch)
  | [],st => some (st,[])
  | r::rest,st => do
    let actions := if r.1.triggerName∈req.activeTriggerNames then [] else r.2
    let (st,ds) ← dispatchActions cfg req bk r.1 actions st
    let (st,es) ← dispatchResults cfg req bk rest st
    some (st,ds++es)

/-- Names whose replicas on the workers have to be cleared: the triggers
that fired here and not on the worker, except time triggers. -/
def triggeredNames (active : List Str) (results : List (Trigger×List TriggerAction)) : List Str :=
  (results.filter fun r =>
    decide (r.1.triggerName∉active) && !r.2.isEmpty && decide (r.1.getType≠.byTime)).map
      fun r => r.1.triggerName

/-- The clear message for a list of triggers. -/
def clearMessage (bk : BucketKey) (names : List Str) : UpdateCoordMsg :=
  ⟨[],0,[],[],[],names.map fun name =>
    {TriggerEntity.unset with bucketName := bk.bucket,triggerName := name,session := bk.session},1⟩

/-- The second part of the loop body: advance all triggers of the bucket,
route what they produced and clear the workers of the bucket. -/
def notifyTriggers (cfg : CoordConfig) (now : ℤ) (req : KeyNotifyRequest) (bk : BucketKey)
    (st : CoordState) : Option (CoordState×List CoordOut) := do
  let results := arrivals now (st.bucketTriggersMap.getD bk.bucket []) bk
  let st := {st with bucketTriggersMap := st.bucketTriggersMap.set bk.bucket (results.map Prod.fst)}
  let (st,dispatches) ← dispatchResults cfg req bk results st
  let names := triggeredNames req.activeTriggerNames results
  let updates := if names=[] then [] else
    (st.bucketNodeMap.getD bk.bucket ∅).elems.map fun ip => CoordOut.update ip (clearMessage bk names)
  some (st,dispatches.map .dispatch++updates)

/-- The loop over the reported objects; a missing bucket ends it. -/
def notifyAddresses (cfg : CoordConfig) (now : ℤ) (req : KeyNotifyRequest) :
    List BucketKeyAddress → CoordState → Option (CoordState×List CoordOut)
  | [],st => some (st,[])
  | address::rest,st => do
    match ← registerObject st address with
    | none => some (st,[])
    | some st =>
      let (st,out) ← notifyTriggers cfg now req (getBucketKeyFromAddr address) st
      let (st,outs) ← notifyAddresses cfg now req rest st
      some (st,out++outs)

/-- The handler of a notification. -/
def notifyHandler (cfg : CoordConfig) (now : ℤ) (st : CoordState) (req : KeyNotifyRequest) :
    Option (CoordState×List CoordOut) := notifyAddresses cfg now req req.addresses st

end Pheromone.CoordinatorNotify
