import Pheromone.CoordinatorNotify

/-!
# Registrations and operations on buckets and triggers

Registrations and trigger requests end with an update to every known worker,
bucket requests do not. A dependency without target, a parameter that is no
number and an unrecognized trigger type are outside defined behaviour; the
handler then has no result. The clock is read once per request.
-/

namespace Pheromone.CoordinatorOps

open UnorderedContainers CommonNames TriggerPrimitives OperationMessages CoordinatorNotify

/-- How a coordinator thread names itself. -/
structure CoordIdentity where
  /-- Address of the coordinator. -/
  privateIp : Address
  /-- Number of the thread. -/
  threadId : UInt32
  deriving DecidableEq

/-- Send an update to every known worker. -/
def broadcast (st : CoordState) (msg : UpdateCoordMsg) : List CoordOut :=
  st.nodeStatusMap.entries.map fun e => .update e.1 msg

/-- Give a bucket to an application. -/
def ownBucket (app : Str) (bucket : Bucket) (st : CoordState) : CoordState :=
  {st with
    appBucketsMap := st.appBucketsMap.set app ((st.appBucketsMap.getD app ∅).insert bucket)
    bucketAppMap := st.bucketAppMap.set bucket app}

/-- Append a trigger to a bucket. -/
def pushTrigger (bucket : Bucket) (t : Trigger) (st : CoordState) : CoordState :=
  {st with
    bucketTriggersMap := st.bucketTriggersMap.set bucket
      (st.bucketTriggersMap.getD bucket []++[t])}

/-- Separator of the parameters of a dependency. -/
def parameterDelimiter : UInt8 := 44

/-- Bucket of the objects for a target. -/
def dependencyBucket (tgt : Str) : Bucket := str "b_"++tgt

/-- Name of the trigger for a target, with the number of the dependency's kind. -/
def dependencyTriggerName (kind : String) (tgt : Str) : Str := str "t_"++str kind++str "_"++tgt

/-- The trigger of a dependency; a kind without trigger has none. The outer
option is empty where a parameter cannot be read. -/
def dependencyTrigger (now : ℤ) (tgt : Str) (dep : DataDependency) : Option (Option Trigger) :=
  match dep.type with
  | .manyToOne =>
    some (some ⟨tgt,dependencyTriggerName "1" tgt,0,
      .bySet ⟨USet.ofList (dep.srcFunctions.map fun func => str "k_"++func),∅,∅,∅⟩⟩)
  | .kOutOfN => do
    let metadata := split dep.description parameterDelimiter
    let k ← stoi (← metadata[0]?)
    let n ← stoi (← metadata[1]?)
    some (some ⟨tgt,dependencyTriggerName "2" tgt,0,
      .redundant ⟨UInt32.ofInt k,UInt32.ofInt n,0,[]⟩⟩)
  | .periodic => do
    let window ← stoi dep.description
    some (some ⟨tgt,dependencyTriggerName "3" tgt,0,.byTime ⟨UInt32.ofInt window,[],now⟩⟩)
  | _ => some none

/-- What the workers are told of a dependency: always the bucket, and the
trigger unless it is a time trigger. -/
def dependencyEntity (bucket : Bucket) : Option Trigger → TriggerEntity
  | none => {TriggerEntity.unset with bucketName := bucket}
  | some t => if t.getType=.byTime then {TriggerEntity.unset with bucketName := bucket} else
      {TriggerEntity.unset with
        bucketName := bucket
        triggerName := t.triggerName
        triggerOption := UInt32.ofInt t.triggerOption
        primitiveType := t.getType
        primitive := t.dumpPritimive}

/-- Register one dependency: a direct one is only passed on. -/
def registerDependency (app : Str) (now : ℤ)
    (r : CoordState×List DataDependency×List TriggerEntity) (dep : DataDependency) :
    Option (CoordState×List DataDependency×List TriggerEntity) :=
  if dep.type=.direct then some (r.1,r.2.1++[dep],r.2.2)
  else do
    let tgt ← dep.tgtFunctions.head?
    let bucket := dependencyBucket tgt
    let st := ownBucket app bucket r.1
    let t ← dependencyTrigger now tgt dep
    some (t.elim st (fun t => pushTrigger bucket t st),r.2.1,r.2.2++[dependencyEntity bucket t])

/-- The handler of a registration. -/
def appRegisterHandler (self : CoordIdentity) (now : ℤ) (st : CoordState) (reg : AppRegistration) :
    Option (CoordState×List CoordOut) := do
  let r ← reg.dependencies.foldlM (registerDependency reg.appName now) (st,[],[])
  some (r.1,broadcast r.1
    ⟨self.privateIp,self.threadId,reg.appName,reg.functions,r.2.1,r.2.2,0⟩)

/-- The handler of a bucket request. -/
def bucketOpHandler (st : CoordState) (req : BucketOperationRequest) : CoordState×List CoordOut :=
  let respond (error : KVSError) : List CoordOut :=
    [.bucketResponse req.responseAddress ⟨req.bucketName,req.requestId,error⟩]
  match req.operationType with
  | .createBucket =>
    if st.bucketAppMap.contains req.bucketName then (st,respond .bucketExist)
    else (ownBucket req.appName req.bucketName st,respond .success)
  | .deleteBucket =>
    if st.bucketAppMap.contains req.bucketName then
      ({st with
        appBucketsMap := st.appBucketsMap.set req.appName
          ((st.appBucketsMap.getD req.appName ∅).erase req.bucketName)
        bucketAppMap := st.bucketAppMap.erase req.bucketName
        bucketTriggersMap := st.bucketTriggersMap.erase req.bucketName},respond .success)
    else (st,respond .bucketNe)
  | .unrecognized _ => (st,respond .success)

/-- The result of a trigger request: tables, outcome and what the workers
are told. -/
structure TriggerOperation where
  /-- The tables afterwards. -/
  st : CoordState
  /-- The outcome. -/
  error : KVSError
  /-- Kind of the update message. -/
  msgType : UInt32
  triggers : List TriggerEntity

/-- Add a trigger to a registered bucket. -/
def addTriggerOp (now : ℤ) (st : CoordState) (req : TriggerOperationRequest) :
    Option TriggerOperation := do
  let t ← genTriggerPointer req.primitiveType req.triggerName req.primitive now
  let t := t.setTriggerOption req.triggerOption.toInt32.toInt
  some ⟨pushTrigger req.bucketName t st,.success,0,if t.getType=.byTime then [] else
    [{TriggerEntity.unset with
      bucketName := req.bucketName
      triggerName := req.triggerName
      triggerOption := req.triggerOption
      primitiveType := req.primitiveType
      primitive := t.dumpPritimive
      hints := req.hints}]⟩

/-- Delete all triggers of a name from a registered bucket. -/
def deleteTriggerOp (st : CoordState) (req : TriggerOperationRequest) : TriggerOperation :=
  let triggers := st.bucketTriggersMap.getD req.bucketName []
  let st := {st with
    bucketTriggersMap := st.bucketTriggersMap.set req.bucketName
      (triggers.filter fun t => decide (t.triggerName≠req.triggerName))}
  if ∃ t∈triggers,t.triggerName=req.triggerName then
    ⟨st,.success,2,[{TriggerEntity.unset with
      bucketName := req.bucketName
      triggerName := req.triggerName}]⟩
  else ⟨st,.success,0,[]⟩

/-- The change that a trigger request asks for. -/
def triggerOp (now : ℤ) (st : CoordState) (req : TriggerOperationRequest) : Option TriggerOperation :=
  match req.operationType with
  | .addTrigger =>
    if st.bucketAppMap.contains req.bucketName then addTriggerOp now st req
    else some ⟨st,.bucketNe,0,[]⟩
  | .deleteTrigger =>
    if st.bucketAppMap.contains req.bucketName then some (deleteTriggerOp st req)
    else some ⟨st,.bucketNe,0,[]⟩
  | .unrecognized _ => some ⟨st,.success,0,[]⟩

/-- The handler of a trigger request. -/
def triggerOpHandler (self : CoordIdentity) (now : ℤ) (st : CoordState)
    (req : TriggerOperationRequest) : Option (CoordState×List CoordOut) := do
  let r ← triggerOp now st req
  some (r.st,.triggerResponse req.responseAddress
      ⟨req.bucketName,req.triggerName,req.requestId,r.error⟩::
    broadcast r.st ⟨self.privateIp,self.threadId,req.appName,[],[],r.triggers,r.msgType⟩)

end Pheromone.CoordinatorOps
