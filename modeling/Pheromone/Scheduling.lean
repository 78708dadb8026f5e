import Pheromone.SchedulerState

/-!
# Scheduling and forwarding calls

A call goes to a free executor, or is delayed, forwarded or rejected. Only the
scheduling function converts arguments by key into the layout of forwarding.
-/

namespace Pheromone.Scheduling

open CommonNames TriggerPrimitives OperationMessages WorkerUpdates ExecutorPool
open SchedulerState

/-- Objects below this total size are forwarded by value. -/
def forwardDataPackingThreshold : ℕ := 10240

/-- Arguments read three at a time; a shorter rest is read past its end. -/
def triples : List Str → Option (List (Str×Str×Str))
  | [] => some []
  | bucket::sessionKey::size::rest => (triples rest).map ((bucket,sessionKey,size)::·)
  | _ => none

/-- The name of the object in a triple. -/
def tripleName (t : Str×Str×Str) : Str := t.1++kDelimiter++t.2.1

/-- Add up the sizes; a size that is not a number throws, and a total
outside the range of `int` is undefined. -/
def totalDataSize : List (Str×Str×Str) → ℤ → Option ℤ
  | [],total => some total
  | t::rest,total => do
    let size ← stoi t.2.2
    let total := total+size
    if -2147483648≤total ∧ total≤2147483647 then totalDataSize rest total else none

/-- Replace the objects of a call by their values. A mode above two, which
asks for keys only, leaves no argument at all. -/
def realDataArgs (argFlag : ℤ) : List (Str×Str×Str) → SchedState → Outcome (List Str×SchedState)
  | [],st => .ok ([],st)
  | t::rest,st => do
    let r := keyLen st (tripleName t)
    let data ← orFault r.2 (readShm r.2 (tripleName t) r.1.toNat)
    let tail ← realDataArgs argFlag rest r.2
    .ok ((if argFlag=1 then [data] else if argFlag=2 then [t.2.1,data] else [])++tail.1,tail.2)

/-- The arguments with their data for all calls of a request. -/
def realDataArgsVec (argFlag : ℤ) : List (List (Str×Str×Str)) → SchedState →
    Outcome (List (List Str)×SchedState)
  | [],st => .ok ([],st)
  | ts::rest,st => do
    let head ← realDataArgs argFlag ts st
    let tail ← realDataArgsVec argFlag rest head.2
    .ok (head.1::tail.1,tail.2)

/-- The arguments of one forwarded call by key, each with a data address. -/
def keyedArguments (cfg : SchedulerConfig) (argFlag : ℤ) : List (Str×Str×Str) → SchedState →
    List Argument×SchedState
  | [],st => ([],st)
  | t::rest,st =>
    let r := getDataServerAddr cfg st false
    let tail := keyedArguments cfg argFlag rest r.2
    (⟨tripleName t,UInt32.ofInt argFlag,r.1⟩::tail.1,tail.2)

/-- The arguments of one forwarded call. -/
def forwardArguments (cfg : SchedulerConfig) (argFlag : ℤ) (funcArgs : List Str) (st : SchedState) :
    Outcome (List Argument×SchedState) :=
  if argFlag>0 then do
    let ts ← orFault st (triples funcArgs)
    .ok (keyedArguments cfg argFlag ts st)
  else .ok (funcArgs.map fun arg => ⟨arg,UInt32.ofInt argFlag,[]⟩,st)

/-- The forwarded calls with their arguments. -/
def forwardRequests (cfg : SchedulerConfig) (argFlag : ℤ) : List Str → List (List Str) →
    SchedState → Outcome (List FunctionRequest×SchedState)
  | [],_,st => .ok ([],st)
  | _::_,[],st => .error st
  | name::names,args::argsVec,st => do
    let head ← forwardArguments cfg argFlag args st
    let tail ← forwardRequests cfg argFlag names argsVec head.2
    .ok (⟨name,head.1⟩::tail.1,tail.2)

/-- Send calls to the application's coordinator. An unknown application gets
an empty coordinator. -/
def forwardFuncCall (cfg : SchedulerConfig) (st : SchedState) (respAddress : Address)
    (call : ForwardRequest) : Outcome SchedState := do
  let r ← forwardRequests cfg call.argFlag call.funcNames call.funcArgsVec st
  let coord := r.2.tables.appCoordMap.getD call.appName ⟨[],0⟩
  let st := {r.2 with
    tables := {r.2.tables with appCoordMap := r.2.tables.appCoordMap.touch call.appName ⟨[],0⟩}}
  .ok (st.emit (.forward coord
    ⟨call.appName,r.1,cfg.ip,[],respAddress,call.sessionId,true⟩))

/-- Forward calls, with the values of their objects if these are small. -/
def forwardCallViaHelper (cfg : SchedulerConfig) (site : ForwardSite) (st : SchedState)
    (call : ForwardRequest) : Outcome SchedState := do
  let st := st.log (.forwarding site call)
  if call.argFlag>0 then
    let ts ← orFault st (call.funcArgsVec.mapM triples)
    let total ← orFault st (totalDataSize ts.flatten 0)
    if (total%2^32).toNat<forwardDataPackingThreshold then
      let r ← realDataArgsVec call.argFlag ts st
      let c := sessionClient r.2 call.sessionId
      forwardFuncCall cfg c.2 c.1 {call with funcArgsVec := r.1,argFlag := 0}
    else
      let c := sessionClient st call.sessionId
      forwardFuncCall cfg c.2 c.1 call
  else
    let c := sessionClient st call.sessionId
    forwardFuncCall cfg c.2 c.1 call

/-- The call as an executor reads it: type, argument mode, whether the output
is persisted (nobody waits for the session), then the fields. -/
def callMessage (call : Invocation) (client : Address) : Str :=
  [1,UInt8.ofInt (call.argFlag+1),if client=[] then 1 else 2]++call.sessionId++kDelimiter++
    call.funcName++call.funcArgs.flatMap fun arg => kDelimiter++arg

/-- Let the trigger of an identity note a scheduled source call. -/
def notifyPointer (call : Invocation) (id : ℕ) (w : WorkerTables) : WorkerTables :=
  let note : TriggerPointer → TriggerPointer := fun p =>
    if p.id=id then {p with trigger :=
      p.trigger.notifySourceFunc ⟨call.funcName,call.funcArgs,call.argFlag⟩ call.sessionId}
    else p
  {w with
    bucketTriggersMap := w.bucketTriggersMap.mapVals fun ps => ps.map note
    removed := w.removed.map note}

/-- Note a scheduled call for one hint and enqueue its check. -/
def noteHint (call : Invocation) (schedTime : ℤ) (st : SchedState) (hint : RerunTriggerTimeout) :
    SchedState :=
  {st with
    tables := notifyPointer call hint.triggerPtr st.tables
    rerunCheckQueue := st.rerunCheckQueue++
      [⟨schedTime+hint.timeout.toNat*1000000,call.sessionId,hint.triggerPtr⟩]}

/-- Note a scheduled call for all hints of its function. -/
def noteHints (call : Invocation) (schedTime : ℤ) (st : SchedState) : SchedState :=
  let hints := st.tables.funcTriggerTimeoutMap.getD call.funcName []
  let st := {st with
    tables := {st.tables with
      funcTriggerTimeoutMap := st.tables.funcTriggerTimeoutMap.touch call.funcName []}}
  hints.foldl (noteHint call schedTime) st

/-- Cut every argument that holds the delimiter. -/
def flattenArgs (funcArgs : List Str) : List Str :=
  funcArgs.flatMap fun arg => if kDelimiterChar∈arg then split arg kDelimiterChar else [arg]

/-- The arguments under which a call is forwarded. The first argument of a
call by key is read without a check. -/
def overflowArgs (call : Invocation) : Option (List Str) :=
  if call.argFlag>0 then do
    let first ← call.funcArgs.head?
    some (if kDelimiterChar∈first then flattenArgs call.funcArgs else call.funcArgs)
  else some call.funcArgs

/-- Give a call to a free executor, or else delay, forward or reject it. -/
def scheduleFuncCall (cfg : SchedulerConfig) (origin : Origin) (st : SchedState)
    (call : Invocation) : Outcome SchedState :=
  let st := st.log (.scheduled origin call)
  match assignExecutor cfg.toSchedConfig st.pool call.funcName with
  | some (executor,pool) => do
    let c := sessionClient {st with pool := pool} call.sessionId
    let t := readClock cfg c.2
    let st ← sendToExecuter cfg t.2 executor (callMessage call c.1)
    .ok (noteHints call t.1 st)
  | none =>
    let st := {st with pool := lookup st.pool call.funcName}
    if cfg.schedDelayTime>0 then
      let t := readClock cfg st
      .ok {t.2 with delayCallQueue := t.2.delayCallQueue++[⟨call,t.1⟩]}
    else if cfg.rejectExtraReq then .ok st
    else do
      let args ← orFault st (overflowArgs call)
      forwardCallViaHelper cfg .overflow st
        ⟨call.sessionId,call.appName,[call.funcName],[args],call.argFlag⟩

/-- Names with lengths, as the arguments of a call by key. -/
def sizedArgs : List Str → SchedState → List Str×SchedState
  | [],st => ([],st)
  | name::names,st =>
    let r := keyLen st name
    let tail := sizedArgs names r.2
    (name::DelimitedText.decimal r.1.toNat::tail.1,tail.2)

/-- The calls for the actions of one trigger. An action whose values are all
known is called with them; the argument mode stays at zero for the actions
after it. -/
def activeFuncMetadata (bucket : Bucket) : ℤ → List TriggerAction → SchedState →
    List TriggerFunctionMetadata×SchedState
  | _,[],st => ([],st)
  | argFlag,action::rest,st =>
    let names := action.sessionKeys.map fun sessionKey =>
      getLocalObjectName bucket sessionKey.2 sessionKey.1
    match names.mapM fun name => st.keyValMap.find? name with
    | some values =>
      let tail := activeFuncMetadata bucket 0 rest st
      (⟨action.function,values,0⟩::tail.1,tail.2)
    | none =>
      let args := sizedArgs names st
      let tail := activeFuncMetadata bucket argFlag rest args.2
      (⟨action.function,args.1,argFlag⟩::tail.1,tail.2)

/-- The calls for the actions of all triggers. -/
def activeFuncMetadatas (bucket : Bucket) : List (Trigger×List TriggerAction) → SchedState →
    List TriggerFunctionMetadata×SchedState
  | [],st => ([],st)
  | r::rest,st =>
    let head := activeFuncMetadata bucket (r.1.triggerOption+1) r.2 st
    let tail := activeFuncMetadatas bucket rest head.2
    (head.1++tail.1,tail.2)

/-- Advance a bucket's triggers by an object; returns the names of those that
fire and the calls they ask for. -/
def checkObjectArrival (cfg : SchedulerConfig) (st : SchedState) (bk : BucketKey) :
    List Str×List TriggerFunctionMetadata×SchedState :=
  let t := readClock cfg st
  let pointers := st.tables.bucketTriggersMap.getD bk.bucket []
  let results := arrivals t.1 (pointers.map TriggerPointer.trigger) bk
  let st := {t.2 with
    tables := {t.2.tables with
      bucketTriggersMap := t.2.tables.bucketTriggersMap.set bk.bucket
        (pointers.zipWith (fun p r => {p with trigger := r.1}) results)}}
  (firedNames results,activeFuncMetadatas bk.bucket results st)

/-- Schedule one call of a trigger under the bucket's application. -/
def scheduleTriggered (cfg : SchedulerConfig) (bucket : Bucket) (sessionId : Session)
    (st : SchedState) (m : TriggerFunctionMetadata) : Outcome SchedState :=
  let app := st.tables.bucketAppMap.getD bucket []
  let st := {st with
    tables := {st.tables with bucketAppMap := st.tables.bucketAppMap.touch bucket []}}
  scheduleFuncCall cfg .trigger st ⟨sessionId,app,m.funcName,m.funcArgs,m.argFlag⟩

/-- Check an object against the triggers of its bucket and schedule what they
ask for; returns the names of the triggers that fire. -/
def checkTrigger (cfg : SchedulerConfig) (st : SchedState) (bk : BucketKey) (sessionId : Session) :
    Outcome (List Str×SchedState) := do
  let r := checkObjectArrival cfg st bk
  let st ← r.2.1.foldlM (scheduleTriggered cfg bk.bucket sessionId) r.2.2
  .ok (r.1,st)

end Pheromone.Scheduling
