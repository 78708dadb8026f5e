import Pheromone.ExecutorPool
import Pheromone.WorkerUpdates

/-!
# The state of a worker's scheduler

The tables of the scheduler and its helper, the shared memory of the node and
a trace of what is sent and scheduled. Where the source reads past a vector,
follows a null pointer or lets an exception escape, a computation ends in a
fault with the state reached. Readings of the clock are numbered, and the
configuration says what each shows, in nanoseconds.
-/

namespace Pheromone.SchedulerState

open UnorderedContainers CommonNames OperationMessages WorkerUpdates ExecutorPool

/-- What a worker is started with. -/
structure SchedulerConfig extends SchedConfig where
  /-- Address of the worker. -/
  ip : Address
  /-- Executors with a channel. -/
  executors : USet UInt8
  /-- Number of I/O threads. -/
  ioThreadCount : UInt32
  /-- Coordinator threads that take status reports. -/
  routingThreads : List HandlerThread
  /-- What every reading of the clock shows. -/
  clock : ℕ → ℤ

/-- A worker by its executors, the delay of its calls, its I/O threads and its
clock. -/
def SchedulerConfig.sample (executors : List UInt8) (schedDelayTime ioThreadCount : UInt32)
    (clock : ℕ → ℤ) : SchedulerConfig :=
  ⟨.sample schedDelayTime,str "10.0.0.1",USet.ofList executors,ioThreadCount,[],clock⟩

/-- A worker with one executor, one I/O thread and a clock that stands still. -/
def sampleConfig : SchedulerConfig := .sample [0] 0 1 fun _ => 0

/-- The arguments of one call of the scheduling function. -/
structure Invocation where
  /-- Session of the call. -/
  sessionId : Session
  /-- Application of the function. -/
  appName : Str
  /-- Function to run. -/
  funcName : Str
  /-- Its arguments, in the layout of the argument mode. -/
  funcArgs : List Str
  /-- Argument mode: 0 for values, otherwise names with sizes. -/
  argFlag : ℤ
  deriving DecidableEq

/-- A call that waits for a free executor. -/
structure DelayFunctionCall extends Invocation where
  /-- Clock reading at which it began to wait. -/
  triggerTime : ℤ
  deriving DecidableEq

/-- A function request with key arguments. -/
structure InflightFuncArgs where
  /-- Function to run. -/
  funcName : Str
  /-- Session of the call. -/
  sessionId : Session
  /-- The keys, in the order of the request. -/
  keyArgs : List Str
  /-- The keys that are still missing. -/
  inflightArgs : USet Str
  /-- Argument mode. -/
  argFlag : ℤ
  deriving DecidableEq

/-- The entry that reading an unknown call creates. -/
def InflightFuncArgs.unset : InflightFuncArgs := ⟨[],[],[],∅,0⟩

/-- A request of an executor that waits for data. -/
structure InflightIORequest where
  executorId : UInt8
  /-- The executor's number for the request. -/
  reqId : UInt8
  deriving DecidableEq

/-- A pending check for re-execution. -/
structure RerunCheckQueueItem where
  /-- When to check. -/
  checkTime : ℤ
  /-- Session to check. -/
  session : Session
  /-- Identity of the trigger to ask. -/
  triggerPtr : ℕ
  deriving DecidableEq

/-- The arguments of one call of the forwarding function. -/
structure ForwardRequest where
  /-- Session of the calls. -/
  sessionId : Session
  /-- Application of the functions. -/
  appName : Str
  /-- Functions to run elsewhere. -/
  funcNames : List Str
  /-- Arguments of each of them. -/
  funcArgsVec : List (List Str)
  /-- Argument mode. -/
  argFlag : ℤ
  deriving DecidableEq

/-- The three places that forward calls: no free executor, a batch of direct
targets that exceeds the free executors, and the end of a call's delay. -/
inductive ForwardSite where
  | overflow
  | batch
  | expiry
  deriving DecidableEq

/-- Who calls the scheduling function: the handling of a request by its
number, a direct dependency, a trigger, the delay loop or the rerun check. -/
inductive Origin where
  | request (callId : UInt32)
  | direct
  | trigger
  | delayed
  | rerun
  deriving DecidableEq

/-- Messages of the scheduler. -/
inductive SchedOut where
  | toExecutor (executor : UInt8) (msg : Str)
  | dataReq (ioThread : UInt32) (key : Str)
  | getKvs (ioThread : UInt32) (key : Str)
  | putKvs (ioThread : UInt32) (key value : Str)
  | forward (coord : HandlerThread) (call : FunctionCall)
  | notify (coord : HandlerThread) (req : KeyNotifyRequest)
  | clientResponse (address : Address) (msg : FunctionCallResponse)
  | status (coord : HandlerThread) (availExecutors : ℕ)
  deriving DecidableEq

/-- What the trace records: requests with key arguments as they arrive, the
calls of the scheduling and of the forwarding function, and messages. -/
inductive SchedEvent where
  | requested (callId : UInt32) (args : InflightFuncArgs)
  | scheduled (origin : Origin) (call : Invocation)
  | forwarding (site : ForwardSite) (call : ForwardRequest)
  | sent (out : SchedOut)
  deriving DecidableEq

/-- The tables of the scheduler and of its helper. -/
structure SchedState where
  /-- Executors and their status. -/
  pool : Pool
  /-- Triggers, applications and coordinators. -/
  tables : WorkerTables
  /-- Calls that wait for a free executor, oldest first. -/
  delayCallQueue : List DelayFunctionCall
  /-- Length of every local object. -/
  keyLenMap : UMap Str UInt32
  /-- Values of small objects. -/
  keyValMap : UMap Str Str
  /-- Client that waits for a session, if any. -/
  sessionClientAddrMap : UMap Session Address
  /-- Pending checks; the one with the smallest time is served first. -/
  rerunCheckQueue : List RerunCheckQueueItem
  /-- Number of the next request. -/
  callId : UInt32
  /-- How many numbers have been used, without the wrapping of the counter;
  only statements refer to it. -/
  issued : ℕ
  /-- Requests that wait for keys. -/
  callIdInflightArgsMap : UMap UInt32 InflightFuncArgs
  /-- Requests that wait for a key. -/
  keyCallIdMap : UMap Str (USet UInt32)
  /-- Executors that wait for an object. -/
  keyRemoteGetMap : UMap Str (List InflightIORequest)
  /-- Executors that wait for a durable write. -/
  keyKsvPutMap : UMap Str (List InflightIORequest)
  /-- Where remote objects are. -/
  keyAddressCache : UMap Str Address
  /-- Last I/O thread that was picked. -/
  ioThreadId : UInt32
  /-- Shared memory segments by name. -/
  shm : UMap Str Str
  /-- Clock readings so far. -/
  tick : ℕ
  /-- What has happened so far, oldest first. -/
  trace : List SchedEvent

/-- A worker at its start. -/
def SchedState.start (cfg : SchedulerConfig) (seed : UInt32) : SchedState :=
  ⟨Pool.start cfg.executors seed,.start,[],∅,∅,∅,[],0,0,∅,∅,∅,∅,∅,0,∅,0,[]⟩

/-- The outcome of a computation: a value, or the state in which it failed. -/
abbrev Outcome (α : Type) := Except SchedState α

/-- Fail where a value is missing. -/
def orFault {α : Type} (st : SchedState) : Option α → Outcome α
  | some a => .ok a
  | none => .error st

/-- Record an event. -/
def SchedState.log (st : SchedState) (e : SchedEvent) : SchedState := {st with trace := st.trace++[e]}

/-- Send a message. -/
def SchedState.emit (st : SchedState) (out : SchedOut) : SchedState := st.log (.sent out)

/-- Read the clock. -/
def readClock (cfg : SchedulerConfig) (st : SchedState) : ℤ×SchedState :=
  (cfg.clock st.tick,{st with tick := st.tick+1})

/-- Write the first bytes of a segment. -/
def copyToShmObj (st : SchedState) (name data : Str) : SchedState :=
  {st with shm := st.shm.set name (data++(st.shm.getD name []).drop data.length)}

/-- Read the first bytes of a segment that has them. -/
def readShm (st : SchedState) (name : Str) (size : ℕ) : Option Str := do
  let data ← st.shm.find? name
  if size≤data.length then some (data.take size) else none

/-- First port of the data servers. -/
def dataAccessServerPort : UInt32 := 4400

/-- Pick the next I/O thread. -/
def getIoThreadId (cfg : SchedulerConfig) (st : SchedState) (excludeMainThread : Bool) :
    UInt32×SchedState :=
  let next := st.ioThreadId+1
  let id := if next%cfg.ioThreadCount=0 then if excludeMainThread then 1 else 0 else next
  (id,{st with ioThreadId := id})

/-- An address under which objects are served. -/
def getDataServerAddr (cfg : SchedulerConfig) (st : SchedState) (excludeMainThread : Bool) :
    Address×SchedState :=
  let r := getIoThreadId cfg st excludeMainThread
  (str "tcp://"++cfg.ip++str ":"++DelimitedText.decimal (r.1+dataAccessServerPort).toNat,r.2)

/-- The thread for an asynchronous request: the main one if it is the only one. -/
def ioThread (cfg : SchedulerConfig) (st : SchedState) : UInt32×SchedState :=
  if cfg.ioThreadCount>1 then getIoThreadId cfg st true else (0,st)

/-- Ask another worker for an object. -/
def sendDataReq (cfg : SchedulerConfig) (st : SchedState) (key : Str) : SchedState :=
  let r := ioThread cfg st
  r.2.emit (.dataReq r.1 key)

/-- Read from the durable store. -/
def getKvsAsync (cfg : SchedulerConfig) (st : SchedState) (key : Str) : SchedState :=
  let r := ioThread cfg st
  r.2.emit (.getKvs r.1 key)

/-- Write to the durable store. -/
def putKvsAsync (cfg : SchedulerConfig) (st : SchedState) (key value : Str) : SchedState :=
  let r := ioThread cfg st
  r.2.emit (.putKvs r.1 key value)

/-- Report an object to the coordinator of its bucket, if there is one. -/
def notifyPut (cfg : SchedulerConfig) (st : SchedState) (bk : BucketKey) (activeTriggers : List Str)
    (respAddress : Address) (payload : Str) : SchedState :=
  match st.tables.bucketCoordMap.find? bk.bucket with
  | none => st
  | some coord =>
    let r := getDataServerAddr cfg st true
    r.2.emit (.notify coord
      ⟨respAddress,[⟨bk.bucket,bk.key,bk.session,[r.1],payload⟩],activeTriggers⟩)

/-- Answer a client. -/
def clientResponse (st : SchedState) (respAddress : Address) (appName outputData : Str) : SchedState :=
  st.emit (.clientResponse respAddress ⟨appName,[],outputData,0⟩)

/-- Report the free executors to all coordinators. -/
def updateStatus (cfg : SchedulerConfig) (st : SchedState) (availExecutors : ℕ) : SchedState :=
  cfg.routingThreads.foldl (fun st coord => st.emit (.status coord availExecutors)) st

/-- Send to an executor's channel; one without a channel is a null pointer. -/
def sendToExecuter (cfg : SchedulerConfig) (st : SchedState) (executor : UInt8) (msg : Str) :
    Outcome SchedState :=
  if executor∈cfg.executors then .ok (st.emit (.toExecutor executor msg)) else .error st

/-- Read the client of a session; an unknown session gets an empty one. -/
def sessionClient (st : SchedState) (session : Session) : Address×SchedState :=
  (st.sessionClientAddrMap.getD session [],
    {st with sessionClientAddrMap := st.sessionClientAddrMap.touch session []})

/-- Read the length of an object; an unknown object gets length zero. -/
def keyLen (st : SchedState) (key : Str) : UInt32×SchedState :=
  (st.keyLenMap.getD key 0,{st with keyLenMap := st.keyLenMap.touch key 0})

/-- The application of a function; an unknown one gets an empty name. -/
def funcApp (st : SchedState) (func : Str) : Str×SchedState :=
  (st.tables.funcAppMap.getD func [],
    {st with tables := {st.tables with funcAppMap := st.tables.funcAppMap.touch func []}})

end Pheromone.SchedulerState
