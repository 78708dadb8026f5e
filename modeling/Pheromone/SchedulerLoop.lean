import Pheromone.Scheduling

/-!
# The scheduler's loop

The handlers, one per kind of message, and the two timed parts are steps of
their own, so that every order is covered. A message of an executor is its
bytes on the shared channel, which appends the byte that ends a C string.
-/

namespace Pheromone.SchedulerLoop

open UnorderedContainers CommonNames TriggerPrimitives OperationMessages WorkerUpdates
open ExecutorPool SchedulerState Scheduling

/-- The fields of a sent object. -/
structure ObjectInfo where
  /-- Session of the sender. -/
  sessionId : Session
  /-- Sending function. -/
  srcFunction : Str
  /-- Function that is to be started directly, if any. -/
  tgtFunction : Str
  /-- Bucket of the object. -/
  bucket : Bucket
  /-- Key and session of the object. -/
  sessionKey : Str
  /-- The value, or its length. -/
  value : Str
  deriving DecidableEq

/-- Name of the object. -/
def ObjectInfo.objName (info : ObjectInfo) : Str := info.bucket++kDelimiter++info.sessionKey

/-- Cut the text of a message into its fields; a text with fewer than six is
rejected and fields after the sixth are ignored. -/
def objectInfo (params : Str) : Option ObjectInfo :=
  match split params kDelimiterChar with
  | sessionId::srcFunction::tgtFunction::bucket::sessionKey::value::_ =>
    some ⟨sessionId,srcFunction,tgtFunction,bucket,sessionKey,value⟩
  | _ => none

/-- Record value and length of a packed object, or the length of one in
shared memory. -/
def recordObject (st : SchedState) (isDataPacking : UInt8) (info : ObjectInfo) :
    Outcome SchedState :=
  if isDataPacking=1 then
    .ok {st with
      keyValMap := st.keyValMap.set info.objName info.value
      keyLenMap := st.keyLenMap.set info.objName (UInt32.ofNat info.value.length)}
  else if isDataPacking=2 then do
    let size ← orFault st (stoi info.value)
    .ok {st with keyLenMap := st.keyLenMap.set info.objName (UInt32.ofInt size)}
  else .ok st

/-- Arguments and argument mode of directly started functions. -/
def directArgs (isDataPacking : UInt8) (info : ObjectInfo) : List Str×ℤ :=
  if isDataPacking=1 then ([info.value],0)
  else if isDataPacking=2 then ([info.objName,info.value],1)
  else ([],1)

/-- Start functions of one application with the same arguments. -/
def scheduleDirect (cfg : SchedulerConfig) (sessionId : Session) (appName : Str)
    (args : List Str×ℤ) (st : SchedState) (func : Str) : Outcome SchedState :=
  scheduleFuncCall cfg .direct st ⟨sessionId,appName,func,args.1,args.2⟩

/-- Start the direct targets of the sender: the named one, or all of them;
those beyond the free executors are forwarded together. -/
def directInvocation (cfg : SchedulerConfig) (st : SchedState) (appName : Str)
    (deps : USet Str) (isDataPacking : UInt8) (info : ObjectInfo) : Outcome SchedState :=
  let args := directArgs isDataPacking info
  if info.tgtFunction=[] then
    let availExecutors := getAvailExecutorNum st.pool.executorStatusMap
    if deps.elems.length>availExecutors then do
      let st ← (deps.elems.take availExecutors).foldlM
        (scheduleDirect cfg info.sessionId appName args) st
      if cfg.rejectExtraReq then .ok st
      else
        let remote := deps.elems.drop availExecutors
        forwardCallViaHelper cfg .batch st
          ⟨info.sessionId,appName,remote,remote.map fun _ => args.1,args.2⟩
    else deps.elems.foldlM (scheduleDirect cfg info.sessionId appName args) st
  else if info.tgtFunction∈deps then
    scheduleDirect cfg info.sessionId appName args st info.tgtFunction
  else .ok st

/-- Check an object against the triggers of its bucket and report it. -/
def triggerCheck (cfg : SchedulerConfig) (st : SchedState) (isDataPacking : UInt8)
    (info : ObjectInfo) : Outcome SchedState := do
  let bk := BucketKey.ofSessionKey info.bucket info.sessionKey
  let r ← checkTrigger cfg st bk info.sessionId
  let st := if isDataPacking=1 then
      let c := sessionClient r.2 info.sessionId
      notifyPut cfg c.2 bk r.1 c.1 info.value
    else if isDataPacking=2 then
      let c := sessionClient r.2 info.sessionId
      notifyPut cfg c.2 bk r.1 c.1 []
    else r.2
  .ok {st with callId := st.callId+UInt32.ofNat r.1.length,issued := st.issued+r.1.length}

/-- An ephemeral object: a function with direct dependencies starts them,
and only the objects of other functions reach the triggers. -/
def recvEphemeral (cfg : SchedulerConfig) (st : SchedState) (isDataPacking : UInt8)
    (info : ObjectInfo) : Outcome SchedState := do
  let st ← recordObject st isDataPacking info
  let app := funcApp st info.srcFunction
  let appInfo := app.2.tables.appInfoMap.getD app.1 .unset
  let st := {app.2 with
    tables := {app.2.tables with appInfoMap := app.2.tables.appInfoMap.touch app.1 .unset}}
  match appInfo.directDeps.find? info.srcFunction with
  | some deps => directInvocation cfg st app.1 deps isDataPacking info
  | none =>
    if info.bucket≠bucketNameDirectInvoc then triggerCheck cfg st isDataPacking info else .ok st

/-- The value of an object sent as output. -/
def outputData (st : SchedState) (isDataPacking : UInt8) (info : ObjectInfo) : Option Str :=
  if isDataPacking=1 then some info.value
  else if isDataPacking=2 then do
    let size ← stoi info.value
    if 0≤ size then readShm st info.objName size.toNat else none
  else some []

/-- An output for the durable store. An object that is neither packed nor in
shared memory writes nothing. -/
def recvPersistent (cfg : SchedulerConfig) (st : SchedState) (executorId reqId isDataPacking : UInt8)
    (info : ObjectInfo) : Outcome SchedState := do
  let output ← orFault st (outputData st isDataPacking info)
  let st := if isDataPacking=1 ∨ isDataPacking=2 then putKvsAsync cfg st info.sessionKey output else st
  .ok {st with
    keyKsvPutMap := st.keyKsvPutMap.set info.sessionKey
      (st.keyKsvPutMap.getD info.sessionKey []++[⟨executorId,reqId⟩])}

/-- An output for the client of the session. -/
def recvOutput (st : SchedState) (isDataPacking : UInt8) (info : ObjectInfo) :
    Outcome SchedState := do
  let output ← orFault st (outputData st isDataPacking info)
  let c := sessionClient st info.sessionId
  let app := funcApp c.2 info.srcFunction
  .ok (clientResponse app.2 c.1 app.1 output)

/-- A sent object of any kind: ephemeral (2), durable (3) or output (4). -/
def recvObject (cfg : SchedulerConfig) (st : SchedState) (executorId kind reqId isDataPacking : UInt8)
    (params : Str) : Outcome SchedState :=
  match objectInfo params with
  | none => .ok st
  | some info =>
    if kind=2 then recvEphemeral cfg st isDataPacking info
    else if kind=3 then recvPersistent cfg st executorId reqId isDataPacking info
    else recvOutput st isDataPacking info

/-- A successful answer to a request. -/
def response (reqId : UInt8) (body : Str) : Str := [3,reqId,1]++body

/-- Let an executor wait for an object. -/
def awaitObject (st : SchedState) (key : Str) (req : InflightIORequest) : SchedState :=
  {st with keyRemoteGetMap := st.keyRemoteGetMap.set key (st.keyRemoteGetMap.getD key []++[req])}

/-- A request for an object: a known one is answered at once, another one is
fetched from a worker or from the durable store. -/
def recvGet (cfg : SchedulerConfig) (st : SchedState) (executorId reqId : UInt8)
    (fromEpheStore : Bool) (keyName : Str) : Outcome SchedState :=
  if fromEpheStore then
    match st.keyLenMap.find? keyName with
    | some size =>
      sendToExecuter cfg st executorId (response reqId (DelimitedText.decimal size.toNat))
    | none => .ok (awaitObject (sendDataReq cfg st keyName) keyName ⟨executorId,reqId⟩)
  else do
    let key ← orFault st (split keyName kDelimiterChar)[1]?
    .ok (awaitObject (getKvsAsync cfg st key) keyName ⟨executorId,reqId⟩)

/-- The bytes from a position up to the end of the C string. -/
def cString (msg : Str) (start : ℕ) : Str := DelimitedText.terminated nulChar (msg.drop start)

/-- Handle a message of an executor by its second byte. -/
def recvExecutor (cfg : SchedulerConfig) (st : SchedState) (msg : Str) : Outcome SchedState := do
  let bytes := msg++[nulChar]
  let address ← orFault st bytes[0]?
  let kind ← orFault st bytes[1]?
  let executorId := address-1
  if kind=1 then
    let store ← orFault st bytes[2]?
    let reqId ← orFault st bytes[3]?
    let size ← orFault st bytes[4]?
    if 5+size.toNat≤bytes.length then
      recvGet cfg st executorId reqId (decide (store=1)) ((bytes.drop 5).take size.toNat)
    else .error st
  else if 2≤kind ∧ kind≤4 then
    let reqId ← orFault st bytes[2]?
    let isDataPacking ← orFault st bytes[3]?
    if 4<bytes.length then recvObject cfg st executorId kind reqId isDataPacking (cString msg 4)
    else .error st
  else if kind=6 then .ok {st with pool := recvReport st.pool executorId .busy}
  else if kind=7 then .ok {st with pool := recvReport st.pool executorId .available}
  else .ok st

/-- Arguments and argument mode of a request: the mode of its last argument
by key. -/
def requestArgs (req : FunctionRequest) : List Str×ℤ :=
  (req.arguments.map Argument.body,
    req.arguments.foldl (fun flag arg => if arg.argFlag>0 then arg.argFlag.toInt32.toInt else flag) 0)

/-- Remember the data addresses of arguments by key; known ones are kept. -/
def cacheAddresses (cache : UMap Str Address) (req : FunctionRequest) : UMap Str Address :=
  req.arguments.foldl (fun cache arg =>
    if arg.argFlag>0 then cache.touch arg.body arg.dataAddress else cache) cache

/-- Fetch the missing keys of a request; a key that a request already waits
for is not asked for again. -/
def fetchKeys (cfg : SchedulerConfig) (callId : UInt32) : List Str → InflightFuncArgs → SchedState →
    InflightFuncArgs×SchedState
  | [],inflight,st => (inflight,st)
  | arg::rest,inflight,st =>
    let inflight := {inflight with keyArgs := inflight.keyArgs++[arg]}
    if st.keyLenMap.contains arg then fetchKeys cfg callId rest inflight st
    else
      let inflight := {inflight with inflightArgs := inflight.inflightArgs.insert arg}
      let st := if st.keyCallIdMap.contains arg then st else sendDataReq cfg st arg
      fetchKeys cfg callId rest inflight {st with
        keyCallIdMap := st.keyCallIdMap.set arg ((st.keyCallIdMap.getD arg ∅).insert callId)}

/-- One function of a call: with values it is scheduled, with keys as soon as
all of them are local. -/
def admitRequest (cfg : SchedulerConfig) (appName : Str) (sessionId : Session) (st : SchedState)
    (req : FunctionRequest) : Outcome SchedState :=
  let args := requestArgs req
  if args.2>0 then
    let r := fetchKeys cfg st.callId args.1 ⟨req.name,sessionId,[],∅,args.2⟩ st
    let st := r.2.log (.requested st.callId r.1)
    if r.1.inflightArgs.elems=[] then
      let full := sizedArgs r.1.keyArgs st
      scheduleFuncCall cfg (.request st.callId) full.2 ⟨sessionId,appName,req.name,full.1,args.2⟩
    else .ok {st with callIdInflightArgsMap := st.callIdInflightArgsMap.set st.callId r.1}
  else scheduleFuncCall cfg (.request st.callId) st ⟨sessionId,appName,req.name,args.1,0⟩

/-- Admit a function request and number the next one. -/
def recvRequest (cfg : SchedulerConfig) (appName : Str) (sessionId : Session) (st : SchedState)
    (req : FunctionRequest) : Outcome SchedState :=
  (admitRequest cfg appName sessionId st req).map fun st =>
    {st with callId := st.callId+1,issued := st.issued+1}

/-- Remember the data addresses and the client of a call. -/
def openCall (st : SchedState) (call : FunctionCall) : SchedState :=
  {st with
    keyAddressCache := call.requests.foldl cacheAddresses st.keyAddressCache
    sessionClientAddrMap := st.sessionClientAddrMap.set call.sessionId call.respAddress}

/-- A call of one or several functions. -/
def recvCall (cfg : SchedulerConfig) (st : SchedState) (call : FunctionCall) : Outcome SchedState :=
  call.requests.foldlM (recvRequest cfg call.appName call.sessionId) (openCall st call)

/-- Answer one waiting executor. -/
def answer (cfg : SchedulerConfig) (body : Str) (st : SchedState) (req : InflightIORequest) :
    Outcome SchedState := sendToExecuter cfg st req.executorId (response req.reqId body)

/-- Answer all executors that wait for an object and forget them. -/
def answerWaiting (cfg : SchedulerConfig) (st : SchedState) (key : Str) (body : Str) :
    Outcome SchedState := do
  let st ← (st.keyRemoteGetMap.getD key []).foldlM (answer cfg body) st
  .ok {st with keyRemoteGetMap := st.keyRemoteGetMap.erase key}

/-- An awaited key has arrived for one request; without further missing keys
the request is scheduled. -/
def arriveKey (cfg : SchedulerConfig) (key : Str) (st : SchedState) (cid : UInt32) :
    Outcome SchedState := do
  let waiting := st.callIdInflightArgsMap.getD cid .unset
  let waiting := {waiting with inflightArgs := waiting.inflightArgs.erase key}
  let st := {st with callIdInflightArgsMap := st.callIdInflightArgsMap.set cid waiting}
  if waiting.inflightArgs.elems=[] then
    let full := sizedArgs waiting.keyArgs st
    let app := funcApp full.2 waiting.funcName
    let st ← scheduleFuncCall cfg (.request cid) app.2
      ⟨waiting.sessionId,app.1,waiting.funcName,full.1,waiting.argFlag⟩
    .ok {st with callIdInflightArgsMap := st.callIdInflightArgsMap.erase cid}
  else .ok st

/-- An object has arrived from another worker. The answer to waiting
executors holds its size as one character. -/
def recvData (cfg : SchedulerConfig) (st : SchedState) (key : Str) (size : UInt32) :
    Outcome SchedState := do
  let st := {st with keyLenMap := st.keyLenMap.set key size}
  let st ← answerWaiting cfg st key [size.toUInt8]
  match st.keyCallIdMap.find? key with
  | none => .ok st
  | some cids => do
    let st ← cids.elems.foldlM (arriveKey cfg key) st
    .ok {st with keyCallIdMap := st.keyCallIdMap.erase key}

/-- The message of a data response: length of the key, key and data. -/
def recvDataMessage (cfg : SchedulerConfig) (st : SchedState) (msg : Str) : Outcome SchedState := do
  let keyLen ← orFault st msg.head?
  let key := (msg.drop 1).take keyLen.toNat
  let data := msg.drop (keyLen.toNat+1)
  if keyLen.toNat+1≤ msg.length then
    recvData cfg (copyToShmObj st key data) key (UInt32.ofNat data.length)
  else .error st

/-- The durable store has returned a value. -/
def recvKvsGet (cfg : SchedulerConfig) (st : SchedState) (key value : Str) : Outcome SchedState :=
  let name := kvsKeyPrefix++kDelimiter++key
  let size := UInt32.ofNat value.length
  let st := copyToShmObj st name value
  answerWaiting cfg {st with keyLenMap := st.keyLenMap.set name size} name
    (DelimitedText.decimal size.toNat)

/-- The durable store has acknowledged a write. -/
def recvKvsPut (cfg : SchedulerConfig) (st : SchedState) (key : Str) : Outcome SchedState := do
  let st ← (st.keyKsvPutMap.getD key []).foldlM (answer cfg []) st
  .ok {st with keyKsvPutMap := st.keyKsvPutMap.erase key}

/-- Schedule delayed calls, at most as many as there are free executors. A
call that finds no executor after all is put back at the end. -/
def retryDelayed (cfg : SchedulerConfig) : ℕ → SchedState → Outcome SchedState
  | 0,st => .ok st
  | avail+1,st => match st.delayCallQueue with
    | [] => .ok st
    | call::_ => do
      let st ← scheduleFuncCall cfg .delayed st call.toInvocation
      retryDelayed cfg avail {st with delayCallQueue := st.delayCallQueue.tail}

/-- Forward a call whose delay is over, in the layout in which it waited. -/
def expireCall (cfg : SchedulerConfig) (st : SchedState) (call : DelayFunctionCall) :
    Outcome SchedState :=
  if cfg.rejectExtraReq then .ok st
  else forwardCallViaHelper cfg .expiry st
    ⟨call.sessionId,call.appName,[call.funcName],[call.funcArgs],call.argFlag⟩

/-- Forward the calls at the front of the queue whose delay is over. -/
def expireDelayed (cfg : SchedulerConfig) (now : ℤ) : List DelayFunctionCall → SchedState →
    Outcome SchedState
  | [],st => .ok {st with delayCallQueue := []}
  | call::rest,st =>
    if Int.tdiv (now-call.triggerTime) 1000>cfg.schedDelayTime.toNat then do
      let st ← expireCall cfg st call
      expireDelayed cfg now rest st
    else .ok {st with delayCallQueue := call::rest}

/-- One pass over the delayed calls. -/
def delayForwarding (cfg : SchedulerConfig) (st : SchedState) : Outcome SchedState :=
  if st.delayCallQueue=[] then .ok st
  else do
    let st ← retryDelayed cfg (getAvailExecutorNum st.pool.executorStatusMap) st
    let t := readClock cfg st
    expireDelayed cfg t.1 t.2.delayCallQueue t.2

/-- The check that is due first; among equal times, the one that was
enqueued first. -/
def firstCheck : List RerunCheckQueueItem → Option RerunCheckQueueItem
  | [] => none
  | item::rest => match firstCheck rest with
    | none => some item
    | some other => if other.checkTime< item.checkTime then some other else some item

/-- The trigger of an identity. -/
def pointerTrigger (w : WorkerTables) (id : ℕ) : Option Trigger :=
  ((w.bucketTriggersMap.entries.flatMap Prod.snd++w.removed).find? fun p => decide (p.id=id)).map
    TriggerPointer.trigger

/-- Execute one remembered call again. -/
def scheduleRerun (cfg : SchedulerConfig) (session : Session) (st : SchedState)
    (m : TriggerFunctionMetadata) : Outcome SchedState :=
  let app := funcApp st m.funcName
  scheduleFuncCall cfg .rerun app.2 ⟨session,app.1,m.funcName,m.funcArgs,m.argFlag⟩

/-- Serve the due checks. The check that is then first is removed, after the
calls of the served one have enqueued their own. Each round takes one unit
of fuel; without any the loop has no outcome. -/
def rerunCheck (cfg : SchedulerConfig) (reportEnd : ℤ) : ℕ → SchedState → Outcome SchedState
  | 0,st => .error st
  | fuel+1,st => match firstCheck st.rerunCheckQueue with
    | none => .ok st
    | some item =>
      if item.checkTime≤ reportEnd then do
        let calls := ((pointerTrigger st.tables item.triggerPtr).map fun t =>
          t.actionForRerun item.session).getD []
        let st ← calls.foldlM (scheduleRerun cfg item.session) st
        rerunCheck cfg reportEnd fuel {st with
          rerunCheckQueue := match firstCheck st.rerunCheckQueue with
            | none => []
            | some top => st.rerunCheckQueue.erase top}
      else .ok st

/-- The periodic part: due checks, then a status report. -/
def reportTimer (cfg : SchedulerConfig) (fuel : ℕ) (st : SchedState) : Outcome SchedState := do
  let t := readClock cfg st
  let st ← rerunCheck cfg t.1 fuel t.2
  .ok (updateStatus cfg st (getAvailExecutorNum st.pool.executorStatusMap))

/-- What can happen at a worker: a message of an executor, an update of a
coordinator, a call, data of another worker, answers of the durable store, a
pass over the delayed calls, the periodic part, and an executor that writes
to shared memory. -/
inductive SchedLabel where
  | executor (msg : Str)
  | update (msg : UpdateCoordMsg)
  | call (msg : FunctionCall)
  | data (msg : Str)
  | kvsGet (key value : Str)
  | kvsPut (key : Str)
  | delay
  | report (fuel : ℕ)
  | write (name data : Str)

/-- The outcome of a step. -/
def outcome (cfg : SchedulerConfig) (st : SchedState) : SchedLabel → Outcome SchedState
  | .executor msg => recvExecutor cfg st msg
  | .update msg =>
    let t := readClock cfg st
    (orFault t.2 (recvUpdate t.1 t.2.tables msg)).map fun w => {t.2 with tables := w}
  | .call msg => recvCall cfg st msg
  | .data msg => recvDataMessage cfg st msg
  | .kvsGet key value => recvKvsGet cfg st key value
  | .kvsPut key => recvKvsPut cfg st key
  | .delay => delayForwarding cfg st
  | .report fuel => reportTimer cfg fuel st
  | .write name data => .ok (copyToShmObj st name data)

/-- A step without fault. -/
def step (cfg : SchedulerConfig) (st : SchedState) (l : SchedLabel) : Option SchedState :=
  (outcome cfg st l).toOption

end Pheromone.SchedulerLoop
