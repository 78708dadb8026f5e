import Pheromone.TriggerPrimitives

/-!
# Messages between clients, coordinators and workers

The protobuf messages as records of the fields that the handlers read or
write. Serialization and parsing are the identity on them. Enumerations
keep the values they do not recognize, as protobuf does.
-/

namespace Pheromone.OperationMessages

open CommonNames TriggerPrimitives

/-- Error codes of the store interface. -/
inductive KVSError where
  | success
  | bucketNe
  | keyNe
  | sessionNe
  | kvsNd
  | typeNm
  | bucketExist
  | reqTimeout
  deriving DecidableEq

/-- One function argument: a value or the name of an object. -/
structure Argument where
  /-- The value, or the object name. -/
  body : Str
  /-- Zero for a value, otherwise the argument mode. -/
  argFlag : UInt32
  /-- Data server that holds a named object. -/
  dataAddress : Address
  deriving DecidableEq

/-- One function of a call with its arguments. -/
structure FunctionRequest where
  /-- Function to run. -/
  name : Str
  arguments : List Argument
  deriving DecidableEq

/-- A call of one or several functions of an application. -/
structure FunctionCall where
  /-- Application of the functions. -/
  appName : Str
  /-- The functions to run. -/
  requests : List FunctionRequest
  /-- Worker that forwards the call, if any. -/
  source : Str
  /-- Identifier chosen by the client. -/
  requestId : Str
  /-- Where a synchronous client waits. -/
  respAddress : Address
  /-- Session of the whole application call. -/
  sessionId : Session
  /-- Whether scheduler and coordinator synchronize on the data. -/
  syncDataStatus : Bool
  deriving DecidableEq

/-- Answer to a client's call. -/
structure FunctionCallResponse where
  /-- Application of the call. -/
  appName : Str
  /-- Identifier of the answered call. -/
  requestId : Str
  /-- Output of the call. -/
  output : Str
  /-- Zero on success. -/
  errorNo : UInt32
  deriving DecidableEq

/-- Re-execution hint of a trigger. -/
structure RerunHint where
  /-- Function whose failure is to be detected. -/
  sourceFunction : Str
  /-- Key which that function produces. -/
  sourceKey : Str
  /-- Milliseconds to wait. -/
  timeout : UInt32
  deriving DecidableEq

/-- A trigger, or a reference to one, inside an update message. -/
structure TriggerEntity where
  /-- Bucket of the trigger. -/
  bucketName : Bucket
  triggerName : Str
  /-- Option of an added trigger. -/
  triggerOption : UInt32
  /-- Type of an added trigger. -/
  primitiveType : PrimitiveType
  /-- Configuration of an added trigger. -/
  primitive : PrimitiveFields
  /-- Session to clear. -/
  session : Session
  /-- Re-execution hints of an added trigger. -/
  hints : List RerunHint
  deriving DecidableEq

/-- The entity protobuf builds before any field is set. -/
def TriggerEntity.unset : TriggerEntity := ⟨[],[],0,.immediate,⟨[],[],0,0⟩,[],[]⟩

/-- Kinds of dependency between functions. -/
inductive DependencyType where
  | direct
  | manyToOne
  | kOutOfN
  | periodic
  | unrecognized (value : ℤ)
  deriving DecidableEq

/-- A dependency of an application. -/
structure DataDependency where
  /-- Kind of the dependency. -/
  type : DependencyType
  /-- Functions that produce. -/
  srcFunctions : List Str
  /-- Functions that consume. -/
  tgtFunctions : List Str
  /-- Parameters of the kind. -/
  description : Str
  deriving DecidableEq

/-- Registration of an application. -/
structure AppRegistration where
  /-- Name of the application. -/
  appName : Str
  functions : List Str
  dependencies : List DataDependency
  deriving DecidableEq

/-- Coordinator to worker: type zero adds, one clears and two deletes triggers. -/
structure UpdateCoordMsg where
  /-- Address of the sending coordinator. -/
  ip : Address
  /-- Thread of the sending coordinator. -/
  threadId : UInt32
  /-- Application concerned. -/
  appName : Str
  /-- Functions of a registration. -/
  functions : List Str
  /-- Direct dependencies of a registration. -/
  dependencies : List DataDependency
  /-- Triggers concerned. -/
  triggers : List TriggerEntity
  /-- Kind of the update. -/
  msgType : UInt32
  deriving DecidableEq

/-- An object, the addresses that hold it and possibly its value. -/
structure BucketKeyAddress where
  /-- Bucket of the object. -/
  bucket : Bucket
  /-- Key of the object. -/
  key : Key
  /-- Session of the object. -/
  session : Session
  /-- Data servers that hold it. -/
  ips : List Address
  /-- The value of a small object. -/
  payload : Str
  deriving DecidableEq

/-- The object an address entry is about. -/
def getBucketKeyFromAddr (addr : BucketKeyAddress) : BucketKey := ⟨addr.bucket,addr.key,addr.session⟩

/-- Worker to coordinator: objects were put. -/
structure KeyNotifyRequest where
  /-- Client address of the session. -/
  responseAddress : Address
  /-- The objects. -/
  addresses : List BucketKeyAddress
  /-- Triggers that have already fired on the worker. -/
  activeTriggerNames : List Str
  deriving DecidableEq

/-- Operations on buckets. -/
inductive BucketOperationType where
  | createBucket
  | deleteBucket
  | unrecognized (value : ℤ)
  deriving DecidableEq

/-- Client request on a bucket. -/
structure BucketOperationRequest where
  /-- Requested operation. -/
  operationType : BucketOperationType
  /-- Application of the client. -/
  appName : Str
  /-- Bucket concerned. -/
  bucketName : Bucket
  /-- Identifier chosen by the client. -/
  requestId : Str
  /-- Where the client waits. -/
  responseAddress : Address
  deriving DecidableEq

/-- Answer to a bucket request. -/
structure BucketOperationResponse where
  /-- Bucket concerned. -/
  bucketName : Bucket
  /-- Identifier of the request. -/
  responseId : Str
  /-- Outcome; success is also the value of an unset field. -/
  error : KVSError
  deriving DecidableEq

/-- Operations on triggers. -/
inductive TriggerOperationType where
  | addTrigger
  | deleteTrigger
  | unrecognized (value : ℤ)
  deriving DecidableEq

/-- Client request on a trigger. -/
structure TriggerOperationRequest where
  /-- Requested operation. -/
  operationType : TriggerOperationType
  /-- Application of the client. -/
  appName : Str
  /-- Bucket of the trigger. -/
  bucketName : Bucket
  triggerName : Str
  /-- Option of an added trigger. -/
  triggerOption : UInt32
  /-- Type of an added trigger. -/
  primitiveType : PrimitiveType
  /-- Configuration of an added trigger. -/
  primitive : PrimitiveFields
  /-- Identifier chosen by the client. -/
  requestId : Str
  /-- Where the client waits. -/
  responseAddress : Address
  /-- Re-execution hints of an added trigger. -/
  hints : List RerunHint
  deriving DecidableEq

/-- Answer to a trigger request. -/
structure TriggerOperationResponse where
  /-- Bucket of the trigger. -/
  bucketName : Bucket
  triggerName : Str
  /-- Identifier of the request. -/
  responseId : Str
  /-- Outcome; success is also the value of an unset field. -/
  error : KVSError
  deriving DecidableEq

end Pheromone.OperationMessages
