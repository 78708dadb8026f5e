import Pheromone.KeyedQueues
import Pheromone.ObjectDispatch

/-!
# Requests of functions for objects

A known object is answered at once, others are looked up elsewhere. A lookup
that finds nothing sends no message, and its request is never answered.
-/

namespace Pheromone.ObjectRequests

open UnorderedContainers KeyedQueues GuardedRuns FaultingRuns DelimitedText CommonNames
open SchedulerState Scheduling SchedulerLoop SchedulingRules ObjectTransport ObjectDispatch

/-- Name under which a function asks for an object. -/
def requestName (lib : UserLibrary) (bucket key : Str) (fromEpheStore : Bool) : Str :=
  if fromEpheStore then getLocalObjectName bucket key lib.sessionId
  else kvsKeyPrefix++kDelimiter++key

/-- The message by which a function asks for an object; the length of the
name is one byte. -/
def getObject (lib : UserLibrary) (bucket key : Str) (fromEpheStore : Bool) : Str×UserLibrary :=
  let name := requestName lib bucket key fromEpheStore
  let r := getRequestId lib
  (lib.chanId::1::(if fromEpheStore then 1 else 2)::r.1::UInt8.ofNat name.length::name,r.2)

/-- A request of a function for an object. -/
structure GetRequest where
  /-- The asking executor. -/
  lib : UserLibrary
  /-- Bucket of the object. -/
  bucket : Str
  /-- Key of the object. -/
  key : Str
  /-- Whether the object is ephemeral; otherwise it is durable. -/
  fromEpheStore : Bool

/-- Name of the object. -/
def GetRequest.name (g : GetRequest) : Str := requestName g.lib g.bucket g.key g.fromEpheStore

/-- The message to the scheduler. -/
def GetRequest.message (g : GetRequest) : Str := (getObject g.lib g.bucket g.key g.fromEpheStore).1

/-- Executor and number of the request. -/
def GetRequest.request (g : GetRequest) : InflightIORequest :=
  ⟨g.lib.chanId-1,(getRequestId g.lib).1⟩

/-- A lookup that the scheduler has asked its helper for. -/
structure Lookup where
  /-- Whether another worker is asked; otherwise the durable store is. -/
  fromEpheStore : Bool
  /-- The I/O thread that asks. -/
  ioThread : UInt32
  /-- The key it asks for. -/
  key : Str
  deriving DecidableEq

/-- Name of the object in the tables of the scheduler. -/
def Lookup.name (l : Lookup) : Str :=
  if l.fromEpheStore then l.key else kvsKeyPrefix++kDelimiter++l.key

/-- The lookup that a message of the scheduler starts. -/
def lookup? : SchedEvent → Option Lookup
  | .sent (.dataReq ioThread key) => some ⟨true,ioThread,key⟩
  | .sent (.getKvs ioThread key) => some ⟨false,ioThread,key⟩
  | _ => none

/-- First port of the answers to data requests. -/
def dataAccessClientPort : UInt32 := 4450

/-- Where an object is; empty if that is not known. -/
def getKeyAddress (st : SchedState) (key : Str) : Address := st.keyAddressCache.getD key []

/-- The message to the worker that has an object; none without an address. -/
def sendDataReqBase (cfg : SchedulerConfig) (st : SchedState) (tid : UInt32) (key : Str) :
    Option (Address×Str) :=
  let dataAddress := getKeyAddress st key
  if dataAddress=[] then none
  else some (dataAddress,UInt8.ofNat key.length::(key++(str "tcp://"++cfg.ip++str ":"++
    decimal (tid+dataAccessClientPort).toNat)))

/-- The answer of a worker with these objects; none for an object that it
does not have or that is empty. -/
def handleDataRequest (objects : Str → Str) (req : Str) : Option (Address×Str) := do
  let keyLen ← req.head?
  let key := (req.drop 1).take keyLen.toNat
  let respAddress := req.drop (keyLen.toNat+1)
  let data := objects key
  if data.length>0 then some (respAddress,keyLen::(key++data)) else none

/-- The answer of the durable store to a request for a key. -/
structure KvsResponse where
  /-- Whether the request has timed out. -/
  timedOut : Bool
  /-- Error code of the key; one if there is no such key. -/
  error : ℕ
  value : Str

/-- What is answered to a lookup: the objects of the asked worker decide, or
the durable store does. -/
inductive Reply where
  | data (objects : Str → Str)
  | kvs (response : KvsResponse)

/-- What becomes of a lookup: it is issued again, it ends without a message to
the scheduler, or with one. -/
inductive Completion where
  | pending
  | absent
  | found (l : SchedLabel)

/-- A response of the durable store to a lookup. -/
def getKvsResponse (key : Str) (response : KvsResponse) : Completion :=
  if response.timedOut then .pending
  else if response.error≠1 then .found (.kvsGet key response.value)
  else .absent

/-- The end of a lookup, by the kind of its reply. -/
def complete (cfg : SchedulerConfig) (st : SchedState) (l : Lookup) : Reply → Option Completion
  | .data objects => if l.fromEpheStore then
      match (sendDataReqBase cfg st l.ioThread l.key).bind fun r => handleDataRequest objects r.2 with
      | none => some .absent
      | some r => some (.found (.data r.2))
    else none
  | .kvs response => if l.fromEpheStore then none else some (getKvsResponse l.key response)

/-- The lookup finds nothing: no address is known, the asked worker does not
have the object, or the durable store does not. -/
def Negative (st : SchedState) (l : Lookup) : Reply → Prop
  | .data objects => getKeyAddress st l.key=[] ∨ objects l.key=[]
  | .kvs response => response.timedOut=false ∧ response.error=1

/-- A worker, the requests of its functions and the lookups that have not
ended, each with the request that has started it. -/
structure GetNet where
  worker : SchedState
  /-- The requests so far, oldest first. -/
  gets : List GetRequest
  /-- Lookups without answer, oldest first. -/
  lookups : List (Lookup×InflightIORequest)

/-- A request is handled, a lookup is answered, or another step of the worker. -/
inductive GetLabel where
  | get (g : GetRequest)
  | reply (i : ℕ) (r : Reply)
  | work (l : SchedLabel)

/-- The message of an executor that asks for an object. -/
def asksObject : SchedLabel → Bool
  | .executor msg => decide ((msg++[nulChar])[1]?=some 1)
  | _ => false

/-- One step; requests come from the executors of the worker. -/
def netStep (cfg : SchedulerConfig) (n : GetNet) : GetLabel → Option GetNet
  | .get g => if g.request.executorId∈cfg.executors then
      (step cfg n.worker (.executor g.message)).map fun w =>
        {n with
          worker := w
          gets := n.gets++[g]
          lookups := n.lookups++((since n.worker w).filterMap lookup?).map fun l => (l,g.request)}
    else none
  | .reply i r => match n.lookups[i]? with
    | none => none
    | some l => match complete cfg n.worker l.1 r with
      | none => none
      | some .pending => some n
      | some .absent => some {n with lookups := n.lookups.eraseIdx i}
      | some (.found m) => (step cfg n.worker m).map fun w =>
          {n with
            worker := w
            lookups := n.lookups.eraseIdx i}
  | .work l => if asksObject l then none else
      (step cfg n.worker l).map fun w => {n with worker := w}

/-- A new worker. -/
def netStart (cfg : SchedulerConfig) (seed : UInt32) : GetNet := ⟨.start cfg seed,[],[]⟩

/-- An answer to a request for an object; unlike that to a durable write it
says a size. -/
def answersGet (req : InflightIORequest) : SchedEvent → Bool
  | .sent (.toExecutor executor msg) =>
    decide (executor=req.executorId ∧ msg.take 2=[3,req.reqId] ∧ 3< msg.length)
  | _ => false

/-- An answer says that the request was successful. -/
def Successful : SchedEvent → Prop
  | .sent (.toExecutor _ msg) => msg.head?=some 3 → msg[2]?=some 1
  | _ => True

/-- How often a request number of an executor has been answered. -/
def answers (st : SchedState) (req : InflightIORequest) : ℕ := st.trace.countP (answersGet req)

/-- How often a request number of an executor has been used. -/
def asked (gets : List GetRequest) (req : InflightIORequest) : ℕ :=
  gets.countP fun g => decide (g.request=req)

/-- Requests whose lookup has ended are answered exactly once and with
success, their objects are known, and only open ones have an entry. -/
structure AnsweredOnce (n : GetNet) : Prop where
  /-- Every request without open lookup is answered once. -/
  once : ∀ req,(∀ l∈n.lookups,l.2≠req) → answers n.worker req=asked n.gets req
  /-- No request is answered twice. -/
  atMostOnce : ∀ req,answers n.worker req≤asked n.gets req
  /-- Only the requests of open lookups have an entry. -/
  entries : ∀ key,∀ req∈n.worker.keyRemoteGetMap.getD key [],∃ l∈n.lookups,l.1.name=key ∧ l.2=req
  /-- A request without open lookup was for an object that is known. -/
  found : ∀ g∈n.gets,(∀ l∈n.lookups,l.1.name=g.name → l.2≠g.request) →
    n.worker.keyLenMap.contains g.name=true
  successful : ∀ e∈n.worker.trace,Successful e

/-- Names have at most 255 bytes, durable keys have no delimiter, and a lookup
finds nothing only when no executor waits for its object. -/
def FindsAwaited (n : GetNet) : GetLabel → Prop
  | .get g => g.name.length<256 ∧ (g.fromEpheStore=false → kDelimiterChar∉g.key)
  | .reply i r => ∀ l,n.lookups[i]?=some l → Negative n.worker l.1 r →
      n.worker.keyRemoteGetMap.getD l.1.name []=[]
  | .work _ => True

/-- The name that the scheduler reads from the request of a function. -/
def requestedName (msg : Str) : Option Str :=
  (unframed ((msg++[nulChar]).drop 4)).map Prod.fst

/-- Key and address for the answer that a worker reads from a data request. -/
def readDataRequest (req : Str) : Option (Str×Address) := unframed req

/-- Key and object that a worker reads from the answer. -/
def readDataResponse (msg : Str) : Option (Str×Str) := unframed msg

theorem drop_message (g : GetRequest) : (g.message++[nulChar]).drop 4=framed g.name [nulChar] := rfl

variable {g : GetRequest}

/-- The scheduler looks up the name that it reads. -/
theorem recvExecutor_requestedName (cfg : SchedulerConfig) (st : SchedState) {name : Str}
    (h : requestedName g.message=some name) : recvExecutor cfg st g.message=
      recvGet cfg st g.request.executorId g.request.reqId g.fromEpheStore name := by
  have hbyte : (UInt8.ofNat g.name.length).toNat=g.name.length%256 := UInt8.toNat_ofNat'
  have hmod : g.name.length%256≤g.name.length := Nat.mod_le _ _
  have hname : (g.name++[nulChar]).take (g.name.length%256)=name := by
    rw [requestedName,drop_message,unframed_framed] at h
    exact Option.some.inj h
  have hmsg : g.message=g.lib.chanId::1::(if g.fromEpheStore then 1 else 2)::
      (getRequestId g.lib).1::UInt8.ofNat g.name.length::g.name := rfl
  rw [hmsg]
  simp only [recvExecutor,orFault,bind,Except.bind,List.cons_append,List.getElem?_cons_zero,
    List.getElem?_cons_succ,List.length_cons,List.length_append,List.length_nil,List.drop_succ_cons,
    List.drop_zero,if_true,hbyte,hname]
  rw [if_pos (by omega)]
  cases g.fromEpheStore <;> rfl

variable {key : Str}

/-- A worker answers with the object that it reads the key of, and puts the
key in front of it. -/
theorem handleDataRequest_eq (objects : Str → Str) {req : Str} {respAddress : Address}
    (h : readDataRequest req=some (key,respAddress)) : handleDataRequest objects req=
      if (objects key).length>0 then some (respAddress,framed key (objects key)) else none := by
  obtain ⟨rfl,hlen⟩ := framed_of_unframed h
  have hsize := toNat_lengthByte hlen
  simp only [handleDataRequest,framed,List.head?_cons,Option.bind_eq_bind,Option.bind_some,
    List.drop_succ_cons,List.drop_zero,hsize,List.take_left,List.drop_left]

/-- The object is kept under the key that is read. -/
theorem recvDataMessage_eq (cfg : SchedulerConfig) (st : SchedState) {msg data : Str}
    (h : readDataResponse msg=some (key,data)) : recvDataMessage cfg st msg=
      recvData cfg (copyToShmObj st key data) key (UInt32.ofNat data.length) := by
  obtain ⟨rfl,hlen⟩ := framed_of_unframed h
  have hsize := toNat_lengthByte hlen
  simp only [recvDataMessage,framed,orFault,bind,Except.bind,List.head?_cons,List.drop_succ_cons,
    List.drop_zero,hsize,List.take_left,List.drop_left,List.length_cons,List.length_append]
  rw [if_pos (by omega)]

/-- The address at which an I/O thread takes objects from other workers. -/
def responseAddress (cfg : SchedulerConfig) (tid : UInt32) : Address :=
  str "tcp://"++cfg.ip++str ":"++decimal (tid+dataAccessClientPort).toNat

variable {cfg : SchedulerConfig}

theorem sendDataReqBase_eq_some {st : SchedState} {tid : UInt32} {req : Str} {address : Address}
    (h : sendDataReqBase cfg st tid key=some (address,req)) :
    req=framed key (responseAddress cfg tid) := by
  unfold sendDataReqBase at h
  dsimp only at h
  split at h
  · cases h
  · cases h
    rfl

/-- A name that fits behind its length is looked up as it is. -/
theorem recvExecutor_get (cfg : SchedulerConfig) (st : SchedState) (h : g.name.length<256) :
    recvExecutor cfg st g.message=
      recvGet cfg st g.request.executorId g.request.reqId g.fromEpheStore g.name :=
  recvExecutor_requestedName cfg st (fst_unframed_framed_iff.mpr h)

theorem split_durable {key' : Str} (h : kDelimiterChar∉key)
    (hsplit : (split (kvsKeyPrefix++kDelimiter++key) kDelimiterChar)[1]?=some key') : key'=key := by
  have hname : kvsKeyPrefix++kDelimiter++key=kvsKeyPrefix++kDelimiterChar::key := by
    simp [kDelimiter]
  have hprefix : kDelimiterChar∉kvsKeyPrefix := by decide
  rw [hname,split,fields_append_delim hprefix] at hsplit
  by_cases hk : key=[]
  · rw [hk] at hsplit
    cases hsplit
  · rw [fields_of_not_mem h hk] at hsplit
    exact (Option.some.inj hsplit).symm

variable {st' : SchedState}

/-- A request is answered at once, or it starts a lookup of its object and
waits. -/
theorem get_cases {st : SchedState} (hlen : g.name.length<256)
    (hkey : g.fromEpheStore=false → kDelimiterChar∉g.key)
    (h : step cfg st (.executor g.message)=some st') :
    (∃ size : UInt32,st.keyLenMap.contains g.name=true ∧
      st'=st.emit (.toExecutor g.request.executorId
        (response g.request.reqId (decimal size.toNat)))) ∨
    ∃ e l id,lookup? e=some l ∧ l.name=g.name ∧
      st'=awaitObject ({st with ioThreadId := id}.log e) g.name g.request := by
  have hout : recvExecutor cfg st g.message=.ok st' := SchedulingRules.step_eq_some h
  obtain ⟨id,hio⟩ := ioThread_eq cfg st
  rw [recvExecutor_get cfg st hlen] at hout
  unfold recvGet at hout
  cases hs : g.fromEpheStore with
  | true =>
    rw [hs,if_pos rfl] at hout
    cases hf : st.keyLenMap.find? g.name with
    | some size =>
      rw [hf] at hout
      dsimp only [sendToExecuter] at hout
      split at hout
      · cases hout
        exact Or.inl ⟨size,UMap.contains_eq_true_iff.mpr ⟨size,hf⟩,rfl⟩
      · cases hout
    | none =>
      rw [hf] at hout
      cases hout
      refine Or.inr ⟨.sent (.dataReq (ioThread cfg st).1 g.name),_,id,rfl,rfl,?_⟩
      rw [←hio]
      rfl
  | false =>
    have hname : g.name=kvsKeyPrefix++kDelimiter++g.key := by
      rw [GetRequest.name,requestName,hs]
      rfl
    rw [hs,if_neg Bool.false_ne_true] at hout
    obtain ⟨key,hsplit,hout⟩ := bind_eq_ok hout
    have hk : key=g.key := split_durable (hkey hs) (hname ▸ orFault_eq_ok hsplit)
    cases hout
    refine Or.inr ⟨.sent (.getKvs (ioThread cfg st).1 key),_,id,rfl,?_,?_⟩
    · rw [hname,←hk]
      rfl
    · rw [←hio]
      rfl

/-- All waiting requests belong to open lookups, and the others have been
answered. -/
structure Pending (cfg : SchedulerConfig) (gets : List GetRequest)
    (pending w : List (Str×InflightIORequest)) (st : SchedState) : Prop where
  tracks : Tracks st.keyRemoteGetMap w
  /-- Each waiting request has an open lookup. -/
  covered : ∀ x,w.count x≤pending.count x
  /-- The executors of waiting requests have a channel. -/
  channels : ∀ x∈w,x.2.executorId∈cfg.executors
  /-- Every request has been answered or waits. -/
  counted : ∀ req,answers st req+w.countP (fun x => decide (x.2=req))=asked gets req
  /-- The objects of those that do not wait are known. -/
  found : ∀ g∈gets,st.keyLenMap.contains g.name=true ∨ (g.name,g.request)∈w
  successful : ∀ e∈st.trace,Successful e

/-- Requests stay accounted for. -/
def Carries (cfg : SchedulerConfig) (gets : List GetRequest) (pending : List (Str×InflightIORequest))
    (st st' : SchedState) : Prop :=
  (∃ w,Pending cfg gets pending w st) → ∃ w,Pending cfg gets pending w st'

/-- An event that answers no request for an object. -/
def Silent (e : SchedEvent) : Prop := (∀ req,answersGet req e=false) ∧ Successful e

section

variable {cfg : SchedulerConfig} {gets : List GetRequest}
variable {pending w : List (Str×InflightIORequest)} {st st' : SchedState}

theorem Pending.of_eq (h : Pending cfg gets pending w st)
    (hgets : st'.keyRemoteGetMap=st.keyRemoteGetMap) (htrace : st'.trace=st.trace)
    (hlens : ∀ k,st.keyLenMap.contains k=true → st'.keyLenMap.contains k=true) :
    Pending cfg gets pending w st' where
  tracks := hgets ▸ h.tracks
  covered := h.covered
  channels := h.channels
  counted := by
    unfold answers
    rw [htrace]
    exact h.counted
  found g hg := (h.found g hg).imp_left (hlens g.name)
  successful := htrace ▸ h.successful

variable {e : SchedEvent}

theorem Pending.log (h : Pending cfg gets pending w st) (he : Silent e) :
    Pending cfg gets pending w (st.log e) where
  tracks := h.tracks
  covered := h.covered
  channels := h.channels
  counted req := by
    have hcount : answers (st.log e) req=answers st req := by
      simp [answers,SchedState.log,he.1 req]
    rw [hcount]
    exact h.counted req
  found := h.found
  successful := List.forall_mem_append.mpr ⟨h.successful,List.forall_mem_singleton.mpr he.2⟩

theorem carries_of_eq (hgets : st'.keyRemoteGetMap=st.keyRemoteGetMap) (htrace : st'.trace=st.trace)
    (hlens : ∀ k,st.keyLenMap.contains k=true → st'.keyLenMap.contains k=true) :
    Carries cfg gets pending st st' := fun ⟨w,h⟩ => ⟨w,h.of_eq hgets htrace hlens⟩

theorem noteHints_gets (call : Invocation) (time : ℤ) (st : SchedState) :
    (noteHints call time st).keyRemoteGetMap=st.keyRemoteGetMap := by rw [noteHints_eq]

/-- Nothing but a request and an answer touches the waiting requests. -/
theorem carries_frame (cfg : SchedulerConfig) (gets : List GetRequest)
    (pending : List (Str×InflightIORequest)) : LoopFrame Silent (Carries cfg gets pending) where
  toReadFrame := .of_idle (fun _ _ h => carries_of_eq h.keyRemoteGetMap h.trace fun _ => h.contains)
    (fun _ _ _ h h' hw => h' (h hw)) fun _ _ he ⟨w,h⟩ => ⟨w,h.log he⟩
  noteHints st call time := carries_of_eq (noteHints_gets call time st) (noteHints_trace call time st)
    fun _ h => by rwa [noteHints_eq]
  delayCallQueue _ _ := carries_of_eq rfl rfl fun _ h => h
  rerunCheckQueue _ _ _ := carries_of_eq rfl rfl fun _ h => h
  numbers _ _ _ := carries_of_eq rfl rfl fun _ h => h
  inflight _ _ := carries_of_eq rfl rfl fun _ h => h
  awaited _ _ := carries_of_eq rfl rfl fun _ h => h

theorem silent_of_routine (h : Routine e) : Silent e := by
  cases e with
  | sent out =>
    cases out with
    | toExecutor executor msg =>
      have hhead : msg.head?=some 1 := h
      cases msg with
      | nil => cases hhead
      | cons c msg =>
        cases hhead
        refine ⟨fun req => ?_,fun hc => ?_⟩
        · simp [answersGet]
        · cases hc
    | _ => exact ⟨fun _ => rfl,trivial⟩
  | _ => exact ⟨fun _ => rfl,trivial⟩

/-- Executors with a channel are answered one after the other. -/
theorem answers_ok {reqs : List InflightIORequest} (h : ∀ r∈reqs,r.executorId∈cfg.executors)
    (body : Str) (st : SchedState) : reqs.foldlM (answer cfg body) st=.ok {st with
      trace := st.trace++reqs.map fun r =>
        .sent (.toExecutor r.executorId (response r.reqId body))} := by
  induction reqs generalizing st with
  | nil =>
    rw [List.map_nil,List.append_nil]
    rfl
  | cons r reqs ih =>
    have hone : answer cfg body st r=
        .ok (st.emit (.toExecutor r.executorId (response r.reqId body))) :=
      if_pos (h r List.mem_cons_self)
    rw [List.foldlM_cons,hone]
    refine (ih (fun r hr => h r (List.mem_cons_of_mem _ hr)) _).trans ?_
    simp [SchedState.emit,SchedState.log]

variable {body : Str}

theorem answersGet_response (hbody : body≠[]) (req r : InflightIORequest) :
    answersGet req (.sent (.toExecutor r.executorId (response r.reqId body)))=decide (r=req) := by
  have hlen : 0<body.length := List.length_pos_iff.mpr hbody
  rcases r with ⟨executorId,reqId⟩
  rcases req with ⟨executorId',reqId'⟩
  simp [answersGet,response,hlen]

theorem successful_response (executor reqId : UInt8) (body : Str) :
    Successful (.sent (.toExecutor executor (response reqId body))) := fun _ => rfl

variable {key : Str}

/-- The executors that wait for a known object are answered and released. -/
theorem Pending.answerWaiting (h : Pending cfg gets pending w st) (hbody : body≠[])
    (hknown : st.keyLenMap.contains key=true) : ∃ st',
      SchedulerLoop.answerWaiting cfg st key body=.ok st' ∧
        Pending cfg gets pending (released w key) st' := by
  have hch : ∀ r∈st.keyRemoteGetMap.getD key [],r.executorId∈cfg.executors := fun r hr =>
    h.channels (key,r) (h.tracks.mem_getD.mp hr)
  refine ⟨_,by rw [SchedulerLoop.answerWaiting,answers_ok hch]; rfl,?_⟩
  exact {
    tracks := h.tracks.release key
    covered := fun x => le_trans (List.filter_sublist.count_le x) (h.covered x)
    channels := fun x hx => h.channels x (mem_released.mp hx).1
    counted := by
      intro req
      have hnew : ((st.keyRemoteGetMap.getD key []).map fun r => SchedEvent.sent
          (.toExecutor r.executorId (response r.reqId body))).countP (answersGet req)=
          (waiting w key).countP fun r => decide (r=req) := by
        rw [h.tracks key,List.countP_map]
        exact List.countP_congr fun r _ => by
          rw [Function.comp_apply,answersGet_response hbody]
      have hsplit : (waiting w key).countP (fun r => decide (r=req))+
          (released w key).countP (fun x => decide (x.2=req))=w.countP fun x => decide (x.2=req) :=
        countP_released (fun x => decide (x.2=req)) w key
      have hbefore := h.counted req
      show (st.trace++_).countP (answersGet req)+_=_
      rw [List.countP_append,hnew]
      unfold answers at hbefore
      omega
    found := by
      intro g hg
      rcases h.found g hg with hf|hw
      · exact Or.inl hf
      · by_cases hk : g.name=key
        · exact Or.inl (hk ▸ hknown)
        · exact Or.inr (mem_released.mpr ⟨hw,hk⟩)
    successful := by
      refine List.forall_mem_append.mpr ⟨h.successful,fun e he => ?_⟩
      obtain ⟨r,-,rfl⟩ := List.mem_map.mp he
      exact successful_response _ _ _ }

theorem contains_set_of_contains {m : UMap Str UInt32} {k : Str} (h : m.contains k=true) (key : Str)
    (size : UInt32) : (m.set key size).contains k=true := by
  rw [UMap.contains_set,h,Bool.or_true]

theorem carries_answerWaiting (st : SchedState) (key : Str) (size : UInt32) (hbody : body≠[]) :
    Leads (Carries cfg gets pending) st id
      (answerWaiting cfg {st with keyLenMap := st.keyLenMap.set key size} key body) := by
  have hknown : (st.keyLenMap.set key size).contains key=true := by
    rw [UMap.contains_set,decide_eq_true rfl,Bool.true_or]
  by_cases hw : ∃ w,Pending cfg gets pending w st
  · obtain ⟨w,h⟩ := hw
    have hset : Pending cfg gets pending w {st with keyLenMap := st.keyLenMap.set key size} :=
      h.of_eq rfl rfl fun _ hk => contains_set_of_contains hk key size
    obtain ⟨st',hok,h'⟩ := hset.answerWaiting hbody hknown
    rw [hok]
    exact fun _ => ⟨_,h'⟩
  · cases answerWaiting cfg {st with keyLenMap := st.keyLenMap.set key size} key body with
    | ok st' => exact fun h => absurd h hw
    | error st' => exact fun h => absurd h hw

/-- Every step but a request keeps the account. -/
theorem carries_step {l : SchedLabel} (hl : asksObject l=false) (h : step cfg st l=some st') :
    Carries cfg gets pending st st' := by
  have hframe := carries_frame cfg gets pending
  have hputs : ∀ (st : SchedState) puts,Carries cfg gets pending st {st with keyKsvPutMap := puts} :=
    fun _ _ => carries_of_eq rfl rfl fun _ hk => hk
  refine step_within h (fun _ => carries_of_eq rfl rfl fun _ hk => hk) fun hl' =>
    Leads.or ?_ fun _ _ _ => trivial
  refine hframe.outcome (fun _ => silent_of_routine) (fun _ => ⟨fun _ => rfl,trivial⟩) hl'
    (fun msg he => ?_) (fun st key size body hbody => carries_answerWaiting st key size hbody)
    fun key _ => hframe.recvKvsPut (fun _ _ => ⟨fun req => ?_,successful_response _ _ _⟩) hputs st key
  · subst he
    refine hframe.recvExecutor (fun _ => silent_of_routine) (fun hget => ?_)
      (fun _ packing info _ => ?_) fun _ => ?_
    · exact absurd hget (of_decide_eq_false hl)
    · refine hframe.recvEphemeral (fun _ => silent_of_routine)
        (hframe.recordObject (fun st _ size _ => ?_) st packing)
        (fun _ _ => carries_of_eq rfl rfl fun _ hk => hk)
        (fun _ => ⟨fun _ => rfl,trivial⟩) fun _ => ⟨fun _ => rfl,trivial⟩
      exact carries_of_eq rfl rfl fun _ hk => contains_set_of_contains hk _ _
    · exact hframe.recvPersistent hputs (fun _ _ _ => silent_of_routine trivial) st
  · simp [answersGet,response]

/-- A known object is answered at once. -/
theorem Pending.answered (h : Pending cfg gets pending w st) {g : GetRequest}
    (hknown : st.keyLenMap.contains g.name=true) (size : UInt32) :
    Pending cfg (gets++[g]) pending w (st.emit (.toExecutor g.request.executorId
      (response g.request.reqId (decimal size.toNat)))) where
  tracks := h.tracks
  covered := h.covered
  channels := h.channels
  counted req := by
    have hbefore := h.counted req
    have hone := answersGet_response (decimal_ne_nil size.toNat) req g.request
    have hnew : answers (st.emit (.toExecutor g.request.executorId
        (response g.request.reqId (decimal size.toNat)))) req=
          answers st req+if g.request=req then 1 else 0 := by
      simp [answers,SchedState.emit,SchedState.log,hone]
    have hasked : asked (gets++[g]) req=asked gets req+if g.request=req then 1 else 0 := by
      simp [asked]
    rw [hnew,hasked]
    omega
  found g' hg' := by
    rcases List.mem_append.mp hg' with hg'|hg'
    · exact h.found g' hg'
    · rw [List.mem_singleton.mp hg']
      exact Or.inl hknown
  successful := List.forall_mem_append.mpr ⟨h.successful,
    List.forall_mem_singleton.mpr (successful_response _ _ _)⟩

/-- An unknown object is looked up. -/
theorem Pending.await (h : Pending cfg gets pending w st) {g : GetRequest}
    (hch : g.request.executorId∈cfg.executors) :
    Pending cfg (gets++[g]) (pending++[(g.name,g.request)]) (w++[(g.name,g.request)])
      (awaitObject st g.name g.request) where
  tracks := h.tracks.push g.name g.request
  covered x := by
    rw [List.count_append,List.count_append]
    exact Nat.add_le_add_right (h.covered x) _
  channels := List.forall_mem_append.mpr ⟨h.channels,List.forall_mem_singleton.mpr hch⟩
  counted req := by
    have hbefore := h.counted req
    have hwait : (w++[(g.name,g.request)]).countP (fun x => decide (x.2=req))=
        w.countP (fun x => decide (x.2=req))+if g.request=req then 1 else 0 := by
      simp
    have hasked : asked (gets++[g]) req=asked gets req+if g.request=req then 1 else 0 := by
      simp [asked]
    have hanswers : answers (awaitObject st g.name g.request) req=answers st req := rfl
    rw [hwait,hasked,hanswers]
    omega
  found g' hg' := by
    rcases List.mem_append.mp hg' with hg'|hg'
    · exact (h.found g' hg').imp_right (List.mem_append_left _)
    · rw [List.mem_singleton.mp hg']
      exact Or.inr (List.mem_append_right _ List.mem_cons_self)
  successful := h.successful

variable {l : Lookup}

theorem silent_of_lookup (h : lookup? e=some l) : Silent e := by
  cases e with
  | sent out =>
    cases out with
    | toExecutor executor msg => cases h
    | _ => exact ⟨fun _ => rfl,trivial⟩
  | _ => exact ⟨fun _ => rfl,trivial⟩

/-- Nobody waits for an object after its lookup has ended. -/
theorem Pending.closed (h : Pending cfg gets pending w st) {i : ℕ} {x : Str×InflightIORequest}
    (hi : pending[i]?=some x) (hnone : st.keyRemoteGetMap.getD x.1 []=[]) :
    Pending cfg gets (pending.eraseIdx i) w st where
  tracks := h.tracks
  covered y := by
    obtain ⟨hlt,hx⟩ := List.getElem?_eq_some_iff.mp hi
    have hperm : (x::pending.eraseIdx i).Perm pending := hx ▸ List.getElem_cons_eraseIdx_perm hlt
    by_cases hy : y∈w
    · have hempty : waiting w x.1=[] := (h.tracks x.1).symm.trans hnone
      have hne : x≠y := fun he => fst_ne_of_waiting_eq_nil hempty hy (he ▸ rfl)
      have hcount := h.covered y
      rwa [←hperm.count_eq y,List.count_cons_of_ne hne] at hcount
    · rw [List.count_eq_zero_of_not_mem hy]
      exact Nat.zero_le _
  channels := h.channels
  counted := h.counted
  found := h.found
  successful := h.successful

/-- The waiting executors are as before. -/
def SameGets (st st' : SchedState) : Prop := st'.keyRemoteGetMap=st.keyRemoteGetMap

theorem sameGets_frame : LoopFrame (fun _ => True) SameGets where
  toReadFrame := .of_idle (fun _ _ h => h.keyRemoteGetMap) (fun _ _ _ h h' => h'.trans h)
    fun _ _ _ => rfl
  noteHints st call time := noteHints_gets call time st
  delayCallQueue _ _ := rfl
  rerunCheckQueue _ _ _ := rfl
  numbers _ _ _ := rfl
  inflight _ _ := rfl
  awaited _ _ := rfl

theorem answerWaiting_clears (h : answerWaiting cfg st key body=.ok st') :
    st'.keyRemoteGetMap.getD key []=[] := by
  obtain ⟨st1,-,h⟩ := bind_eq_ok h
  cases h
  show (st1.keyRemoteGetMap.erase key).getD key []=[]
  rw [UMap.getD_erase,if_pos rfl]

theorem recvData_clears {size : UInt32} (h : recvData cfg st key size=.ok st') :
    st'.keyRemoteGetMap.getD key []=[] := by
  obtain ⟨st1,hanswer,h⟩ := bind_eq_ok h
  have hclear := answerWaiting_clears hanswer
  have hsame : SameGets st1 st' := by
    split at h
    · cases h
      exact rfl
    · rename_i cids _
      obtain ⟨st2,hall,h⟩ := bind_eq_ok h
      cases h
      have hleads : Leads SameGets st1 id (cids.elems.foldlM (arriveKey cfg key) st1) :=
        leads_foldlM sameGets_frame.refl sameGets_frame.trans
          (fun st cid _ => sameGets_frame.arriveKey (fun _ _ => trivial) key st cid) st1
      have hend : SameGets st1 st2 := hleads.ok hall
      exact hend
  rwa [hsame]

theorem recvDataMessage_clears {data : Str} (hlen : key.length<256)
    (h : recvDataMessage cfg st (framed key data)=.ok st') :
    st'.keyRemoteGetMap.getD key []=[] := by
  rw [recvDataMessage_eq cfg st (unframed_framed_iff.mpr hlen)] at h
  exact recvData_clears h

/-- A lookup that ends with a message releases those who wait for it. -/
theorem complete_clears {r : Reply} {m : SchedLabel} (hlen : l.name.length<256)
    (hc : complete cfg st l r=some (.found m)) (h : step cfg st m=some st') :
    asksObject m=false ∧ st'.keyRemoteGetMap.getD l.name []=[] := by
  have hout := SchedulingRules.step_eq_some h
  cases r with
  | data objects =>
    unfold complete at hc
    dsimp only at hc
    split at hc
    · rename_i hstore
      have hname : l.name=l.key := if_pos hstore
      rw [hname] at hlen ⊢
      split at hc
      · cases hc
      · rename_i answer hanswer
        cases hc
        obtain ⟨⟨address,req⟩,hreq,hhandle⟩ := Option.bind_eq_some_iff.mp hanswer
        have hread : readDataRequest req=some (l.key,responseAddress cfg l.ioThread) := by
          rw [sendDataReqBase_eq_some hreq]
          exact unframed_framed_iff.mpr hlen
        rw [handleDataRequest_eq objects hread] at hhandle
        split at hhandle
        · cases hhandle
          exact ⟨rfl,recvDataMessage_clears hlen hout⟩
        · cases hhandle
    · cases hc
  | kvs response =>
    unfold complete at hc
    dsimp only at hc
    split at hc
    · cases hc
    · rename_i hstore
      have hname : l.name=kvsKeyPrefix++kDelimiter++l.key := if_neg hstore
      rw [hname]
      unfold getKvsResponse at hc
      split at hc
      · cases hc
      · split at hc
        · cases hc
          exact ⟨rfl,answerWaiting_clears hout⟩
        · cases hc

/-- A lookup that ends without a message has found nothing. -/
theorem negative_of_complete {r : Reply} (hlen : l.name.length<256)
    (hc : complete cfg st l r=some .absent) : Negative st l r := by
  cases r with
  | data objects =>
    unfold complete at hc
    dsimp only at hc
    split at hc
    · rename_i hstore
      have hname : l.name=l.key := if_pos hstore
      rw [hname] at hlen
      have hsize : (UInt8.ofNat l.key.length).toNat=l.key.length := toNat_lengthByte hlen
      by_cases ha : getKeyAddress st l.key=[]
      · exact Or.inl ha
      · refine Or.inr (List.eq_nil_of_length_eq_zero (Nat.eq_zero_of_not_pos fun hpos => ?_))
        simp [sendDataReqBase,ha,handleDataRequest,hsize,hpos] at hc
    · cases hc
  | kvs response =>
    unfold complete at hc
    dsimp only at hc
    split at hc
    · cases hc
    · unfold getKvsResponse at hc
      split at hc
      · cases hc
      · rename_i ht
        split at hc
        · cases hc
        · rename_i he
          exact ⟨Bool.eq_false_iff.mpr ht,not_not.mp he⟩

end

/-- The open lookups by the names of their objects. -/
def GetNet.pending (n : GetNet) : List (Str×InflightIORequest) :=
  n.lookups.map fun l => (l.1.name,l.2)

/-- The account of a worker's requests; names in open lookups are short. -/
structure Accounted (cfg : SchedulerConfig) (n : GetNet) : Prop where
  /-- All requests are accounted for. -/
  waiting : ∃ w,Pending cfg n.gets n.pending w n.worker
  /-- The names of open lookups. -/
  short : ∀ l∈n.lookups,l.1.name.length<256

theorem accounted_start (cfg : SchedulerConfig) (seed : UInt32) :
    Accounted cfg (netStart cfg seed) where
  waiting := ⟨[],tracks_empty,fun _ => Nat.zero_le _,nofun,fun _ => rfl,nofun,nofun⟩
  short := nofun

variable {n : GetNet}

theorem Accounted.get (h : Accounted cfg n) (hch : g.request.executorId∈cfg.executors)
    (hlen : g.name.length<256) (hkey : g.fromEpheStore=false → kDelimiterChar∉g.key)
    (hstep : step cfg n.worker (.executor g.message)=some st') :
    Accounted cfg ⟨st',n.gets++[g],
      n.lookups++((since n.worker st').filterMap lookup?).map fun l => (l,g.request)⟩ := by
  obtain ⟨w,hw⟩ := h.waiting
  rcases get_cases hlen hkey hstep with ⟨size,hknown,rfl⟩|⟨e,l,id,he,hl,rfl⟩
  · have hsince : (since n.worker (n.worker.emit (.toExecutor g.request.executorId
        (response g.request.reqId (decimal size.toNat))))).filterMap lookup?=[] := by
      rw [since_eq rfl]
      rfl
    rw [hsince,List.map_nil,List.append_nil]
    exact ⟨⟨w,hw.answered hknown size⟩,h.short⟩
  · have htrace : (awaitObject ({n.worker with ioThreadId := id}.log e) g.name
        g.request).trace=n.worker.trace++[e] := rfl
    have hlookup : [e].filterMap lookup?=[l] := List.filterMap_cons_some he
    have hpending : GetNet.pending ⟨awaitObject ({n.worker with ioThreadId := id}.log e) g.name
        g.request,n.gets++[g],n.lookups++[(l,g.request)]⟩=n.pending++[(g.name,g.request)] := by
      simp [GetNet.pending,hl]
    have hthread : Pending cfg n.gets n.pending w {n.worker with ioThreadId := id} :=
      hw.of_eq rfl rfl fun _ hk => hk
    have hlog := hthread.log (silent_of_lookup he)
    have hshort : l.name.length<256 := hl ▸ hlen
    rw [since_eq htrace,hlookup]
    refine ⟨⟨w++[(g.name,g.request)],?_⟩,?_⟩
    · rw [List.map_singleton,hpending]
      exact hlog.await hch
    · exact List.forall_mem_append.mpr ⟨h.short,List.forall_mem_singleton.mpr hshort⟩

theorem pending_eraseIdx (n : GetNet) (i : ℕ) (st : SchedState) :
    GetNet.pending ⟨st,n.gets,n.lookups.eraseIdx i⟩=n.pending.eraseIdx i :=
  (List.eraseIdx_map _ _ _).symm

/-- A lookup has ended and nobody waits for its object. -/
theorem Accounted.close (h : Accounted cfg n) {i : ℕ} {l : Lookup×InflightIORequest}
    (hi : n.lookups[i]?=some l) (hnone : n.worker.keyRemoteGetMap.getD l.1.name []=[]) :
    Accounted cfg {n with lookups := n.lookups.eraseIdx i} := by
  obtain ⟨w,hw⟩ := h.waiting
  have hx : n.pending[i]?=some (l.1.name,l.2) := by
    rw [GetNet.pending,List.getElem?_map,hi]
    rfl
  refine ⟨⟨w,?_⟩,fun l hl => h.short l (List.mem_of_mem_eraseIdx hl)⟩
  rw [pending_eraseIdx n i n.worker]
  exact hw.closed hx hnone

theorem Accounted.work (h : Accounted cfg n) {l : SchedLabel} (hl : asksObject l=false)
    (hstep : step cfg n.worker l=some st') :
    Accounted cfg {n with worker := st'} := ⟨carries_step hl hstep h.waiting,h.short⟩

theorem accounted_step {n' : GetNet} {l : GetLabel} (h : Accounted cfg n) (hok : FindsAwaited n l)
    (hstep : netStep cfg n l=some n') : Accounted cfg n' := by
  cases l with
  | get g =>
    unfold netStep at hstep
    dsimp only at hstep
    split at hstep
    · rename_i hch
      obtain ⟨st',hst,rfl⟩ := Option.map_eq_some_iff.mp hstep
      exact h.get hch hok.1 hok.2 hst
    · cases hstep
  | work l =>
    unfold netStep at hstep
    dsimp only at hstep
    split at hstep
    · cases hstep
    · rename_i hl
      obtain ⟨st',hst,rfl⟩ := Option.map_eq_some_iff.mp hstep
      exact h.work (Bool.eq_false_iff.mpr hl) hst
  | reply i r =>
    unfold netStep at hstep
    dsimp only at hstep
    split at hstep
    · cases hstep
    · rename_i l hi
      have hshort := h.short l (List.mem_of_getElem? hi)
      split at hstep
      · cases hstep
      · cases hstep
        exact h
      · rename_i hc
        cases hstep
        exact h.close hi (hok l hi (negative_of_complete hshort hc))
      · rename_i m hc
        obtain ⟨st',hst,rfl⟩ := Option.map_eq_some_iff.mp hstep
        obtain ⟨hm,hnone⟩ := complete_clears hshort hc hst
        have hwork : Accounted cfg ⟨st',n.gets,n.lookups⟩ := h.work hm hst
        exact hwork.close hi hnone

theorem Accounted.answeredOnce (h : Accounted cfg n) : AnsweredOnce n := by
  obtain ⟨w,hw⟩ := h.waiting
  have hopen : ∀ x∈w,∃ l∈n.lookups,(l.1.name,l.2)=x := by
    intro x hx
    have hpos : 0<n.pending.count x := lt_of_lt_of_le (List.count_pos_iff.mpr hx) (hw.covered x)
    obtain ⟨l,hl,he⟩ := List.mem_map.mp (List.count_pos_iff.mp hpos)
    exact ⟨l,hl,he⟩
  constructor
  case once =>
    intro req hreq
    have hzero : w.countP (fun x => decide (x.2=req))=0 := by
      refine List.countP_eq_zero.mpr fun x hx he => ?_
      obtain ⟨l,hl,rfl⟩ := hopen x hx
      exact hreq l hl (of_decide_eq_true he)
    have hcount := hw.counted req
    omega
  case atMostOnce =>
    intro req
    have hcount := hw.counted req
    omega
  case entries =>
    intro key req hreq
    obtain ⟨l,hl,he⟩ := hopen (key,req) (hw.tracks.mem_getD.mp hreq)
    exact ⟨l,hl,congrArg Prod.fst he,congrArg Prod.snd he⟩
  case found =>
    intro g hg hclosed
    rcases hw.found g hg with hf|hx
    · exact hf
    · obtain ⟨l,hl,he⟩ := hopen _ hx
      exact absurd (congrArg Prod.snd he) (hclosed l hl (congrArg Prod.fst he))
  case successful => exact hw.successful

/-- In every run in which no awaited lookup fails, every request of a
function is answered exactly once. -/
theorem every_get_answered_once (cfg : SchedulerConfig) (seed : UInt32) (l : List GetLabel)
    (n : GetNet) (hok : StepsMeet (netStep cfg) FindsAwaited (netStart cfg seed) l)
    (hrun : run (netStep cfg) (netStart cfg seed) l=some n) : AnsweredOnce n :=
  (run_invariant_of_steps (fun _ _ _ h hok hstep => accounted_step h hok hstep)
    (accounted_start cfg seed) hok hrun).answeredOnce

instance (st : SchedState) (l : Lookup) (r : Reply) : Decidable (Negative st l r) :=
  match r with
  | .data _ => inferInstanceAs (Decidable (_ ∨ _))
  | .kvs _ => inferInstanceAs (Decidable (_ ∧ _))

instance (n : GetNet) (l : GetLabel) : Decidable (FindsAwaited n l) :=
  match l with
  | .get _ => inferInstanceAs (Decidable (_ ∧ _))
  | .work _ => isTrue trivial
  | .reply i r => match h : n.lookups[i]? with
    | none => isTrue fun l hl => by rw [h] at hl; cases hl
    | some l => decidable_of_iff (Negative n.worker l.1 r → n.worker.keyRemoteGetMap.getD l.1.name []=[])
        ⟨fun hn l' hl' => by rw [h] at hl'; exact Option.some.inj hl' ▸ hn,fun hn => hn l h⟩

/-- A request of the sample function, with the number after the given one. -/
def sampleGet (rid : UInt8) (fromEpheStore : Bool) : GetRequest :=
  ⟨{sampleLibrary with rid := rid},str "b",str "k",fromEpheStore⟩

/-- Two requests for one durable object, whose first lookup answers both. -/
def sharedLookup : List GetLabel :=
  [.get (sampleGet 0 false),.get (sampleGet 1 false),.reply 0 (.kvs ⟨false,0,str "value"⟩),
    .reply 0 (.kvs ⟨false,0,str "value"⟩)]

theorem every_get_answered_once_shared : ∃ n,
    run (netStep sampleConfig) (netStart sampleConfig 1) sharedLookup=some n ∧
      n.lookups=[] ∧ answers n.worker ⟨0,1⟩=1 ∧ answers n.worker ⟨0,2⟩=1 ∧ AnsweredOnce n := by
  have hcomputed : ((run (netStep sampleConfig) (netStart sampleConfig 1) sharedLookup).map
      fun n => decide (n.lookups=[] ∧ answers n.worker ⟨0,1⟩=1 ∧
        answers n.worker ⟨0,2⟩=1))=some true := by
    decide +kernel
  obtain ⟨n,hn,hopen,hfirst,hsecond⟩ := exists_of_decided hcomputed
  exact ⟨n,hn,hopen,hfirst,hsecond,
    every_get_answered_once sampleConfig 1 sharedLookup n (by decide +kernel) hn⟩

/-- A request for an object that the durable store does not have, and one for
an object without address, are not answered and stay. -/
theorem absent_object_unanswered : ∃ n,
    run (netStep sampleConfig) (netStart sampleConfig 1)
      [.get (sampleGet 0 false),.reply 0 (.kvs ⟨false,1,[]⟩),
        .get (sampleGet 1 true),.reply 0 (.data fun _ => [])]=some n ∧
      n.lookups=[] ∧ asked n.gets ⟨0,1⟩=1 ∧ answers n.worker ⟨0,1⟩=0 ∧
      asked n.gets ⟨0,2⟩=1 ∧ answers n.worker ⟨0,2⟩=0 ∧
      n.worker.keyRemoteGetMap.getD (sampleGet 0 false).name []=[⟨0,1⟩] ∧
      n.worker.keyRemoteGetMap.getD (sampleGet 1 true).name []=[⟨0,2⟩] ∧ ¬AnsweredOnce n := by
  have hcomputed : ((run (netStep sampleConfig) (netStart sampleConfig 1)
      [.get (sampleGet 0 false),.reply 0 (.kvs ⟨false,1,[]⟩),
        .get (sampleGet 1 true),.reply 0 (.data fun _ => [])]).map fun n => decide
      (n.lookups=[] ∧ asked n.gets ⟨0,1⟩=1 ∧ answers n.worker ⟨0,1⟩=0 ∧
        asked n.gets ⟨0,2⟩=1 ∧ answers n.worker ⟨0,2⟩=0 ∧
        n.worker.keyRemoteGetMap.getD (sampleGet 0 false).name []=[⟨0,1⟩] ∧
        n.worker.keyRemoteGetMap.getD (sampleGet 1 true).name []=[⟨0,2⟩]))=some true := by
    decide +kernel
  obtain ⟨n,hn,hopen,hasked,hanswers,hasked',hanswers',hentry,hentry'⟩ := exists_of_decided hcomputed
  refine ⟨n,hn,hopen,hasked,hanswers,hasked',hanswers',hentry,hentry',fun h => ?_⟩
  have honce := h.once ⟨0,1⟩ (by rw [hopen]; nofun)
  omega

end Pheromone.ObjectRequests
