import Pheromone.ResponsePairing

/-!
# Sizes of requested objects

The answer to a request says the size of the object, in decimal, except that
the size of an object fetched from a worker is appended as one character.
-/

namespace Pheromone.ObjectSizes

open FaultingRuns DelimitedText CommonNames SchedulerState SchedulerLoop SchedulingRules
open ObjectTransport ObjectDispatch ObjectRequests ResponsePairing

/-- The three ways. -/
inductive Path where
  | known
  | fetched
  | durable
  deriving DecidableEq

/-- The scheduler handles what makes it answer a request for an object with
these bytes: the request itself, the object from another worker, or the value
from the durable store. -/
def Path.serve (cfg : SchedulerConfig) (st : SchedState) (g : GetRequest) (data : Str) :
    Path → Outcome SchedState
  | .known => recvGet cfg st g.request.executorId g.request.reqId g.fromEpheStore g.name
  | .fetched => recvData cfg (copyToShmObj st g.name data) g.name (UInt32.ofNat data.length)
  | .durable => recvKvsGet cfg st g.key data

/-- The request waits for its object, like others whose executors have a channel. -/
structure Waits (cfg : SchedulerConfig) (st : SchedState) (g : GetRequest) : Prop where
  /-- It is among those that wait. -/
  mem : g.request∈st.keyRemoteGetMap.getD g.name []
  /-- All of them can be answered. -/
  channels : ∀ r∈st.keyRemoteGetMap.getD g.name [],r.executorId∈cfg.executors

instance (cfg : SchedulerConfig) (st : SchedState) (g : GetRequest) : Decidable (Waits cfg st g) :=
  decidable_of_iff (g.request∈st.keyRemoteGetMap.getD g.name [] ∧
    ∀ r∈st.keyRemoteGetMap.getD g.name [],r.executorId∈cfg.executors)
    ⟨fun h => ⟨h.1,h.2⟩,fun h => ⟨h.mem,h.channels⟩⟩

/-- When a request is answered in one of the ways: the scheduler knows the
length of an ephemeral object, or the request waits for an ephemeral or for a
durable one. -/
def Path.Ready (cfg : SchedulerConfig) (st : SchedState) (g : GetRequest) (data : Str) : Path → Prop
  | .known => g.fromEpheStore=true ∧ g.request.executorId∈cfg.executors ∧
      st.keyLenMap.find? g.name=some (UInt32.ofNat data.length)
  | .fetched => g.fromEpheStore=true ∧ Waits cfg st g
  | .durable => g.fromEpheStore=false ∧ Waits cfg st g

/-- What the asking function makes of an event that answers it. -/
def read? (g : GetRequest) (e : SchedEvent) : Option CallResult :=
  match e with
  | .sent (.toExecutor _ msg) =>
    if answersGet g.request e then some (receiveObject g.name g.request.reqId msg) else none
  | _ => none

/-- What the asking function has received. -/
def received (g : GetRequest) (events : List SchedEvent) : List CallResult :=
  events.filterMap (read? g)

theorem received_silent {events : List SchedEvent} (h : ∀ e∈events,Silent e) (g : GetRequest) :
    received g events=[] := by
  refine List.filterMap_eq_nil_iff.mpr fun e he => ?_
  unfold read?
  split
  · rw [if_neg (by rw [(h _ he).1 g.request]; exact Bool.false_ne_true)]
  · rfl

/-- The answer to one request, as the function that asked reads it. -/
theorem read?_response {body : Str} (hbody : body≠[]) (g : GetRequest) (r : InflightIORequest) :
    read? g (.sent (.toExecutor r.executorId (response r.reqId body)))=if r=g.request then
      some (receiveObject g.name g.request.reqId (response g.request.reqId body)) else none := by
  unfold read?
  dsimp only
  rw [answersGet_response hbody]
  by_cases hr : r=g.request
  · rw [if_pos (decide_eq_true hr),if_pos hr,hr]
  · rw [if_neg (by rw [decide_eq_false hr]; exact Bool.false_ne_true),if_neg hr]

/-- Answers to all that wait are received by the request among them. -/
theorem received_answers {body : Str} (hbody : body≠[]) {g : GetRequest}
    {reqs : List InflightIORequest} (hmem : g.request∈reqs) :
    received g (reqs.map fun r => .sent (.toExecutor r.executorId (response r.reqId body)))≠[] ∧
      ∀ x∈received g (reqs.map fun r => .sent (.toExecutor r.executorId (response r.reqId body))),
        x=receiveObject g.name g.request.reqId (response g.request.reqId body) := by
  have hiff : ∀ x,x∈received g (reqs.map fun r =>
      .sent (.toExecutor r.executorId (response r.reqId body))) ↔
        x=receiveObject g.name g.request.reqId (response g.request.reqId body) := by
    intro x
    rw [received,List.filterMap_map,List.mem_filterMap]
    constructor
    · rintro ⟨r,-,hr⟩
      rw [Function.comp_apply,read?_response hbody] at hr
      split at hr
      · exact (Option.some.inj hr).symm
      · cases hr
    · intro hx
      refine ⟨g.request,hmem,?_⟩
      rw [Function.comp_apply,read?_response hbody,if_pos rfl,hx]
  exact ⟨List.ne_nil_of_mem ((hiff _).mpr rfl),fun x hx => (hiff x).mp hx⟩

section

variable {cfg : SchedulerConfig} {st : SchedState} {g : GetRequest} {data : Str}

theorem answerWaiting_ok {key : Str} (h : ∀ r∈st.keyRemoteGetMap.getD key [],r.executorId∈cfg.executors)
    (body : Str) : ∃ st',answerWaiting cfg st key body=.ok st' ∧
      st'.trace=st.trace++(st.keyRemoteGetMap.getD key []).map fun r =>
        .sent (.toExecutor r.executorId (response r.reqId body)) := by
  have hout : answerWaiting cfg st key body=.ok {st with
      trace := st.trace++(st.keyRemoteGetMap.getD key []).map fun r =>
        .sent (.toExecutor r.executorId (response r.reqId body))
      keyRemoteGetMap := st.keyRemoteGetMap.erase key} := by
    rw [answerWaiting,answers_ok h]
    exact rfl
  exact ⟨_,hout,rfl⟩

/-- After the answers the arrival of an object may complete calls. -/
theorem recvData_after {key : Str} {size : UInt32} {st' : SchedState}
    (h : answerWaiting cfg {st with keyLenMap := st.keyLenMap.set key size} key [size.toUInt8]=
      .ok st') : Leads (Records Silent) st' id (recvData cfg st key size) := by
  have hframe := records_frame Silent
  have hcall : ∀ st cid,Leads (Records Silent) st id (arriveKey cfg key st cid) := fun st cid =>
    hframe.arriveKey (fun _ => silent_of_routine) key st cid
  unfold recvData
  dsimp only
  rw [h]
  dsimp only [bind,Except.bind]
  split
  · exact hframe.refl st'
  · exact (leads_foldlM hframe.refl hframe.trans (fun st cid _ => hcall st cid) st').bind hframe.trans
      fun _ _ => records_of_eq rfl

/-- What a request is answered with. -/
def Path.body (data : Str) : Path → Str
  | .fetched => [(UInt32.ofNat data.length).toUInt8]
  | _ => decimal (UInt32.ofNat data.length).toNat

theorem Path.body_ne_nil (data : Str) (path : Path) : path.body data≠[] := by
  cases path with
  | fetched => exact List.cons_ne_nil _ _
  | known => exact decimal_ne_nil _
  | durable => exact decimal_ne_nil _

/-- In each way the request is answered, with others, and nothing else that is
sent answers a request. -/
theorem since_serve {path : Path} (h : path.Ready cfg st g data) :
    ∃ (reqs : List InflightIORequest) (events : List SchedEvent),g.request∈reqs ∧ (∀ e∈events,Silent e) ∧
      since st (endState id (path.serve cfg st g data))=reqs.map (fun r =>
        .sent (.toExecutor r.executorId (response r.reqId (path.body data))))++events := by
  cases path with
  | known =>
    obtain ⟨hstore,hch,hlen⟩ := h
    have hout : Path.known.serve cfg st g data=.ok (st.emit (.toExecutor g.request.executorId
        (response g.request.reqId (Path.known.body data)))) := by
      dsimp only [Path.serve,recvGet]
      rw [if_pos hstore,hlen]
      exact if_pos hch
    refine ⟨[g.request],[],List.mem_cons_self,List.forall_mem_nil _,?_⟩
    rw [hout]
    exact since_eq rfl
  | fetched =>
    obtain ⟨-,hwaits⟩ := h
    obtain ⟨st1,hanswer,htrace⟩ := @answerWaiting_ok cfg {copyToShmObj st g.name data with
      keyLenMap := st.keyLenMap.set g.name (UInt32.ofNat data.length)} g.name hwaits.channels
        (Path.fetched.body data)
    obtain ⟨events,hevents,hsilent⟩ := (recvData_after hanswer).endState
    refine ⟨st.keyRemoteGetMap.getD g.name [],events,hwaits.mem,hsilent,since_eq ?_⟩
    rw [←List.append_assoc]
    exact hevents.trans (congrArg (·++events) htrace)
  | durable =>
    obtain ⟨hstore,hwaits⟩ := h
    have hname : g.name=kvsKeyPrefix++kDelimiter++g.key := by
      rw [GetRequest.name,requestName,hstore]
      exact rfl
    obtain ⟨st1,hanswer,htrace⟩ := @answerWaiting_ok cfg {copyToShmObj st g.name data with
      keyLenMap := st.keyLenMap.set g.name (UInt32.ofNat data.length)} g.name hwaits.channels
        (Path.durable.body data)
    have hout : Path.durable.serve cfg st g data=.ok st1 := by
      rw [←hanswer,hname]
      exact rfl
    refine ⟨st.keyRemoteGetMap.getD g.name [],[],hwaits.mem,List.forall_mem_nil _,?_⟩
    rw [hout,List.append_nil]
    exact since_eq htrace

end

theorem leadingDigits_singleton (c : UInt8) :
    leadingDigits [c]=if 48≤ c.toNat ∧ c.toNat≤57 then [c.toNat-48] else [] := by
  rw [leadingDigits,digitValue]
  by_cases hc : 48≤ c.toNat ∧ c.toNat≤57
  · rw [if_pos hc,if_pos hc,leadingDigits]
  · rw [if_neg hc,if_neg hc]

/-- One character is read as a digit or not at all. -/
theorem stoi_singleton {c : UInt8} {v : ℤ} (h : stoi [c]=some v) : v+48=c.toNat := by
  unfold stoi at h
  rw [List.dropWhile_cons] at h
  cases hspace : isSpace c with
  | true =>
    rw [hspace,if_pos rfl] at h
    cases h
  | false =>
    rw [hspace,if_neg Bool.false_ne_true] at h
    dsimp only at h
    split at h
    · rename_i rest hc
      rw [←(List.cons.inj hc).2] at h
      cases h
    · rename_i rest hc
      rw [←(List.cons.inj hc).2] at h
      cases h
    · dsimp only at h
      rw [leadingDigits_singleton] at h
      by_cases hc : 48≤ c.toNat ∧ c.toNat≤57
      · rw [if_pos hc,if_neg (List.cons_ne_nil _ _),if_neg Bool.false_ne_true] at h
        have hvalue : digitsNumber [c.toNat-48]=c.toNat-48 := by simp [digitsNumber]
        rw [hvalue] at h
        split at h
        · have hv := Option.some.inj h
          omega
        · cases h
      · rw [if_neg hc,if_pos rfl] at h
        cases h

/-- The character of a size is not read as that size. -/
theorem receiveObject_character (name : Str) (reqId : UInt8) (size : UInt32) :
    receiveObject name reqId (response reqId [size.toUInt8])≠.object name size.toNat := by
  intro h
  have hread : stoi (terminated nulChar [size.toUInt8])=some (size.toNat : ℤ) := by
    unfold receiveObject at h
    simp only [response,List.cons_append,List.nil_append,List.getElem?_cons_zero,
      List.getElem?_cons_succ,ne_eq,not_true_eq_false,if_false] at h
    split at h
    · cases h
    · rename_i v hv
      rw [←(CallResult.object.inj h).2]
      exact hv
  by_cases hnul : size.toUInt8=nulChar
  · rw [hnul] at hread
    cases hread
  · have hself : terminated nulChar [size.toUInt8]=[size.toUInt8] :=
      terminated_eq_self_iff.mpr fun hm => hnul (List.mem_singleton.mp hm).symm
    rw [hself] at hread
    have hdigit := stoi_singleton hread
    have hchar : size.toUInt8.toNat≤ size.toNat := by
      rw [UInt32.toNat_toUInt8]
      exact Nat.mod_le _ _
    omega

/-- A request for an object of any length is answered, and the function that
asked learns the length from every answer exactly if the object was not
fetched from another worker. -/
theorem size_received_iff (path : Path) (cfg : SchedulerConfig) (st : SchedState) (g : GetRequest)
    (data : Str) (hready : path.Ready cfg st g data) (hlen : data.length<2^31) :
    received g (since st (endState id (path.serve cfg st g data)))≠[] ∧
      ((∀ x∈received g (since st (endState id (path.serve cfg st g data))),
        x=.object g.name data.length) ↔ path≠.fetched) := by
  have hsize : (UInt32.ofNat data.length).toNat=data.length := by
    rw [UInt32.toNat_ofNat']
    exact Nat.mod_eq_of_lt (by omega)
  obtain ⟨reqs,events,hmem,hsilent,hsince⟩ := since_serve hready
  obtain ⟨hne,hall⟩ := received_answers (path.body_ne_nil data) hmem
  have hreceived : received g (since st (endState id (path.serve cfg st g data)))=
      received g (reqs.map fun r => .sent (.toExecutor r.executorId
        (response r.reqId (path.body data)))) := by
    rw [hsince,received,List.filterMap_append]
    exact (congrArg (_++·) (received_silent hsilent g)).trans (List.append_nil _)
  have hdecimal : path.body data=decimal (UInt32.ofNat data.length).toNat →
      receiveObject g.name g.request.reqId (response g.request.reqId (path.body data))=
        .object g.name data.length := by
    intro hbody
    have hown := receiveObject_own (hsize.trans_lt hlen) g.name g.request.reqId
    rw [hbody,hown,hsize]
  rw [hreceived]
  refine ⟨hne,?_⟩
  obtain ⟨x,hx⟩ := List.exists_mem_of_ne_nil _ hne
  cases path with
  | fetched =>
    refine iff_of_false (fun h => ?_) (fun h => h rfl)
    have hwrong := receiveObject_character g.name g.request.reqId (UInt32.ofNat data.length)
    rw [hsize] at hwrong
    exact hwrong ((hall x hx).symm.trans (h x hx))
  | known =>
    exact iff_of_true (fun x hx => (hall x hx).trans (hdecimal rfl)) (by decide)
  | durable =>
    exact iff_of_true (fun x hx => (hall x hx).trans (hdecimal rfl)) (by decide)

/-- A request for a key of the sample session. -/
def sampleRequest : GetRequest := ⟨sampleLibrary,str "b",str "k",true⟩

/-- A worker that knows the length of the object. -/
def knowingState : SchedState :=
  {SchedState.start sampleConfig 1 with
    keyLenMap := (SchedState.start sampleConfig 1).keyLenMap.set sampleRequest.name 5}

/-- A worker at which the request waits for the object. -/
def awaitingState : SchedState :=
  endState id (recvExecutor sampleConfig (.start sampleConfig 1) sampleRequest.message)

/-- A known object of five bytes. -/
theorem size_received_known : Path.known.Ready sampleConfig knowingState sampleRequest (str "value") ∧
    ∀ x∈received sampleRequest (since knowingState (endState id
      (Path.known.serve sampleConfig knowingState sampleRequest (str "value")))),
        x=.object sampleRequest.name (str "value").length := by
  have hready : Path.known.Ready sampleConfig knowingState sampleRequest (str "value") :=
    ⟨rfl,by decide,by decide⟩
  exact ⟨hready,(size_received_iff .known sampleConfig knowingState sampleRequest (str "value")
    hready (by decide)).2.mpr (by decide)⟩

/-- An object of 53 bytes from another worker is taken for one of 5 bytes, and
for one of 100 bytes the function throws. -/
theorem fetched_size_misread : Waits sampleConfig awaitingState sampleRequest ∧
    received sampleRequest (since awaitingState (endState id (Path.fetched.serve sampleConfig
      awaitingState sampleRequest (List.replicate 53 97))))=[.object sampleRequest.name 5] ∧
    received sampleRequest (since awaitingState (endState id (Path.fetched.serve sampleConfig
      awaitingState sampleRequest (List.replicate 100 97))))=[.thrown] := by
  refine ⟨by decide +kernel,by decide +kernel,by decide +kernel⟩

end Pheromone.ObjectSizes
