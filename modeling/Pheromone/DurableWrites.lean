import Pheromone.ObjectRequests

/-!
# Acknowledgements of durable writes

A response of the durable store acknowledges all executors that wait under
its key, also those of later writes.
-/

namespace Pheromone.DurableWrites

open KeyedQueues GuardedRuns FaultingRuns DelimitedText CommonNames SchedulerState
open Scheduling SchedulerLoop SchedulingRules ObjectTransport ObjectDispatch ObjectRequests

/-- A function persists its output. -/
structure WriteRequest where
  /-- The executor. -/
  lib : UserLibrary
  /-- The output. -/
  data : EpheObject

/-- The message to the scheduler. -/
def WriteRequest.message (w : WriteRequest) : Str := (sendObject w.lib w.data true).1

/-- Executor and number of the request. -/
def WriteRequest.request (w : WriteRequest) : InflightIORequest :=
  ⟨w.lib.chanId-1,(getRequestId w.lib).1⟩

/-- The key that a message of the scheduler writes. -/
def written? : SchedEvent → Option Str
  | .sent (.putKvs _ key _) => some key
  | _ => none

/-- A worker, the writes that the durable store has not answered, each with
its key and request, and the requests whose write it has answered. -/
structure WriteNet where
  worker : SchedState
  /-- Writes without answer, oldest first. -/
  writes : List (Str×InflightIORequest)
  /-- Requests with an answer, oldest first. -/
  responded : List InflightIORequest

/-- A request is handled, a write is answered or given up after a time-out,
or another step of the worker. -/
inductive WriteLabel where
  | write (w : WriteRequest)
  | respond (i : ℕ) (timedOut : Bool)
  | work (l : SchedLabel)

/-- A message of an executor that persists an object, or a response of the
durable store to a write. -/
def concernsWrites : SchedLabel → Bool
  | .executor msg => decide ((msg++[nulChar])[1]?=some 3)
  | .kvsPut _ => true
  | _ => false

/-- One step; requests come from the executors of the worker. -/
def writeStep (cfg : SchedulerConfig) (n : WriteNet) : WriteLabel → Option WriteNet
  | .write w => if w.request.executorId∈cfg.executors ∧ w.lib.persistFlag=1 then
      (step cfg n.worker (.executor w.message)).map fun st =>
        {n with
          worker := st
          writes := n.writes++((since n.worker st).filterMap written?).map
            fun key => (key,w.request)}
    else none
  | .respond i timedOut => match n.writes[i]? with
    | none => none
    | some x =>
      if timedOut then some {n with writes := n.writes.eraseIdx i}
      else (step cfg n.worker (.kvsPut x.1)).map fun st =>
        ⟨st,n.writes.eraseIdx i,n.responded++[x.2]⟩
  | .work l => if concernsWrites l then none else
      (step cfg n.worker l).map fun st => {n with worker := st}

/-- A new worker. -/
def writeStart (cfg : SchedulerConfig) (seed : UInt32) : WriteNet := ⟨.start cfg seed,[],[]⟩

/-- The acknowledgement of a durable write; unlike the answer to a request
for an object it says no size. -/
def acknowledges (req : InflightIORequest) : SchedEvent → Bool
  | .sent (.toExecutor executor msg) => decide (executor=req.executorId ∧ msg=[3,req.reqId,1])
  | _ => false

/-- How often a request number of an executor has been acknowledged. -/
def acks (st : SchedState) (req : InflightIORequest) : ℕ := st.trace.countP (acknowledges req)

/-- A request is acknowledged only after the response to its own write. -/
def AcknowledgedAfter (n : WriteNet) : Prop := ∀ req,acks n.worker req≤n.responded.count req

/-- A response arrives while at most its own request waits under its key. -/
def Alone (n : WriteNet) : WriteLabel → Prop
  | .respond i false => ∀ x,n.writes[i]?=some x → (n.worker.keyKsvPutMap.getD x.1 []).length≤1
  | _ => True

/-- The open writes are those of waiting requests, and requests with an answer
have been acknowledged. -/
structure Held (cfg : SchedulerConfig) (writes w : List (Str×InflightIORequest))
    (responded : List InflightIORequest) (st : SchedState) : Prop where
  tracks : Tracks st.keyKsvPutMap w
  /-- Each open write is that of a waiting request. -/
  covered : ∀ x,writes.count x≤w.count x
  /-- The executors of waiting requests have a channel. -/
  channels : ∀ x∈w,x.2.executorId∈cfg.executors
  counted : ∀ req,acks st req=responded.count req

/-- Requests stay accounted for. -/
def Holds (cfg : SchedulerConfig) (writes : List (Str×InflightIORequest))
    (responded : List InflightIORequest) (st st' : SchedState) : Prop :=
  ∀ w,Held cfg writes w responded st → Held cfg writes w responded st'

/-- An event that acknowledges nothing. -/
def Unacknowledging (e : SchedEvent) : Prop := ∀ req,acknowledges req e=false

section

variable {cfg : SchedulerConfig} {writes w : List (Str×InflightIORequest)}
variable {responded : List InflightIORequest} {st st' : SchedState}

theorem holds_of_eq (hputs : st'.keyKsvPutMap=st.keyKsvPutMap) (htrace : st'.trace=st.trace) :
    Holds cfg writes responded st st' := by
  intro w h
  have hacks : ∀ req,acks st' req=acks st req := fun req => congrArg _ htrace
  exact ⟨hputs ▸ h.tracks,h.covered,h.channels,fun req => (hacks req).trans (h.counted req)⟩

variable {e : SchedEvent}

theorem acks_log (he : Unacknowledging e) (st : SchedState) (req : InflightIORequest) :
    acks (st.log e) req=acks st req := by
  simp [acks,SchedState.log,he req]

/-- Nothing but a write and an acknowledgement touches the waiting requests. -/
theorem holds_frame (cfg : SchedulerConfig) (writes : List (Str×InflightIORequest))
    (responded : List InflightIORequest) :
    LoopFrame Unacknowledging (Holds cfg writes responded) where
  toReadFrame := .of_idle (fun _ _ h => holds_of_eq h.keyKsvPutMap h.trace)
    (fun _ _ _ h h' w hw => h' w (h w hw))
    fun st _ he _ h =>
      ⟨h.tracks,h.covered,h.channels,fun req => (acks_log he st req).trans (h.counted req)⟩
  noteHints st call time := holds_of_eq (by rw [noteHints_eq]) (noteHints_trace call time st)
  delayCallQueue _ _ := holds_of_eq rfl rfl
  rerunCheckQueue _ _ _ := holds_of_eq rfl rfl
  numbers _ _ _ := holds_of_eq rfl rfl
  inflight _ _ := holds_of_eq rfl rfl
  awaited _ _ := holds_of_eq rfl rfl

theorem unacknowledging_of_routine (h : Routine e) : Unacknowledging e := by
  intro req
  cases e with
  | sent out =>
    cases out with
    | toExecutor executor msg =>
      have hhead : msg.head?=some 1 := h
      refine decide_eq_false fun hm => ?_
      rw [hm.2] at hhead
      cases hhead
    | _ => rfl
  | _ => rfl

theorem unacknowledging_response {body : Str} (hbody : body≠[]) (executor reqId : UInt8) :
    Unacknowledging (.sent (.toExecutor executor (response reqId body))) := by
  intro req
  refine decide_eq_false fun hm => hbody ?_
  have hlist : [3,reqId,1]++body=[3,req.reqId,1]++[] := hm.2
  exact (List.append_inj hlist rfl).2

/-- Every step that concerns no write keeps the account. -/
theorem holds_step {l : SchedLabel} (hl : concernsWrites l=false) (h : step cfg st l=some st') :
    Holds cfg writes responded st st' := by
  have hframe := holds_frame cfg writes responded
  refine step_within h (fun _ => holds_of_eq rfl rfl) fun hl' => Leads.or ?_ fun _ _ _ => trivial
  refine hframe.outcome (fun _ => unacknowledging_of_routine) (fun _ _ => rfl) hl'
    (fun msg he => ?_) (fun st key size body hbody => ?_) fun key he => ?_
  · subst he
    refine hframe.recvExecutor (fun _ => unacknowledging_of_routine)
      (fun _ executorId reqId => ?_) (fun _ packing info _ => ?_) fun hwrite => ?_
    · exact hframe.recvGet (fun _ => unacknowledging_of_routine)
        (fun size => unacknowledging_response (decimal_ne_nil size) executorId reqId)
        (fun _ _ => holds_of_eq rfl rfl) st
    · exact hframe.recvEphemeral (fun _ => unacknowledging_of_routine)
        (hframe.recordObject (fun _ _ _ _ => holds_of_eq rfl rfl) st packing)
        (fun _ _ => holds_of_eq rfl rfl) (fun _ _ => rfl) fun _ _ => rfl
    · exact absurd hwrite (of_decide_eq_false hl)
  · have hset : Holds cfg writes responded st {st with keyLenMap := st.keyLenMap.set key size} :=
      holds_of_eq rfl rfl
    exact (hframe.answerWaiting (unacknowledging_response hbody) (fun _ _ => holds_of_eq rfl rfl) _
      key).after hframe.trans hset
  · subst he
    cases hl

/-- A request is rejected, or its object is written and it waits. -/
theorem write_cases {w : WriteRequest} (hp : w.lib.persistFlag=1)
    (h : step cfg st (.executor w.message)=some st') : st'=st ∨
      ∃ e id key,written? e=some key ∧ Unacknowledging e ∧ st'={{st with ioThreadId := id}.log e with
        keyKsvPutMap := st.keyKsvPutMap.set key (st.keyKsvPutMap.getD key []++[w.request])} := by
  obtain ⟨id,hio⟩ := ioThread_eq cfg st
  obtain ⟨packing,text,hpacking,hmsg⟩ : ∃ packing text,(packing=1 ∨ packing=2) ∧
      w.message=w.lib.chanId::3::w.request.reqId::packing::text := by
    have hkind : objectKind w.lib true=3 := by simp [objectKind,hp]
    refine ⟨_,_,?_,by rw [WriteRequest.message,sendObject,hkind]; rfl⟩
    split
    · exact Or.inl rfl
    · exact Or.inr rfl
  have hout : recvExecutor cfg st w.message=.ok st' := SchedulingRules.step_eq_some h
  rw [hmsg,recvExecutor_sends cfg st (by decide),recvObject] at hout
  split at hout
  · cases hout
    exact Or.inl rfl
  · rename_i info _
    have hpersist : recvPersistent cfg st w.request.executorId w.request.reqId packing info=.ok st' :=
      hout
    obtain ⟨output,-,hpersist⟩ := bind_eq_ok hpersist
    rw [if_pos hpacking] at hpersist
    cases hpersist
    refine Or.inr ⟨.sent (.putKvs (ioThread cfg st).1 info.sessionKey output),id,info.sessionKey,rfl,
      fun _ => rfl,?_⟩
    rw [←hio]
    unfold putKvsAsync
    dsimp only [SchedState.emit,SchedState.log]
    rw [hio]

variable {key : Str}

theorem Held.push (h : Held cfg writes w responded st) {req : InflightIORequest}
    (hch : req.executorId∈cfg.executors) : Held cfg (writes++[(key,req)]) (w++[(key,req)]) responded
      {st with keyKsvPutMap := st.keyKsvPutMap.set key (st.keyKsvPutMap.getD key []++[req])} where
  tracks := h.tracks.push key req
  covered x := by
    rw [List.count_append,List.count_append]
    exact Nat.add_le_add_right (h.covered x) _
  channels := List.forall_mem_append.mpr ⟨h.channels,List.forall_mem_singleton.mpr hch⟩
  counted := h.counted

theorem acknowledges_response (req r : InflightIORequest) :
    acknowledges req (.sent (.toExecutor r.executorId (response r.reqId [])))=(r==req) := by
  rcases r with ⟨executorId,reqId⟩
  rcases req with ⟨executorId',reqId'⟩
  simp [acknowledges,response,beq_eq_decide]

/-- The response to a write of a key acknowledges all requests that wait
under it. -/
theorem kvsPut_acks (h : Held cfg writes w responded st)
    (hstep : step cfg st (.kvsPut key)=some st') : st'.keyKsvPutMap=st.keyKsvPutMap.erase key ∧
      ∀ req,acks st' req=acks st req+(waiting w key).count req := by
  have hch : ∀ r∈st.keyKsvPutMap.getD key [],r.executorId∈cfg.executors := fun r hr =>
    h.channels (key,r) (h.tracks.mem_getD.mp hr)
  have hout : recvKvsPut cfg st key=.ok st' := SchedulingRules.step_eq_some hstep
  rw [recvKvsPut,answers_ok hch] at hout
  cases hout
  refine ⟨rfl,fun req => ?_⟩
  show (st.trace++_).countP (acknowledges req)=_
  rw [List.countP_append,List.countP_map,h.tracks key,List.count]
  congr 1
  exact List.countP_congr fun r _ => by rw [Function.comp_apply,acknowledges_response]

variable {x : Str×InflightIORequest}

theorem mem_of_open (h : Held cfg writes w responded st) (hx : x∈writes) : x.2∈waiting w x.1 := by
  have hpos : 0<w.count x := lt_of_lt_of_le (List.count_pos_iff.mpr hx) (h.covered x)
  exact mem_waiting.mpr (List.count_pos_iff.mp hpos)

variable {i : ℕ}

/-- A response while only its own request waits. -/
theorem Held.respond (h : Held cfg writes w responded st) (hi : writes[i]?=some x)
    (halone : waiting w x.1=[x.2]) (hstep : step cfg st (.kvsPut x.1)=some st') :
    Held cfg (writes.eraseIdx i) (released w x.1) (responded++[x.2]) st' := by
  obtain ⟨hputs,hacks⟩ := kvsPut_acks h hstep
  obtain ⟨hlt,hx⟩ := List.getElem?_eq_some_iff.mp hi
  have hperm : (x::writes.eraseIdx i).Perm writes := hx ▸ List.getElem_cons_eraseIdx_perm hlt
  refine ⟨hputs ▸ h.tracks.release x.1,fun y => ?_,
    fun y hy => h.channels y (mem_released.mp hy).1,fun req => ?_⟩
  · have hcount := h.covered y
    have hsplit : (waiting w x.1).countP (fun r => (x.1,r)==y)+(released w x.1).count y=w.count y :=
      countP_released (fun z => z==y) w x.1
    rw [←hperm.count_eq y,List.count_cons] at hcount
    rw [halone] at hsplit
    have hone : [x.2].countP (fun r => (x.1,r)==y)=if x==y then 1 else 0 := by
      rw [List.countP_singleton]
    omega
  · rw [hacks,h.counted,halone,List.count_append]

/-- A response while other requests wait acknowledges one that has no answer. -/
theorem early_ack (h : Held cfg writes w responded st) (hi : writes[i]?=some x)
    (hmany : 1<(waiting w x.1).length) (hstep : step cfg st (.kvsPut x.1)=some st') :
    ∃ req,(responded++[x.2]).count req<acks st' req := by
  have hown : x.2∈waiting w x.1 := mem_of_open h (List.mem_of_getElem? hi)
  obtain ⟨-,hacks⟩ := kvsPut_acks h hstep
  by_cases hother : ∃ req∈waiting w x.1,req≠x.2
  · obtain ⟨req,hreq,hne⟩ := hother
    refine ⟨req,?_⟩
    have hpos : 0<(waiting w x.1).count req := List.count_pos_iff.mpr hreq
    have hzero : [x.2].count req=0 := List.count_eq_zero_of_not_mem fun hm =>
      hne (List.mem_singleton.mp hm)
    rw [hacks,h.counted,List.count_append]
    omega
  · have hall : ∀ req∈waiting w x.1,x.2=req := fun req hreq =>
      (not_not.mp fun hne => hother ⟨req,hreq,hne⟩).symm
    have hlen : (waiting w x.1).count x.2=(waiting w x.1).length := List.count_eq_length.mpr hall
    refine ⟨x.2,?_⟩
    rw [hacks,h.counted,List.count_append,hlen,List.count_singleton_self]
    omega

end

/-- All requests of a worker are accounted for. -/
def Accounted (cfg : SchedulerConfig) (n : WriteNet) : Prop :=
  ∃ w,Held cfg n.writes w n.responded n.worker

theorem accounted_start (cfg : SchedulerConfig) (seed : UInt32) :
    Accounted cfg (writeStart cfg seed) := ⟨[],tracks_empty,fun _ => le_refl 0,nofun,fun _ => rfl⟩

variable {cfg : SchedulerConfig} {n : WriteNet}

theorem Accounted.acknowledgedAfter (h : Accounted cfg n) : AcknowledgedAfter n := by
  obtain ⟨w,hw⟩ := h
  exact fun req => (hw.counted req).le

variable {n' : WriteNet} {l : WriteLabel}

theorem writeStep_cases (h : writeStep cfg n l=some n') :
    (∃ w st,l=.write w ∧ w.request.executorId∈cfg.executors ∧ w.lib.persistFlag=1 ∧
      step cfg n.worker (.executor w.message)=some st ∧ n'=⟨st,n.writes++
        ((since n.worker st).filterMap written?).map (fun key => (key,w.request)),n.responded⟩) ∨
    (∃ i x,l=.respond i true ∧ n.writes[i]?=some x ∧ n'={n with writes := n.writes.eraseIdx i}) ∨
    (∃ i x st,l=.respond i false ∧ n.writes[i]?=some x ∧ step cfg n.worker (.kvsPut x.1)=some st ∧
      n'=⟨st,n.writes.eraseIdx i,n.responded++[x.2]⟩) ∨
    ∃ m st,l=.work m ∧ concernsWrites m=false ∧ step cfg n.worker m=some st ∧
      n'={n with worker := st} := by
  cases l with
  | write w =>
    unfold writeStep at h
    dsimp only at h
    split at h
    · rename_i hguard
      obtain ⟨st,hst,rfl⟩ := Option.map_eq_some_iff.mp h
      exact Or.inl ⟨w,st,rfl,hguard.1,hguard.2,hst,rfl⟩
    · cases h
  | respond i timedOut =>
    unfold writeStep at h
    dsimp only at h
    split at h
    · cases h
    · rename_i x hi
      cases timedOut with
      | true =>
        cases h
        exact Or.inr (Or.inl ⟨i,x,rfl,hi,rfl⟩)
      | false =>
        obtain ⟨st,hst,rfl⟩ := Option.map_eq_some_iff.mp h
        exact Or.inr (Or.inr (Or.inl ⟨i,x,st,rfl,hi,hst,rfl⟩))
  | work m =>
    unfold writeStep at h
    dsimp only at h
    split at h
    · cases h
    · rename_i hm
      obtain ⟨st,hst,rfl⟩ := Option.map_eq_some_iff.mp h
      exact Or.inr (Or.inr (Or.inr ⟨m,st,rfl,Bool.eq_false_iff.mpr hm,hst,rfl⟩))

theorem accounted_step (h : Accounted cfg n) (hok : Alone n l) (hstep : writeStep cfg n l=some n') :
    Accounted cfg n' := by
  obtain ⟨w,hw⟩ := h
  rcases writeStep_cases hstep with ⟨r,st,rfl,hch,hp,hst,rfl⟩|⟨i,x,rfl,hi,rfl⟩|
    ⟨i,x,st,rfl,hi,hst,rfl⟩|⟨m,st,rfl,hm,hst,rfl⟩
  · rcases write_cases hp hst with rfl|⟨e,id,key,he,hsilent,rfl⟩
    · have hnone : since n.worker n.worker=[] := List.drop_length
      rw [hnone,List.filterMap_nil,List.map_nil,List.append_nil]
      exact ⟨w,hw⟩
    · have htrace : ({({n.worker with ioThreadId := id} : SchedState).log e with
          keyKsvPutMap := n.worker.keyKsvPutMap.set key
            (n.worker.keyKsvPutMap.getD key []++[r.request])} : SchedState).trace=
          n.worker.trace++[e] := rfl
      have hwritten : [e].filterMap written?=[key] := List.filterMap_cons_some he
      have hframe := holds_frame cfg n.writes n.responded
      have hlog : Held cfg n.writes w n.responded
          (({n.worker with ioThreadId := id} : SchedState).log e) :=
        hframe.log _ _ hsilent w (hframe.ioThreadId n.worker id w hw)
      rw [since_eq htrace,hwritten]
      exact ⟨_,hlog.push hch⟩
  · exact ⟨w,hw.tracks,fun y => le_trans ((List.eraseIdx_sublist _ _).count_le y) (hw.covered y),
      hw.channels,hw.counted⟩
  · have hown : x.2∈waiting w x.1 := mem_of_open hw (List.mem_of_getElem? hi)
    have hlen : (waiting w x.1).length≤1 := hw.tracks x.1 ▸ hok x hi
    have halone : waiting w x.1=[x.2] := by
      obtain ⟨r,hr⟩ := List.length_eq_one_iff.mp
        (le_antisymm hlen (List.length_pos_of_mem hown))
      rw [hr] at hown ⊢
      rw [List.mem_singleton.mp hown]
    exact ⟨_,hw.respond hi halone hst⟩
  · exact ⟨w,holds_step hm hst w hw⟩

theorem not_acknowledgedAfter (h : Accounted cfg n) (hno : ¬Alone n l)
    (hstep : writeStep cfg n l=some n') : ¬AcknowledgedAfter n' := by
  obtain ⟨w,hw⟩ := h
  rcases writeStep_cases hstep with ⟨r,st,rfl,-⟩|⟨i,x,rfl,-⟩|⟨i,x,st,rfl,hi,hst,rfl⟩|⟨m,st,rfl,-⟩
  · exact absurd trivial hno
  · exact absurd trivial hno
  · have hmany : 1<(waiting w x.1).length := by
      by_contra hle
      refine hno fun y hy => ?_
      rw [←Option.some.inj (hi.symm.trans hy),hw.tracks x.1]
      exact not_lt.mp hle
    obtain ⟨req,hlt⟩ := early_ack hw hi hmany hst
    exact fun hall => absurd (hall req) (not_le.mpr hlt)
  · exact absurd trivial hno

/-- Along a run requests are acknowledged only after the response to their own
write exactly when each response arrives while no other request waits under
its key. -/
theorem acknowledged_after_iff_alone (cfg : SchedulerConfig) (seed : UInt32) (l : List WriteLabel)
    (n : WriteNet) (hrun : run (writeStep cfg) (writeStart cfg seed) l=some n) :
    AllStates (writeStep cfg) AcknowledgedAfter (writeStart cfg seed) l ↔
      StepsMeet (writeStep cfg) Alone (writeStart cfg seed) l :=
  allStates_iff_stepsMeet (fun _ h => h.acknowledgedAfter)
    (fun _ _ _ h hok hstep => accounted_step h hok hstep)
    (fun _ _ _ h hno hstep => not_acknowledgedAfter h hno hstep) (accounted_start cfg seed) hrun

instance (n : WriteNet) (l : WriteLabel) : Decidable (Alone n l) :=
  match l with
  | .write _ => isTrue trivial
  | .work _ => isTrue trivial
  | .respond _ true => isTrue trivial
  | .respond i false => match h : n.writes[i]? with
    | none => isTrue fun x hx => by rw [h] at hx; cases hx
    | some x => decidable_of_iff ((n.worker.keyKsvPutMap.getD x.1 []).length≤1)
        ⟨fun hle y hy => by rw [h] at hy; exact Option.some.inj hy ▸ hle,fun hle => hle x h⟩

/-- A function persists a value under one key, with the number after the
given one. -/
def sampleWrite (rid : UInt8) : WriteRequest :=
  ⟨{sampleLibrary with rid := rid},createObject (str "b") (str "k") sampleLibrary.sessionId [] (str "v")⟩

/-- Two writes of a key, one after the other. -/
def writesInTurn : List WriteLabel :=
  [.write (sampleWrite 0),.respond 0 false,.write (sampleWrite 1),.respond 0 false]

theorem acknowledged_after_iff_alone_inTurn :
    (∃ n,run (writeStep sampleConfig) (writeStart sampleConfig 1) writesInTurn=some n ∧
      acks n.worker ⟨0,1⟩=1 ∧ acks n.worker ⟨0,2⟩=1) ∧
    AllStates (writeStep sampleConfig) AcknowledgedAfter (writeStart sampleConfig 1)
      writesInTurn := by
  have hcomputed : ((run (writeStep sampleConfig) (writeStart sampleConfig 1) writesInTurn).map
      fun n => decide (acks n.worker ⟨0,1⟩=1 ∧ acks n.worker ⟨0,2⟩=1))=some true := by
    decide +kernel
  obtain ⟨n,hn,hacks⟩ := exists_of_decided hcomputed
  exact ⟨⟨n,hn,hacks⟩,
    (acknowledged_after_iff_alone sampleConfig 1 writesInTurn n hn).mpr (by decide +kernel)⟩

/-- Two writes of a key wait, and the first response acknowledges both. -/
theorem second_write_acknowledged_early : ∃ n,
    run (writeStep sampleConfig) (writeStart sampleConfig 1)
      [.write (sampleWrite 0),.write (sampleWrite 1),.respond 0 false]=some n ∧
      n.writes.map Prod.snd=[⟨0,2⟩] ∧ n.responded=[⟨0,1⟩] ∧ acks n.worker ⟨0,2⟩=1 ∧
      ¬AcknowledgedAfter n := by
  have hcomputed : ((run (writeStep sampleConfig) (writeStart sampleConfig 1)
      [.write (sampleWrite 0),.write (sampleWrite 1),.respond 0 false]).map fun n => decide
      (n.writes.map Prod.snd=[⟨0,2⟩] ∧ n.responded=[⟨0,1⟩] ∧ acks n.worker ⟨0,2⟩=1))=some true := by
    decide +kernel
  obtain ⟨n,hn,hopen,hresponded,hacks⟩ := exists_of_decided hcomputed
  refine ⟨n,hn,hopen,hresponded,hacks,fun h => ?_⟩
  have hle := h ⟨0,2⟩
  rw [hacks,hresponded] at hle
  revert hle
  decide

end Pheromone.DurableWrites
