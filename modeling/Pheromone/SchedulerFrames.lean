import Pheromone.SchedulingRules

/-!
# What scheduling leaves alone

Scheduling, forwarding and checks of triggers leave object tables and waiting
requests as they are, but for entries of length zero.
-/

namespace Pheromone.SchedulerFrames

open UnorderedContainers FaultingRuns CommonNames SchedulerState Scheduling SchedulerLoop
open SchedulingRules

/-- Object and request tables are kept, lengths at most added, and only
events of a kind recorded. -/
structure Moves (P : SchedEvent → Prop) (st st' : SchedState) : Prop where
  keyValMap : st'.keyValMap=st.keyValMap
  /-- Known lengths are as before. -/
  keyLenMap : ∀ k v,st.keyLenMap.find? k=some v → st'.keyLenMap.find? k=some v
  callId : st'.callId=st.callId
  issued : st'.issued=st.issued
  callIdInflightArgsMap : st'.callIdInflightArgsMap=st.callIdInflightArgsMap
  keyCallIdMap : st'.keyCallIdMap=st.keyCallIdMap
  /-- What has been recorded is of the kind. -/
  trace : ∃ new,st'.trace=st.trace++new ∧ ∀ e∈new,P e

variable {P Q : SchedEvent → Prop} {st st' st'' : SchedState} {cfg : SchedulerConfig}

theorem Moves.refl (P : SchedEvent → Prop) (st : SchedState) : Moves P st st :=
  ⟨rfl,fun _ _ h => h,rfl,rfl,rfl,rfl,[],by simp,by simp⟩

theorem Moves.trans (h : Moves P st st') (h' : Moves P st' st'') : Moves P st st'' := by
  obtain ⟨new,he,hp⟩ := h.trace
  obtain ⟨new',he',hp'⟩ := h'.trace
  refine ⟨h'.keyValMap.trans h.keyValMap,fun k v hk => h'.keyLenMap k v (h.keyLenMap k v hk),
    h'.callId.trans h.callId,h'.issued.trans h.issued,h'.callIdInflightArgsMap.trans h.callIdInflightArgsMap,
    h'.keyCallIdMap.trans h.keyCallIdMap,new++new',?_,List.forall_mem_append.mpr ⟨hp,hp'⟩⟩
  rw [he',he,List.append_assoc]

/-- A known object stays known. -/
theorem Moves.contains (h : Moves P st st') {k : Str} (hk : st.keyLenMap.contains k=true) :
    st'.keyLenMap.contains k=true := by
  obtain ⟨v,hv⟩ := UMap.contains_eq_true_iff.mp hk
  exact UMap.contains_eq_true_iff.mpr ⟨v,h.keyLenMap k v hv⟩

/-- The delayed calls and the triggers are kept as well. -/
structure Sends (P : SchedEvent → Prop) (st st' : SchedState) : Prop extends Moves P st st' where
  delayCallQueue : st'.delayCallQueue=st.delayCallQueue
  bucketTriggersMap : st'.tables.bucketTriggersMap=st.tables.bucketTriggersMap
  removed : st'.tables.removed=st.tables.removed

theorem Sends.refl (P : SchedEvent → Prop) (st : SchedState) : Sends P st st :=
  ⟨Moves.refl P st,rfl,rfl,rfl⟩

theorem Sends.trans (h : Sends P st st') (h' : Sends P st' st'') : Sends P st st'' :=
  ⟨h.toMoves.trans h'.toMoves,h'.delayCallQueue.trans h.delayCallQueue,
    h'.bucketTriggersMap.trans h.bucketTriggersMap,h'.removed.trans h.removed⟩

/-- Sent messages other than requests for data. -/
def Sent : SchedEvent → Prop
  | .sent (.dataReq _ _) => False
  | .sent _ => True
  | _ => False

/-- What the relations compare. -/
def compared (st : SchedState) :=
  (st.keyValMap,st.keyLenMap,st.callId,st.issued,st.callIdInflightArgsMap,st.keyCallIdMap,st.trace)

theorem moves_of_eq (h : compared st'=compared st) : Moves P st st' := by
  simp only [compared,Prod.mk.injEq] at h
  obtain ⟨hvals,hlens,hcall,hissued,hinflight,hkeys,htrace⟩ := h
  exact ⟨hvals,by simp [hlens],hcall,hissued,hinflight,hkeys,[],by simp [htrace],by simp⟩

/-- The elementary changes keep delayed calls and triggers. -/
theorem sends_frame (P : SchedEvent → Prop) : ReadFrame P (Sends P) :=
  .of_idle (fun _ _ h => ⟨⟨h.keyValMap,h.keyLenMap,h.numbers.1,h.numbers.2,h.waiting.1,h.waiting.2,
      [],by rw [h.trace,List.append_nil],nofun⟩,h.delayCallQueue,h.triggers.1,h.triggers.2.1⟩)
    (fun _ _ _ h h' => h.trans h')
    fun _ e he => ⟨⟨rfl,fun _ _ h => h,rfl,rfl,rfl,rfl,[e],rfl,List.forall_mem_singleton.mpr he⟩,
      rfl,rfl,rfl⟩

theorem moves_frame (P : SchedEvent → Prop) : ReadFrame P (Moves P) :=
  (sends_frame P).mono (fun _ _ h => h.toMoves) fun _ _ _ h h' => h.trans h'

/-- The request under which a call without executor is forwarded. -/
def overflowRequest (call : Invocation) (args : List Str) : ForwardRequest :=
  ⟨call.sessionId,call.appName,[call.funcName],[args],call.argFlag⟩

/-- What follows a call of the scheduling function: messages, or one
forwarded call. -/
def Aftermath (call : Invocation) (e : SchedEvent) : Prop :=
  Sent e ∨ ∃ args,overflowArgs call=some args ∧ e=.forwarding .overflow (overflowRequest call args)

theorem aftermath_of_callEvent {call : Invocation} {e : SchedEvent} (h : CallEvent call e) :
    Aftermath call e := by
  rcases h with ⟨executor,client,rfl⟩|⟨args,hargs,rfl|⟨coord,msg,rfl,-,-⟩⟩
  · exact Or.inl trivial
  · exact Or.inr ⟨args,hargs,rfl⟩
  · exact Or.inl trivial

/-- Scheduling records the call and then only its aftermath. -/
theorem leads_scheduleFuncCall {call : Invocation} (h : ∀ e,Aftermath call e → P e)
    (origin : Origin) (st : SchedState) :
    Leads (Moves P) (st.log (.scheduled origin call)) id (scheduleFuncCall cfg origin st call) := by
  refine (moves_frame P).scheduleFuncCall (fun e he => h e (aftermath_of_callEvent he))
    (fun _ _ => moves_of_eq rfl) (fun st time => ?_) origin st
  rw [noteHints_eq]
  exact moves_of_eq rfl

theorem sends_sizedArgs (names : List Str) (st : SchedState) : Sends P st (sizedArgs names st).2 :=
  (sends_frame P).sizedArgs names st

/-- Events other than the arrival and the scheduling of requests, and other
than requests for data. -/
def Unrequested : SchedEvent → Prop
  | .requested _ _ => False
  | .scheduled (.request _) _ => False
  | .sent (.dataReq _ _) => False
  | _ => True

theorem unrequested_of_sent (e : SchedEvent) (h : Sent e) : Unrequested e := by
  cases e with
  | sent out =>
    cases out with
    | dataReq ioThread key => cases h
    | _ => trivial
  | _ => cases h

theorem unrequested_of_aftermath {call : Invocation} (e : SchedEvent) (h : Aftermath call e) :
    Unrequested e := by
  rcases h with h|⟨args,-,rfl⟩
  · exact unrequested_of_sent e h
  · trivial

theorem unrequested_of_forwardEvent {site : ForwardSite} {call : ForwardRequest} (e : SchedEvent)
    (h : ForwardEvent site call e) : Unrequested e := by
  rcases h with rfl|⟨coord,msg,rfl,-,-⟩ <;> trivial

/-- Calls other than requests leave the tables alone. -/
theorem moves_start (hP : ∀ e,Unrequested e → P e) :
    StartFrame cfg P (fun origin _ => ∀ cid,origin≠.request cid) (Moves P) (Moves P) where
  toReadFrame := moves_frame P
  fault _ _ h := h
  faultAfter _ _ _ h h' := h.trans h'
  schedule st origin call ho := by
    have hlog : Moves P st (st.log (.scheduled origin call)) := by
      refine (moves_frame P).log st _ (hP _ ?_)
      cases origin with
      | request cid => exact absurd rfl (ho cid)
      | _ => trivial
    exact ((leads_scheduleFuncCall (fun e he => hP e (unrequested_of_aftermath e he)) origin
      st).after (moves_frame P).trans hlog).or fun _ _ h => h
  batch st _ := ((moves_frame P).forward (fun e he => hP e (unrequested_of_forwardEvent e he)) st).or
    fun _ _ h => h

/-- Requests are left alone, objects at most added, and only events of a
kind recorded; numbers may be used. -/
structure Passes (P : SchedEvent → Prop) (st st' : SchedState) : Prop where
  known : ∀ k,st.keyLenMap.contains k=true → st'.keyLenMap.contains k=true
  /-- The counter follows the used numbers. -/
  callId : st.callId=UInt32.ofNat st.issued → st'.callId=UInt32.ofNat st'.issued
  issued : st.issued≤ st'.issued
  callIdInflightArgsMap : st'.callIdInflightArgsMap=st.callIdInflightArgsMap
  keyCallIdMap : st'.keyCallIdMap=st.keyCallIdMap
  /-- What has been recorded is of the kind. -/
  trace : ∃ new,st'.trace=st.trace++new ∧ ∀ e∈new,P e

theorem Moves.passes (h : Moves P st st') : Passes P st st' :=
  ⟨fun _ hk => h.contains hk,fun hc => by rw [h.callId,h.issued,hc],h.issued.ge,
    h.callIdInflightArgsMap,h.keyCallIdMap,h.trace⟩

theorem passes_of_eq (h : compared st'=compared st) : Passes P st st' := (moves_of_eq h).passes

theorem Passes.trans (h : Passes P st st') (h' : Passes P st' st'') : Passes P st st'' := by
  obtain ⟨new,he,hp⟩ := h.trace
  obtain ⟨new',he',hp'⟩ := h'.trace
  refine ⟨fun k hk => h'.known k (h.known k hk),fun hc => h'.callId (h.callId hc),
    h.issued.trans h'.issued,h'.callIdInflightArgsMap.trans h.callIdInflightArgsMap,
    h'.keyCallIdMap.trans h.keyCallIdMap,new++new',?_,List.forall_mem_append.mpr ⟨hp,hp'⟩⟩
  rw [he',he,List.append_assoc]

theorem Passes.mono (h : Passes P st st') (hPQ : ∀ e,P e → Q e) : Passes Q st st' := by
  obtain ⟨new,he,hp⟩ := h.trace
  exact ⟨h.known,h.callId,h.issued,h.callIdInflightArgsMap,h.keyCallIdMap,new,he,
    fun e hm => hPQ e (hp e hm)⟩

/-- Values and lengths of objects are kept as well. -/
structure Keeps (P : SchedEvent → Prop) (st st' : SchedState) : Prop where
  passes : Passes P st st'
  keyValMap : st'.keyValMap=st.keyValMap
  /-- Known lengths are as before. -/
  keyLenMap : ∀ k v,st.keyLenMap.find? k=some v → st'.keyLenMap.find? k=some v

theorem Moves.keeps (h : Moves P st st') : Keeps P st st' := ⟨h.passes,h.keyValMap,h.keyLenMap⟩

theorem Keeps.trans (h : Keeps P st st') (h' : Keeps P st' st'') : Keeps P st st'' :=
  ⟨h.passes.trans h'.passes,h'.keyValMap.trans h.keyValMap,
    fun k v hk => h'.keyLenMap k v (h.keyLenMap k v hk)⟩

/-- Numbers are used one after the other. -/
theorem keeps_counted (st : SchedState) (n : ℕ) :
    Keeps P st {st with callId := st.callId+UInt32.ofNat n,issued := st.issued+n} := by
  refine ⟨⟨fun _ hk => hk,fun hc => ?_,Nat.le_add_right _ _,rfl,rfl,[],by simp,by simp⟩,rfl,
    fun _ _ hk => hk⟩
  show st.callId+UInt32.ofNat n=UInt32.ofNat (st.issued+n)
  rw [hc,UInt32.ofNat_add]

/-- After an ephemeral object is recorded, its value and length stay. -/
theorem recvEphemeral_keeps (hP : ∀ e,Unrequested e → P e) {st1 : SchedState} {isDataPacking : UInt8}
    {info : ObjectInfo} (hrec : recordObject st isDataPacking info=.ok st1) :
    Leads (Keeps P) st1 id (recvEphemeral cfg st isDataPacking info) := by
  have hstart := (@moves_start P cfg hP).mono (fun _ _ h => h.keeps) fun _ _ _ h h' => h.trans h'
  refine (hstart.recorded (fun _ _ => hP _ trivial) keeps_counted (fun _ _ => ?_) (fun _ _ => nofun)
    (fun _ _ => nofun) hrec).leads
  exact Moves.keeps (moves_of_eq rfl)

theorem passes_frame (P : SchedEvent → Prop) : ReadFrame P (Passes P) :=
  (moves_frame P).mono (fun _ _ h => h.passes) fun _ _ _ h h' => h.trans h'

theorem Leads.passes {α : Type} {final : α → SchedState} {x : Outcome α}
    (h : Leads (Moves P) st final x) : Leads (Passes P) st final x := h.mono fun _ hm => hm.passes

theorem passes_setKeyLen (st : SchedState) (key : Str) (size : UInt32) :
    Passes P st {st with keyLenMap := st.keyLenMap.set key size} := by
  refine ⟨fun k hk => ?_,fun h => h,le_refl _,rfl,rfl,[],by simp,by simp⟩
  show (st.keyLenMap.set key size).contains k=true
  rw [UMap.contains_set,hk,Bool.or_true]

theorem leads_recvEphemeral (hP : ∀ e,Unrequested e → P e) (st : SchedState) (isDataPacking : UInt8)
    (info : ObjectInfo) : Leads (Passes P) st id (recvEphemeral cfg st isDataPacking info) := by
  have hstart := (@moves_start P cfg hP).mono (fun _ _ h => h.passes) fun _ _ _ h h' => h.trans h'
  have hrecord : Leads (Passes P) st id (recordObject st isDataPacking info) := by
    refine (passes_frame P).recordObject (fun st _ size _ => ?_) st isDataPacking
    have h := @passes_setKeyLen P st info.objName size
    exact ⟨h.known,h.callId,h.issued,h.callIdInflightArgsMap,h.keyCallIdMap,h.trace⟩
  exact (hstart.recvEphemeral (fun _ _ => hP _ trivial) (fun st n => (keeps_counted st n).passes)
    (fun _ _ => passes_of_eq rfl) (fun _ _ => nofun) (fun _ _ => nofun)
    (hrecord.or fun _ _ h => h)).leads

/-- No message of an executor concerns the waiting requests; only one that
asks for an object can make the scheduler request data. -/
theorem leads_recvExecutor (hP : ∀ e,Unrequested e → P e) (st : SchedState) {msg : Str}
    (hdata : (msg++[nulChar])[1]?=some 1 → ∀ ioThread key,P (.sent (.dataReq ioThread key))) :
    Leads (Passes P) st id (recvExecutor cfg st msg) := by
  refine ((passes_frame P).recvExecutor (fun _ _ h => h) (fun _ _ => hP _ trivial)
    (fun hget executorId reqId store key => ?_) (fun _ packing info _ => ?_)
    fun _ executorId reqId packing info => ?_).leads
  · exact ((passes_frame P).recvGet (hdata hget) (fun _ _ => hP _ trivial) (fun _ => hP _ trivial)
      (fun _ _ => passes_of_eq rfl) st store key).or fun _ _ h => h
  · exact (leads_recvEphemeral hP st packing info).or fun _ _ h => h
  · exact ((passes_frame P).recvPersistent (fun _ _ => passes_of_eq rfl)
      (fun _ _ _ => hP _ trivial) st executorId reqId packing info).or fun _ _ h => h

theorem leads_answerWaiting (h : ∀ e,Sent e → P e) (st : SchedState) (key body : Str) :
    Leads (Sends P) st id (answerWaiting cfg st key body) :=
  (sends_frame P).answerWaiting (fun _ _ => h _ trivial) 
    (fun _ _ => ⟨moves_of_eq rfl,rfl,rfl,rfl⟩) st key

theorem leads_recvKvsGet (h : ∀ e,Sent e → P e) (st : SchedState) (key value : Str) :
    Leads (Passes P) st id (recvKvsGet cfg st key value) := by
  have hlen := @passes_setKeyLen P st (kvsKeyPrefix++kDelimiter++key) (UInt32.ofNat value.length)
  refine (leads_answerWaiting h _ _ _).mono fun st' hs => hlen.trans ?_
  have hm := hs.passes
  exact ⟨hm.known,hm.callId,hm.issued,hm.callIdInflightArgsMap,hm.keyCallIdMap,hm.trace⟩

/-- Steps other than a call and a data response leave the waiting requests alone. -/
theorem leads_outcome_other (hP : ∀ e,Unrequested e → P e) (st : SchedState) {l : SchedLabel}
    (hget : (∃ msg,l=.executor msg ∧ (msg++[nulChar])[1]?=some 1) →
      ∀ ioThread key,P (.sent (.dataReq ioThread key)))
    (hcall : ∀ msg,l≠.call msg) (hdata : ∀ msg,l≠.data msg) :
    Leads (Passes P) st id (outcome cfg st l) := by
  have hsent : ∀ e,Sent e → P e := fun e he => hP e (unrequested_of_sent e he)
  have hstart := @moves_start P cfg hP
  cases l with
  | executor msg => exact leads_recvExecutor hP st fun hb => hget ⟨msg,rfl,hb⟩
  | update msg =>
    refine Leads.after (passes_frame P).trans ((passes_frame P).tick st) ?_
    exact (leads_orFault ((passes_frame P).refl _) _).map (passes_frame P).trans fun w _ =>
      passes_of_eq rfl
  | call msg => exact absurd rfl (hcall msg)
  | data msg => exact absurd rfl (hdata msg)
  | kvsGet key value => exact leads_recvKvsGet hsent st key value
  | kvsPut key =>
    exact (passes_frame P).recvKvsPut (fun _ _ => hP _ trivial) (fun _ _ => passes_of_eq rfl) st key
  | delay =>
    exact Leads.passes (hstart.delayForwarding (fun _ _ => nofun) (fun _ _ => moves_of_eq rfl)
      (fun st _ => ((moves_frame P).forward (fun e he => hP e (unrequested_of_forwardEvent e he))
        st).or fun _ _ h => h) st).leads
  | report fuel =>
    exact Leads.passes (hstart.reportTimer (fun _ _ _ => moves_of_eq rfl) (fun _ _ => hP _ trivial)
      (fun _ _ => nofun) fuel st).leads
  | write name data => exact passes_of_eq rfl

end Pheromone.SchedulerFrames
