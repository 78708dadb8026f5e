import Pheromone.FuncCallHandler
import Pheromone.RequestAdmission

/-!
# The session of a routed call

A call routed as a whole carries its session. The parts of a dealt batch do
not, so their requests run in the empty session.
-/

namespace Pheromone.SessionPropagation

open UnorderedContainers FaultingRuns CommonNames OperationMessages CoordinatorNotify
open FuncCallHandler SchedulerState Scheduling SchedulerLoop SchedulerFrames
open RequestAdmission

/-- Only events of a kind are recorded. -/
def Records (P : SchedEvent → Prop) (st st' : SchedState) : Prop :=
  ∃ new,st'.trace=st.trace++new ∧ ∀ e∈new,P e

theorem records_refl (P : SchedEvent → Prop) (st : SchedState) : Records P st st :=
  ⟨[],(List.append_nil _).symm,by simp⟩

theorem records_trans (P : SchedEvent → Prop) (a b c : SchedState) (h : Records P a b)
    (h' : Records P b c) : Records P a c := by
  obtain ⟨new,he,hp⟩ := h
  obtain ⟨new',he',hp'⟩ := h'
  exact ⟨new++new',by rw [he',he,List.append_assoc],List.forall_mem_append.mpr ⟨hp,hp'⟩⟩

/-- Requests are stored and scheduled in one session. -/
def RunsIn (session : Session) : SchedEvent → Prop
  | .requested _ args => args.sessionId=session
  | .scheduled (.request _) call => call.sessionId=session
  | _ => True

theorem runsIn_of_unrequested {session : Session} (e : SchedEvent) (h : Unrequested e) :
    RunsIn session e := by
  cases e with
  | requested cid args => cases h
  | scheduled origin call =>
    cases origin with
    | request cid => cases h
    | _ => trivial
  | _ => trivial

variable {cfg : SchedulerConfig}

theorem records_scheduleFuncCall {cid : UInt32} (st : SchedState) (call : Invocation) :
    Leads (Records (RunsIn call.sessionId)) st id (scheduleFuncCall cfg (.request cid) st call) := by
  have hlog : Records (RunsIn call.sessionId) st (st.log (.scheduled (.request cid) call)) :=
    ⟨[.scheduled (.request cid) call],rfl,by simp [RunsIn]⟩
  have hafter : Leads (Moves (RunsIn call.sessionId)) (st.log (.scheduled (.request cid) call)) id
      (scheduleFuncCall cfg (.request cid) st call) :=
    leads_scheduleFuncCall (fun e he => runsIn_of_unrequested e (unrequested_of_aftermath e he)) _ st
  exact (hafter.mono fun _ hm => hm.trace).after (records_trans _) hlog

theorem records_admitRequest {appName : Str} {sessionId : Session} (st : SchedState)
    (req : FunctionRequest) :
    Leads (Records (RunsIn sessionId)) st id (admitRequest cfg appName sessionId st req) := by
  by_cases hflag : (requestArgs req).2>0
  · by_cases hlocal : ∀ k∈(requestArgs req).1,st.keyLenMap.contains k=true
    · rw [admitRequest_local cfg appName sessionId hflag hlocal]
      refine (records_scheduleFuncCall _ _).after (records_trans _) ?_
      exact ⟨[_],rfl,by simp [RunsIn,localEntry]⟩
    · push Not at hlocal
      obtain ⟨k,hm,hc⟩ := hlocal
      obtain ⟨r,hr,he⟩ := admitRequest_missing cfg appName sessionId hflag
        ⟨k,hm,Bool.eq_false_iff.mpr hc⟩
      obtain ⟨new,hnew,hsent,-,-⟩ := hr.trace
      rw [he]
      refine ⟨new++[.requested st.callId r.1],?_,List.forall_mem_append.mpr ⟨?_,?_⟩⟩
      · show r.2.trace++_=_
        rw [hnew,List.append_assoc]
      · intro e hm
        obtain ⟨ioThread,key,rfl⟩ := hsent e hm
        trivial
      · intro e hm
        rw [List.mem_singleton.mp hm,hr.args]
        rfl
  · rw [admitRequest_values cfg appName sessionId hflag]
    exact records_scheduleFuncCall st _

/-- A worker runs all requests of a call in the session of its message. -/
theorem records_recvCall (cfg : SchedulerConfig) (st : SchedState) (call : FunctionCall) :
    Leads (Records (RunsIn call.sessionId)) st id (recvCall cfg st call) := by
  unfold recvCall
  refine (leads_foldlM (records_refl _) (records_trans _) (fun st req _ => ?_) _).after
    (records_trans _) (records_refl _ st)
  exact (records_admitRequest st req).map (records_trans _) fun st _ => records_refl _ st

/-- The session of a call: its own, or the one drawn for it. -/
def callSession (cfg : CoordConfig) (seed : UInt32) (call : FunctionCall) : Session :=
  (openSession cfg seed call).1.sessionId

theorem openSession_eq (cfg : CoordConfig) (seed : UInt32) (call : FunctionCall) :
    (openSession cfg seed call).1={call with sessionId := callSession cfg seed call} := by
  unfold callSession openSession
  split <;> rfl

variable {st : CoordState} {call : FunctionCall}

/-- A call that is not dealt is routed as it is, with its session. -/
theorem whole_messages (cfg : CoordConfig) (h : ¬Splits st.nodeStatusMap call) :
    ∃ st' out,funcCallHandler cfg st call=some (st',out) ∧ ∀ node ioThread msg,
      CoordOut.call node ioThread msg∈out → msg=(openSession cfg st.seed call).1 := by
  have hopen : ¬Splits st.nodeStatusMap (openSession cfg st.seed call).1 := by
    rw [openSession_eq]
    exact h
  obtain ⟨msgs,seed',hr,hmsgs⟩ := scheduledNodeMsg_whole cfg hopen (openSession cfg st.seed call).2
  rw [funcCallHandler,hr,Option.bind_eq_bind,Option.bind_some]
  dsimp only
  split
  · refine ⟨_,_,rfl,fun node ioThread msg hm => ?_⟩
    split at hm
    · cases hm
    · cases List.mem_singleton.mp hm
  · refine ⟨_,_,rfl,fun node ioThread msg hm => ?_⟩
    have hmem := (mem_sendCalls cfg seed').mp ⟨ioThread,hm⟩
    exact hmsgs _ hmem

/-- A call that is not dealt carries its session. -/
theorem whole_calls (cfg : CoordConfig) (h : ¬Splits st.nodeStatusMap call) :
    ∃ st' out,funcCallHandler cfg st call=some (st',out) ∧ ∀ node ioThread msg,
      CoordOut.call node ioThread msg∈out → msg.sessionId=callSession cfg st.seed call := by
  obtain ⟨st',out,hhandle,hout⟩ := whole_messages cfg h
  refine ⟨st',out,hhandle,fun node ioThread msg hm => ?_⟩
  rw [hout node ioThread msg hm,callSession]

/-- A dealt call has at least one part, and no part carries its session. -/
theorem split_calls (cfg : CoordConfig) (h : Splits st.nodeStatusMap call) :
    ∃ st' out,funcCallHandler cfg st call=some (st',out) ∧ ∃ node ioThread msg,
      CoordOut.call node ioThread msg∈out ∧ msg.sessionId=[] := by
  have hopen : Splits st.nodeStatusMap (openSession cfg st.seed call).1 := by
    rw [openSession_eq]
    exact h
  obtain ⟨sizes,msgs,hparts,hr,hmsgs⟩ :=
    scheduledNodeMsg_split cfg hopen (openSession cfg st.seed call).2
  have hsizes : sizes≠[] := by
    intro hnil
    have htotal := hparts.total
    have hlen := hopen.1
    rw [hnil,List.sum_nil] at htotal
    omega
  have hentries : msgs.entries≠[] := by
    have hpos : 0<sizes.length := List.length_pos_iff.mpr hsizes
    have hle := hparts.length_le
    rw [hmsgs]
    apply List.ne_nil_of_length_pos
    rw [List.length_map,List.length_zip,List.length_splitLengths]
    omega
  rw [funcCallHandler,hr,Option.bind_eq_bind,Option.bind_some]
  dsimp only
  have hne : msgs.isEmpty=false := by
    rw [UMap.isEmpty]
    cases he : msgs.entries with
    | nil => exact absurd he hentries
    | cons e l => rfl
  rw [hne,if_neg Bool.false_ne_true]
  obtain ⟨e,he⟩ := List.exists_mem_of_ne_nil _ hentries
  obtain ⟨ioThread,hm⟩ := (mem_sendCalls cfg (openSession cfg st.seed call).2).mpr he
  refine ⟨_,_,rfl,e.1,ioThread,e.2,hm,?_⟩
  rw [hmsgs] at he
  obtain ⟨part,-,rfl⟩ := List.mem_map.mp he
  rfl

/-- All messages for a call carry its own session, or the sixteen letters
drawn for it, and the workers run its requests there, exactly when the call
is not dealt over several workers. -/
theorem call_keeps_session_iff (cfg : CoordConfig) (st : CoordState) (call : FunctionCall) :
    (∃ session st' out,funcCallHandler cfg st call=some (st',out) ∧
      (call.sessionId≠[] → session=call.sessionId) ∧
      (call.sessionId=[] → session=(genRandom cfg.randR st.seed 16).1 ∧ session.length=16) ∧
      ∀ node ioThread msg,CoordOut.call node ioThread msg∈out → msg.sessionId=session ∧
        ∀ (wcfg : SchedulerConfig) (w : SchedState),
          Leads (Records (RunsIn session)) w id (recvCall wcfg w msg)) ↔
    call.requests.length≤1 ∨
      (∃ e∈eligible call.source st.nodeStatusMap,
        (call.requests.length : ℤ)≤e.2.availExecutors) ∨
      totalExecutors (availNodes (eligible call.source st.nodeStatusMap))<
        (call.requests.length : ℤ) := by
  have hsplit : (call.requests.length≤1 ∨
      (∃ e∈eligible call.source st.nodeStatusMap,
        (call.requests.length : ℤ)≤e.2.availExecutors) ∨
      totalExecutors (availNodes (eligible call.source st.nodeStatusMap))<
        (call.requests.length : ℤ)) ↔ ¬Splits st.nodeStatusMap call := by
    unfold Splits
    simp only [not_and_or,not_forall,exists_prop,not_lt,not_le]
  have hown : call.sessionId≠[] → callSession cfg st.seed call=call.sessionId := by
    intro h
    rw [callSession,openSession,if_neg h]
  have hdrawn : call.sessionId=[] → callSession cfg st.seed call=(genRandom cfg.randR st.seed 16).1 := by
    intro h
    rw [callSession,openSession,if_pos h]
  rw [hsplit]
  constructor
  · rintro ⟨session,st',out,hh,h1,h2,h3⟩ hs
    obtain ⟨st2,out2,hh2,node,ioThread,msg,hm,hnil⟩ := split_calls cfg hs
    rw [hh] at hh2
    obtain ⟨-,rfl⟩ := Prod.mk.inj (Option.some.inj hh2)
    have hempty : session=[] := (h3 node ioThread msg hm).1.symm.trans hnil
    by_cases hc : call.sessionId=[]
    · have hlen := (h2 hc).2
      rw [hempty] at hlen
      cases hlen
    · exact hc ((h1 hc).symm.trans hempty)
  · intro hs
    obtain ⟨st',out,hh,hmsg⟩ := whole_calls cfg hs
    refine ⟨callSession cfg st.seed call,st',out,hh,hown,fun h => ⟨hdrawn h,?_⟩,?_⟩
    · rw [hdrawn h,genRandom_length]
    · intro node ioThread msg hm
      have he := hmsg node ioThread msg hm
      exact ⟨he,fun wcfg w => he ▸ records_recvCall wcfg w msg⟩

/-- Two workers with one free executor each. -/
def sampleNodes : UMap Address NodeStatus :=
  (UMap.set ∅ (str "10.0.0.1") ⟨1⟩).set (str "10.0.0.2") ⟨1⟩

/-- A forwarded batch of two functions in a session is dealt over two
workers, and the parts carry no session. -/
theorem dealt_batch_loses_session :
    ∃ (cfg : CoordConfig) (st st' : CoordState) (call : FunctionCall) (out : List CoordOut)
      (node : Address) (ioThread : ℕ) (msg : FunctionCall),
      funcCallHandler cfg st call=some (st',out) ∧ CoordOut.call node ioThread msg∈out ∧
      call.sessionId≠[] ∧ msg.requests≠[] ∧ msg.sessionId=[] := by
  refine ⟨DispatchCapacity.oneThread,⟨∅,∅,∅,∅,∅,∅,sampleNodes,0⟩,⟨∅,∅,∅,∅,∅,∅,sampleNodes,0⟩,
    ⟨str "app",[⟨str "f",[]⟩,⟨str "g",[]⟩],str "10.0.0.3",[],[],str "0123456789abcdef",true⟩,
    [.call (str "10.0.0.1") 0 ⟨str "app",[⟨str "f",[]⟩],[],[],[],[],true⟩,
      .call (str "10.0.0.2") 0 ⟨str "app",[⟨str "g",[]⟩],[],[],[],[],true⟩],
    str "10.0.0.1",0,⟨str "app",[⟨str "f",[]⟩],[],[],[],[],true⟩,?_,?_,?_,?_,?_⟩
  · rfl
  · exact List.mem_cons_self
  · decide
  · simp
  · rfl

end Pheromone.SessionPropagation
