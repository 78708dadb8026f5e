import Mathlib.Data.Int.ConditionallyCompleteOrder
import Pheromone.ObjectDispatch
import Pheromone.TokenLedgers

/-!
# Conservation of calls in the scheduler

A scheduled call is sent to one executor, waits in the delay queue or is
forwarded; a ledger of numbered calls shows that none is lost or repeated.
-/

namespace Pheromone.CallConservation

open UnorderedContainers TokenLedgers GuardedRuns FaultingRuns CommonNames OperationMessages
open WorkerUpdates ExecutorPool SchedulerState Scheduling SchedulerLoop SchedulingRules
open ObjectDispatch

/-- A call that is handed over for the first time; the delay loop hands its
calls over again. -/
def submission? : SchedEvent → Option Invocation
  | .scheduled .delayed _ => none
  | .scheduled _ call => some call
  | _ => none

/-- A call that is sent to an executor. -/
def callSent? : SchedEvent → Option (UInt8×Str)
  | .sent (.toExecutor executor msg) => if msg.head?=some 1 then some (executor,msg) else none
  | _ => none

/-- A call that is handed to the forwarding function. -/
def handed? : SchedEvent → Option ForwardRequest
  | .forwarding .batch _ => none
  | .forwarding _ call => some call
  | _ => none

/-- The calls so far, by number. -/
def submissions (st : SchedState) : List Invocation := st.trace.filterMap submission?

/-- A message gives the call of a number to an executor. -/
def Delivers (calls : List Invocation) (sent : UInt8×Str) (p : ℕ×UInt8) : Prop :=
  sent.1=p.2 ∧ ∃ call client,calls[p.1]?=some call ∧ sent.2=callMessage call client

/-- A request forwards the call of a number. -/
def Forwards (calls : List Invocation) (req : ForwardRequest) (i : ℕ) : Prop :=
  ∃ call args,calls[i]?=some call ∧ (args=call.funcArgs ∨ overflowArgs call=some args) ∧
    req=⟨call.sessionId,call.appName,[call.funcName],[args],call.argFlag⟩

/-- The ledger describes the worker: its tokens are the calls, by number. The
times of entries and those noted in the ledger are related. A worker may
reject the calls that it does not place. -/
structure Accounts (timed : ℤ → ℤ → Prop) (rejects : Bool) (st : SchedState)
    (L : Ledger UInt8 ℤ) : Prop where
  issued : (submissions st).length=L.issued
  /-- What has been sent to executors. -/
  placed : List.Forall₂ (Delivers (submissions st)) (st.trace.filterMap callSent?) L.placed
  waiting : List.Forall₂ (fun d w => (submissions st)[w.1]?=some d.toInvocation ∧
    timed d.triggerTime w.2) st.delayCallQueue L.waiting
  passed : rejects=false →
    List.Forall₂ (Forwards (submissions st)) (st.trace.filterMap handed?) L.passed

/-- The queue is sorted, and its times are not later than any reading of the
clock to come. -/
structure Timely (cfg : SchedulerConfig) (st : SchedState) : Prop where
  sorted : st.delayCallQueue.Pairwise fun a b => a.triggerTime≤b.triggerTime
  /-- Entries are of the past. -/
  past : ∀ d∈st.delayCallQueue,∀ k,st.tick≤k → d.triggerTime≤ cfg.clock k

/-- The delay of a call is over. -/
def Expired (cfg : SchedulerConfig) (now : ℤ) (d : DelayFunctionCall) : Bool :=
  decide (Int.tdiv (now-d.triggerTime) 1000>cfg.schedDelayTime.toNat)

/-- Functions that an event starts or forwards as direct targets. -/
def targets : SchedEvent → List Str
  | .scheduled .direct call => [call.funcName]
  | .forwarding .batch call => call.funcNames
  | _ => []

/-- A call is handed over again by the delay loop. -/
def retries : SchedEvent → Bool
  | .scheduled .delayed _ => true
  | _ => false

/-- A call is forwarded at the end of its delay. -/
def expires : SchedEvent → Bool
  | .forwarding .expiry _ => true
  | _ => false

/-- Every call is at exactly one place; the queue is sorted, so that behind
an entry whose delay is not over there is none whose delay is; the targets of
an object are handed out once each; a pass over the delayed calls ends after
at most one round per free executor and one per waiting call. -/
structure Conserved (cfg : SchedulerConfig) (st : SchedState) : Prop where
  /-- The calls and their places. -/
  ledger : ∃ L,Accounts (fun _ _ => True) false st L
  sorted : st.delayCallQueue.Pairwise fun a b => a.triggerTime≤b.triggerTime
  /-- No call whose delay is over is passed over. -/
  behind : ∀ now,∀ d∈st.delayCallQueue.dropWhile (Expired cfg now),Expired cfg now d=false
  batch : ∀ appName deps isDataPacking info st',info.tgtFunction=[] →
    directInvocation cfg st appName deps isDataPacking info=.ok st' →
      (since st st').flatMap targets=deps.elems
  /-- Rounds of the first loop. -/
  retried : (since st (endState id (delayForwarding cfg st))).countP retries≤
    getAvailExecutorNum st.pool.executorStatusMap
  /-- Rounds of the second loop. -/
  expired : (since st (endState id (delayForwarding cfg st))).countP expires≤
    st.delayCallQueue.length

/-- The message of a forwarded call. -/
def Forwarded (e : SchedEvent) : Prop := ∃ coord msg,e=.sent (.forward coord msg)

/-- Only forwarded calls have been sent, and the queue is as before. -/
structure Quiet (st st' : SchedState) : Prop where
  queue : st'.delayCallQueue=st.delayCallQueue
  tick : st.tick≤ st'.tick
  records : Records Forwarded st st'

theorem quiet_frame : ReadFrame Forwarded Quiet :=
  .of_idle (fun _ _ h => ⟨h.delayCallQueue,h.tick,records_of_eq h.trace⟩)
    (fun _ _ _ h h' => ⟨h'.queue.trans h.queue,h.tick.trans h'.tick,h.records.trans h'.records⟩)
    fun st e he => ⟨rfl,le_refl _,(records_frame Forwarded).log st e he⟩

variable {cfg : SchedulerConfig} {st st' : SchedState}

/-- Forwarding records the request and sends. -/
theorem forward_quiet {site : ForwardSite} {call : ForwardRequest}
    (h : forwardCallViaHelper cfg site st call=.ok st') :
    Quiet (st.log (.forwarding site call)) st' := by
  have hleads : Leads Quiet (st.log (.forwarding site call)) id
      (forwardCallViaHelper cfg site st call) :=
    quiet_frame.forwardCallViaHelper (fun coord msg _ _ => ⟨coord,msg,rfl⟩) st
  exact hleads.ok h

/-- What becomes of a call: it is sent to an executor, it waits, or it is
forwarded or rejected. -/
inductive Scheduled (cfg : SchedulerConfig) (origin : Origin) (st : SchedState) (call : Invocation)
    (st' : SchedState) : Prop
  | placed (executor : UInt8) (client : Address)
    (hassign : assignExecutor cfg.toSchedConfig st.pool call.funcName=some (executor,st'.pool))
    (htrace : st'.trace=st.trace++[.scheduled origin call,
      .sent (.toExecutor executor (callMessage call client))])
    (hqueue : st'.delayCallQueue=st.delayCallQueue) (htick : st.tick≤ st'.tick)
  | delayed (hassign : assignExecutor cfg.toSchedConfig st.pool call.funcName=none)
    (htrace : st'.trace=st.trace++[.scheduled origin call])
    (hqueue : st'.delayCallQueue=st.delayCallQueue++[⟨call,cfg.clock st.tick⟩])
    (htick : st'.tick=st.tick+1)
  | forwarded (hassign : assignExecutor cfg.toSchedConfig st.pool call.funcName=none)
    (args : List Str) (hargs : overflowArgs call=some args) (events : List SchedEvent)
    (hevents : ∀ e∈events,Forwarded e)
    (htrace : st'.trace=st.trace++.scheduled origin call::.forwarding .overflow
      ⟨call.sessionId,call.appName,[call.funcName],[args],call.argFlag⟩::events)
    (hqueue : st'.delayCallQueue=st.delayCallQueue) (htick : st.tick≤ st'.tick)
  | rejected (hassign : assignExecutor cfg.toSchedConfig st.pool call.funcName=none)
    (hreject : cfg.rejectExtraReq=true)
    (htrace : st'.trace=st.trace++[.scheduled origin call])
    (hqueue : st'.delayCallQueue=st.delayCallQueue) (htick : st.tick≤ st'.tick)

theorem scheduled_of_ok {origin : Origin} {call : Invocation}
    (h : scheduleFuncCall cfg origin st call=.ok st') : Scheduled cfg origin st call st' := by
  unfold scheduleFuncCall at h
  dsimp only at h
  split at h
  · rename_i executor pool hassign
    obtain ⟨st1,hsend,h⟩ := bind_eq_ok h
    unfold sendToExecuter at hsend
    split at hsend
    · cases hsend
      cases h
      rw [noteHints_eq]
      exact .placed executor (st.sessionClientAddrMap.getD call.sessionId []) hassign
        (List.append_assoc st.trace [_] [_]) rfl (Nat.le_succ _)
    · cases hsend
  · rename_i hassign
    split at h
    · cases h
      exact .delayed hassign rfl rfl rfl
    · split at h
      · rename_i hreject
        cases h
        exact .rejected hassign hreject rfl rfl (le_refl _)
      · obtain ⟨args,hargs,h⟩ := bind_eq_ok h
        obtain ⟨hqueue,htick,events,htrace,hevents⟩ := forward_quiet h
        refine .forwarded hassign args (orFault_eq_ok hargs) events hevents ?_ hqueue htick
        rw [htrace]
        show (st.trace++[_])++[_]++events=_
        rw [List.append_assoc,List.append_assoc]
        rfl

/-- An event that moves no call. -/
def Silent (e : SchedEvent) : Prop := submission? e=none ∧ callSent? e=none ∧ handed? e=none

variable {e : SchedEvent}

theorem silent_of_forwarded (h : Forwarded e) : Silent e := by
  obtain ⟨coord,msg,rfl⟩ := h
  exact ⟨rfl,rfl,rfl⟩

theorem silent_of_aside (h : Aside e) : Silent e := by
  cases e with
  | requested _ _ => exact ⟨rfl,rfl,rfl⟩
  | scheduled _ _ => cases h
  | forwarding _ _ => cases h
  | sent out =>
    cases out with
    | toExecutor _ _ => cases h
    | _ => exact ⟨rfl,rfl,rfl⟩

theorem silent_response (executor reqId : UInt8) (body : Str) :
    Silent (.sent (.toExecutor executor (response reqId body))) := ⟨rfl,rfl,rfl⟩

variable {events : List SchedEvent}

theorem filterMap_silent {α : Type} {f : SchedEvent → Option α} (h : ∀ e∈events,f e=none) :
    events.filterMap f=[] := List.filterMap_eq_nil_iff.mpr h

theorem forwarding_events (site : ForwardSite) (hsite : site≠.batch) (req : ForwardRequest)
    (h : ∀ e∈events,Forwarded e) :
    (.forwarding site req::events).filterMap submission?=[] ∧
      (.forwarding site req::events).filterMap callSent?=[] ∧
      (.forwarding site req::events).filterMap handed?=[req] := by
  have hsilent : ∀ e∈events,Silent e := fun e he => silent_of_forwarded (h e he)
  have hhanded : handed? (.forwarding site req)=some req := by
    cases site <;> first | rfl | exact absurd rfl hsite
  refine ⟨?_,?_,?_⟩
  · rw [List.filterMap_cons_none rfl]
    exact filterMap_silent fun e he => (hsilent e he).1
  · rw [List.filterMap_cons_none rfl]
    exact filterMap_silent fun e he => (hsilent e he).2.1
  · rw [List.filterMap_cons_some hhanded,filterMap_silent fun e he => (hsilent e he).2.2]

theorem getElem?_append_some {α : Type} {l m : List α} {i : ℕ} {a : α} (h : l[i]?=some a) :
    (l++m)[i]?=some a := by
  rw [List.getElem?_append_left (List.getElem?_eq_some_iff.mp h).1]
  exact h

section

variable {timed : ℤ → ℤ → Prop} {cfg : SchedulerConfig} {st st' : SchedState} {rejects : Bool}
variable {L L' : Ledger UInt8 ℤ} {events : List SchedEvent}

variable {calls : List Invocation}

theorem delivers_append {sent : UInt8×Str} {p : ℕ×UInt8} (h : Delivers calls sent p)
    (more : List Invocation) : Delivers (calls++more) sent p := by
  obtain ⟨he,call,client,hi,hm⟩ := h
  exact ⟨he,call,client,getElem?_append_some hi,hm⟩

theorem forwards_append {req : ForwardRequest} {i : ℕ} (h : Forwards calls req i)
    (more : List Invocation) : Forwards (calls++more) req i := by
  obtain ⟨call,args,hi,hargs,hreq⟩ := h
  exact ⟨call,args,getElem?_append_some hi,hargs,hreq⟩

theorem submissions_append (htrace : st'.trace=st.trace++events) :
    submissions st'=submissions st++events.filterMap submission? := by
  rw [submissions,htrace,List.filterMap_append]
  rfl

/-- Entries keep their numbers. -/
theorem waiting_append (htrace : st'.trace=st.trace++events) {queue : List DelayFunctionCall}
    {waiting : List (ℕ×ℤ)} (h : List.Forall₂ (fun d w => (submissions st)[w.1]?=some d.toInvocation ∧
      timed d.triggerTime w.2) queue waiting) :
    List.Forall₂ (fun d w => (submissions st')[w.1]?=some d.toInvocation ∧
      timed d.triggerTime w.2) queue waiting := by
  rw [submissions_append htrace]
  exact h.imp fun d w hw => ⟨getElem?_append_some hw.1,hw.2⟩

/-- The ledger after events: their calls are numbered, and what they send and
forward is entered. -/
theorem Accounts.record (h : Accounts timed rejects st L) (placed : List (ℕ×UInt8)) (passed : List ℕ)
    (htrace : st'.trace=st.trace++events)
    (hissued : L'.issued=L.issued+(events.filterMap submission?).length)
    (hplaced : L'.placed=L.placed++placed)
    (hsent : List.Forall₂ (Delivers (submissions st')) (events.filterMap callSent?) placed)
    (hwaiting : List.Forall₂ (fun d w => (submissions st')[w.1]?=some d.toInvocation ∧
      timed d.triggerTime w.2) st'.delayCallQueue L'.waiting)
    (hpassed : L'.passed=L.passed++passed)
    (hhanded : rejects=false →
      List.Forall₂ (Forwards (submissions st')) (events.filterMap handed?) passed) :
    Accounts timed rejects st' L' where
  issued := by rw [submissions_append htrace,List.length_append,h.issued,hissued]
  placed := by
    rw [htrace,List.filterMap_append,hplaced]
    refine List.rel_append (h.placed.imp fun sent p hp => ?_) hsent
    rw [submissions_append htrace]
    exact delivers_append hp _
  waiting := hwaiting
  passed hreject := by
    rw [htrace,List.filterMap_append,hpassed]
    refine List.rel_append ((h.passed hreject).imp fun req i hi => ?_) (hhanded hreject)
    rw [submissions_append htrace]
    exact forwards_append hi _

/-- Silent events leave the ledger as it is. -/
theorem Accounts.quiet (h : Accounts timed rejects st L)
    (hqueue : st'.delayCallQueue=st.delayCallQueue) (hr : Records Silent st st') :
    Accounts timed rejects st' L := by
  obtain ⟨events,htrace,hevents⟩ := hr
  have hnew : events.filterMap submission?=[] := filterMap_silent fun e he => (hevents e he).1
  have hsent : events.filterMap callSent?=[] := filterMap_silent fun e he => (hevents e he).2.1
  have hhanded : events.filterMap handed?=[] := filterMap_silent fun e he => (hevents e he).2.2
  refine h.record [] [] htrace ?_ ?_ ?_ ?_ ?_ ?_
  · rw [hnew]
    rfl
  · exact (List.append_nil _).symm
  · rw [hsent]
    exact .nil
  · rw [hqueue]
    exact waiting_append htrace h.waiting
  · exact (List.append_nil _).symm
  · intro _
    rw [hhanded]
    exact .nil

/-- Calls that wait later have waited before or are new; these have noted a
reading of the clock from between. -/
structure Later (cfg : SchedulerConfig) (st : SchedState) (L : Ledger UInt8 ℤ) (st' : SchedState)
    (L' : Ledger UInt8 ℤ) : Prop where
  issued : L.issued≤L'.issued
  /-- The number of readings grows. -/
  tick : st.tick≤ st'.tick
  waiting : ∀ w∈L'.waiting,w∈L.waiting ∨
    L.issued≤w.1 ∧ ∃ k,st.tick≤k ∧ k<st'.tick ∧ w.2=cfg.clock k

theorem Later.of_subset (hissued : L.issued≤L'.issued) (htick : st.tick≤ st'.tick)
    (hwaiting : ∀ w∈L'.waiting,w∈L.waiting) : Later cfg st L st' L' :=
  ⟨hissued,htick,fun w hw => Or.inl (hwaiting w hw)⟩

theorem Later.trans {st'' : SchedState} {L'' : Ledger UInt8 ℤ} (h : Later cfg st L st' L')
    (h' : Later cfg st' L' st'' L'') : Later cfg st L st'' L'' where
  issued := h.issued.trans h'.issued
  tick := h.tick.trans h'.tick
  waiting w hw := by
    rcases h'.waiting w hw with hw|⟨hissued,k,hk,hk',ht⟩
    · rcases h.waiting w hw with hw|⟨hissued,k,hk,hk',ht⟩
      · exact Or.inl hw
      · exact Or.inr ⟨hissued,k,hk,hk'.trans_le h'.tick,ht⟩
    · exact Or.inr ⟨h.issued.trans hissued,k,h.tick.trans hk,hk',ht⟩

/-- A new call is entered where it has gone. -/
theorem Accounts.submit (h : Accounts timed cfg.rejectExtraReq st L) (hrefl : ∀ t,timed t t)
    {origin : Origin} (horigin : origin≠.delayed) {call : Invocation}
    (hs : Scheduled cfg origin st call st') :
    ∃ L',Accounts timed cfg.rejectExtraReq st' L' ∧ Later cfg st L st' L' := by
  have hsub : submission? (.scheduled origin call)=some call := by
    cases origin <;> first | rfl | exact absurd rfl horigin
  have hnumber : ∀ {events},st'.trace=st.trace++.scheduled origin call::events →
      events.filterMap submission?=[] → (submissions st')[L.issued]?=some call := by
    intro events htrace hnew
    rw [submissions_append htrace,List.filterMap_cons_some hsub,hnew,←h.issued]
    exact List.getElem?_concat_length
  cases hs with
  | placed executor client hassign htrace hqueue htick =>
    refine ⟨L.issuePlaced executor,h.record [(L.issued,executor)] [] htrace ?_ rfl ?_ ?_
      (List.append_nil _).symm fun _ => .nil,.of_subset (Nat.le_succ _) htick fun _ hw => hw⟩
    · rw [List.filterMap_cons_some hsub]
      rfl
    · exact .cons ⟨rfl,call,client,hnumber htrace rfl,rfl⟩ .nil
    · rw [hqueue]
      exact waiting_append htrace h.waiting
  | delayed hassign htrace hqueue htick =>
    refine ⟨L.issueWaiting (cfg.clock st.tick),h.record [] [] htrace ?_ (List.append_nil _).symm .nil ?_
      (List.append_nil _).symm fun _ => .nil,Nat.le_succ _,by omega,fun w hw => ?_⟩
    · rw [List.filterMap_cons_some hsub]
      rfl
    · rw [hqueue]
      exact List.rel_append (waiting_append htrace h.waiting)
        (.cons ⟨hnumber htrace rfl,hrefl _⟩ .nil)
    · refine (List.mem_append.mp hw).imp id fun hw => ?_
      rw [List.mem_singleton.mp hw]
      exact ⟨le_refl _,st.tick,le_refl _,by omega,rfl⟩
  | forwarded hassign args hargs events hevents htrace hqueue htick =>
    obtain ⟨hnew,hsent,hhanded⟩ := forwarding_events .overflow nofun
      ⟨call.sessionId,call.appName,[call.funcName],[args],call.argFlag⟩ hevents
    refine ⟨L.issuePassed,h.record [] [L.issued] htrace ?_ (List.append_nil _).symm ?_ ?_ rfl
      (fun _ => ?_),.of_subset (Nat.le_succ _) htick fun _ hw => hw⟩
    · rw [List.filterMap_cons_some hsub,hnew]
      rfl
    · rw [List.filterMap_cons_none rfl,hsent]
      exact .nil
    · rw [hqueue]
      exact waiting_append htrace h.waiting
    · rw [List.filterMap_cons_none rfl,hhanded]
      exact .cons ⟨call,args,hnumber htrace hnew,Or.inr hargs,rfl⟩ .nil
  | rejected hassign hreject htrace hqueue htick =>
    refine ⟨L.issuePassed,h.record [] [L.issued] htrace ?_ (List.append_nil _).symm .nil ?_ rfl
      (fun hfalse => ?_),.of_subset (Nat.le_succ _) htick fun _ hw => hw⟩
    · rw [List.filterMap_cons_some hsub]
      rfl
    · rw [hqueue]
      exact waiting_append htrace h.waiting
    · rw [hreject] at hfalse
      cases hfalse

variable {d : DelayFunctionCall} {rest : List DelayFunctionCall}

/-- The first waiting call is handed over again and then removed from the
front: it is entered where it has gone. -/
theorem Accounts.retry (h : Accounts timed cfg.rejectExtraReq st L) (hq : st.delayCallQueue=d::rest)
    (hagain : assignExecutor cfg.toSchedConfig st.pool d.funcName=none →
      ∀ t,timed d.triggerTime t → timed (cfg.clock st.tick) t)
    (hs : Scheduled cfg .delayed st d.toInvocation st') :
    ∃ L',Accounts timed cfg.rejectExtraReq {st' with delayCallQueue := st'.delayCallQueue.tail} L' ∧
      Later cfg st L {st' with delayCallQueue := st'.delayCallQueue.tail} L' := by
  obtain ⟨w,waiting,⟨hnumber,htime⟩,hrest,hw⟩ := List.forall₂_cons_left_iff.mp (hq ▸ h.waiting)
  have hsubset : ∀ w'∈waiting,w'∈L.waiting := by
    rw [hw]
    exact fun _ => List.mem_cons_of_mem w
  -- the call leaves the front, the others wait as before
  have hleft : ∀ {events},st'.trace=st.trace++events → st'.delayCallQueue=st.delayCallQueue →
      List.Forall₂ (fun d w => (submissions st')[w.1]?=some d.toInvocation ∧ timed d.triggerTime w.2)
        st'.delayCallQueue.tail waiting := by
    intro events htrace hqueue
    rw [hqueue,hq]
    exact waiting_append htrace hrest
  cases hs with
  | placed executor client hassign htrace hqueue htick =>
    have hcalls : submissions st'=submissions st := by
      rw [submissions_append htrace]
      exact List.append_nil _
    refine ⟨Ledger.placeFront hw executor,h.record [(w.1,executor)] [] htrace rfl rfl ?_ ?_
      (List.append_nil _).symm fun _ => .nil,.of_subset (le_refl _) htick hsubset⟩
    · exact .cons ⟨rfl,d.toInvocation,client,hcalls ▸ hnumber,rfl⟩ .nil
    · exact hleft htrace hqueue
  | delayed hassign htrace hqueue htick =>
    have hcalls : submissions st'=submissions st := by
      rw [submissions_append htrace]
      exact List.append_nil _
    have hsame : ∀ w'∈waiting++[w],w'∈L.waiting := by
      rw [hw]
      exact fun w' hw' => (List.perm_append_singleton w waiting).subset hw'
    refine ⟨Ledger.requeueFront hw,h.record [] [] htrace rfl (List.append_nil _).symm .nil ?_
      (List.append_nil _).symm fun _ => .nil,.of_subset (le_refl _) (Nat.le.intro htick.symm) hsame⟩
    have htail : st'.delayCallQueue.tail=rest++[⟨d.toInvocation,cfg.clock st.tick⟩] := by
      rw [hqueue,hq]
      rfl
    show List.Forall₂ _ st'.delayCallQueue.tail (waiting++[w])
    rw [htail]
    refine List.rel_append (waiting_append htrace hrest) (.cons ⟨?_,hagain hassign _ htime⟩ .nil)
    exact hcalls ▸ hnumber
  | forwarded hassign args hargs events hevents htrace hqueue htick =>
    obtain ⟨hnew,hsent,hhanded⟩ := forwarding_events .overflow nofun
      ⟨d.sessionId,d.appName,[d.funcName],[args],d.argFlag⟩ hevents
    have hcalls : submissions st'=submissions st := by
      rw [submissions_append htrace,List.filterMap_cons_none rfl,hnew]
      exact List.append_nil _
    refine ⟨Ledger.passFront hw,h.record [] [w.1] htrace ?_ (List.append_nil _).symm ?_ ?_ rfl
      (fun _ => ?_),.of_subset (le_refl _) htick hsubset⟩
    · rw [List.filterMap_cons_none rfl,hnew]
      rfl
    · rw [List.filterMap_cons_none rfl,hsent]
      exact .nil
    · exact hleft htrace hqueue
    · rw [List.filterMap_cons_none rfl,hhanded]
      exact .cons ⟨d.toInvocation,args,hcalls ▸ hnumber,Or.inr hargs,rfl⟩ .nil
  | rejected hassign hreject htrace hqueue htick =>
    refine ⟨Ledger.passFront hw,h.record [] [w.1] htrace rfl (List.append_nil _).symm .nil ?_ rfl
      (fun hfalse => ?_),.of_subset (le_refl _) htick hsubset⟩
    · exact hleft htrace hqueue
    · rw [hreject] at hfalse
      cases hfalse

/-- The first of the remaining calls is forwarded or dropped at the end of
its delay. -/
theorem Accounts.expire
    (h : Accounts timed cfg.rejectExtraReq {st with delayCallQueue := d::rest} L)
    (hs : expireCall cfg st d=.ok st') :
    st.tick≤ st'.tick ∧ ∃ L',Accounts timed cfg.rejectExtraReq {st' with delayCallQueue := rest} L' ∧
      Later cfg st L st' L' := by
  obtain ⟨w,waiting,⟨hnumber,htime⟩,hrest,hw⟩ := List.forall₂_cons_left_iff.mp h.waiting
  have hsubset : ∀ w'∈waiting,w'∈L.waiting := by
    rw [hw]
    exact fun _ => List.mem_cons_of_mem w
  unfold expireCall at hs
  split at hs
  · rename_i hreject
    cases hs
    refine ⟨le_refl _,Ledger.passFront hw,?_,.of_subset (le_refl _) (le_refl _) hsubset⟩
    refine h.record [] [w.1] (List.append_nil _).symm rfl (List.append_nil _).symm .nil hrest rfl
      fun hfalse => ?_
    rw [hreject] at hfalse
    cases hfalse
  · obtain ⟨hqueue,htick,events,htrace,hevents⟩ := forward_quiet hs
    obtain ⟨hnew,hsent,hhanded⟩ := forwarding_events .expiry nofun
      ⟨d.sessionId,d.appName,[d.funcName],[d.funcArgs],d.argFlag⟩ hevents
    have htrace' : st'.trace=st.trace++(.forwarding .expiry
        ⟨d.sessionId,d.appName,[d.funcName],[d.funcArgs],d.argFlag⟩::events) := by
      rw [htrace]
      exact List.append_assoc st.trace [_] events
    have hcalls : submissions st'=submissions st := by
      rw [submissions_append htrace',hnew]
      exact List.append_nil _
    refine ⟨htick,Ledger.passFront hw,?_,.of_subset (le_refl _) htick hsubset⟩
    refine h.record [] [w.1] htrace' ?_ (List.append_nil _).symm ?_ ?_ rfl fun _ => ?_
    · rw [hnew]
      rfl
    · rw [hsent]
      exact .nil
    · exact hrest.imp fun d' w' hw' => ⟨hcalls ▸ hw'.1,hw'.2⟩
    · rw [hhanded]
      exact .cons ⟨d.toInvocation,d.funcArgs,hcalls ▸ hnumber,Or.inl rfl,rfl⟩ .nil

end

section

variable {cfg : SchedulerConfig} {st st' : SchedState}

theorem Timely.of_eq (h : Timely cfg st) (hqueue : st'.delayCallQueue=st.delayCallQueue)
    (htick : st.tick≤ st'.tick) : Timely cfg st' where
  sorted := hqueue ▸ h.sorted
  past d hd k hk := h.past d (hqueue ▸ hd) k (htick.trans hk)

variable {queue : List DelayFunctionCall}

theorem Timely.tail (h : Timely cfg st) (hsub : queue.Sublist st.delayCallQueue) :
    Timely cfg {st with delayCallQueue := queue} where
  sorted := h.sorted.sublist hsub
  past d hd := h.past d (hsub.subset hd)

variable {call : Invocation}

/-- A call that begins to wait is the youngest. -/
theorem Timely.delay (h : Timely cfg st) (hclock : Monotone cfg.clock)
    (hqueue : st'.delayCallQueue=st.delayCallQueue++[⟨call,cfg.clock st.tick⟩])
    (htick : st'.tick=st.tick+1) : Timely cfg st' where
  sorted := by
    rw [hqueue]
    refine List.pairwise_append.mpr ⟨h.sorted,List.pairwise_singleton _ _,fun d hd d' hd' => ?_⟩
    rw [List.mem_singleton.mp hd']
    exact h.past d hd st.tick (le_refl _)
  past := by
    rw [hqueue]
    refine List.forall_mem_append.mpr ⟨fun d hd k hk => ?_,List.forall_mem_singleton.mpr fun k hk => ?_⟩
    · exact h.past d hd k (by omega)
    · exact hclock (by omega)

theorem Timely.scheduled (h : Timely cfg st) (hclock : Monotone cfg.clock) {origin : Origin}
    (hs : Scheduled cfg origin st call st') : Timely cfg st' := by
  cases hs with
  | placed executor client hassign htrace hqueue htick => exact h.of_eq hqueue htick
  | delayed hassign htrace hqueue htick => exact h.delay hclock hqueue htick
  | forwarded hassign args hargs events hevents htrace hqueue htick => exact h.of_eq hqueue htick
  | rejected hassign hreject htrace hqueue htick => exact h.of_eq hqueue htick

/-- Behind an entry whose delay is not over there is none whose delay is. -/
theorem behind_of_sorted (h : queue.Pairwise fun a b => a.triggerTime≤b.triggerTime) (now : ℤ) :
    ∀ d∈queue.dropWhile (Expired cfg now),Expired cfg now d=false := by
  induction queue with
  | nil => nofun
  | cons a queue ih =>
    obtain ⟨ha,hrest⟩ := List.pairwise_cons.mp h
    cases he : Expired cfg now a with
    | true =>
      rw [List.dropWhile_cons_of_pos he]
      exact ih hrest
    | false =>
      rw [List.dropWhile_cons_of_neg (by rw [he]; exact Bool.false_ne_true)]
      refine List.forall_mem_cons.mpr ⟨he,fun d hd => ?_⟩
      have hle : now-d.triggerTime≤now-a.triggerTime := Int.sub_le_sub_left (ha d hd) now
      have hdiv : Int.tdiv (now-d.triggerTime) 1000≤Int.tdiv (now-a.triggerTime) 1000 :=
        Int.tdiv_le_tdiv (by decide) hle
      have hnot := of_decide_eq_false he
      exact decide_eq_false fun hd => hnot (lt_of_lt_of_le hd hdiv)

end

/-- The ledger and the times of a worker. -/
structure Kept (timed : ℤ → ℤ → Prop) (cfg : SchedulerConfig) (st : SchedState)
    (L : Ledger UInt8 ℤ) : Prop where
  accounts : Accounts timed cfg.rejectExtraReq st L
  timely : Timely cfg st

/-- What a step preserves. -/
def Keeps (timed : ℤ → ℤ → Prop) (cfg : SchedulerConfig) (st st' : SchedState) : Prop :=
  ∀ L,Kept timed cfg st L → ∃ L',Kept timed cfg st' L' ∧ Later cfg st L st' L'

section

variable {timed : ℤ → ℤ → Prop} {cfg : SchedulerConfig} {st st' : SchedState}

theorem keeps_of_eq (htrace : st'.trace=st.trace) (hqueue : st'.delayCallQueue=st.delayCallQueue)
    (htick : st.tick≤ st'.tick) : Keeps timed cfg st st' := fun L ⟨h,ht⟩ =>
  ⟨L,⟨h.quiet hqueue (records_of_eq htrace),ht.of_eq hqueue htick⟩,
    .of_subset (le_refl _) htick fun _ hw => hw⟩

theorem keeps_frame (timed : ℤ → ℤ → Prop) (cfg : SchedulerConfig) :
    TableFrame Silent (Keeps timed cfg) where
  toReadFrame := .of_idle (fun _ _ h => keeps_of_eq h.trace h.delayCallQueue h.tick)
    (fun _ _ _ h h' L hL => by
      obtain ⟨L1,hL1,hlater⟩ := h L hL
      obtain ⟨L2,hL2,hlater'⟩ := h' L1 hL1
      exact ⟨L2,hL2,hlater.trans hlater'⟩)
    fun st e he L ⟨h,ht⟩ =>
      ⟨L,⟨h.quiet rfl ((records_frame Silent).log st e he),ht.of_eq rfl (le_refl _)⟩,
        .of_subset (le_refl _) (le_refl _) fun _ hw => hw⟩
  numbers _ _ _ := keeps_of_eq rfl rfl (le_refl _)
  awaited _ _ := keeps_of_eq rfl rfl (le_refl _)

theorem keeps_callFrame (hclock : Monotone cfg.clock) (hrefl : ∀ t,timed t t) :
    CallFrame cfg Silent (fun origin _ => origin≠.delayed) (Keeps timed cfg) (fun _ _ => True) where
  toTableFrame := keeps_frame timed cfg
  fault _ _ _ := trivial
  faultAfter _ _ _ _ _ := trivial
  schedule st origin call horigin := leadsOr_of_ok fun st' hok L ⟨h,ht⟩ => by
    have hs := scheduled_of_ok hok
    obtain ⟨L',hL',hlater⟩ := h.submit hrefl horigin hs
    exact ⟨L',⟨hL',ht.scheduled hclock hs⟩,hlater⟩
  batch st call := by
    refine ((keeps_frame timed cfg).toFrame.forward (fun e he => ?_) st).or fun _ _ _ => trivial
    rcases he with rfl|⟨coord,msg,rfl,-,-⟩
    · exact ⟨rfl,rfl,rfl⟩
    · exact ⟨rfl,rfl,rfl⟩
  rerunCheckQueue _ _ _ := keeps_of_eq rfl rfl (le_refl _)
  inflight _ _ := keeps_of_eq rfl rfl (le_refl _)

/-- Every step but a pass over the delayed calls keeps the ledger. -/
theorem keeps_step (hclock : Monotone cfg.clock) (hrefl : ∀ t,timed t t) {l : SchedLabel}
    (hdelay : l=.delay → LeadsOr (Keeps timed cfg) (fun _ _ => True) st id (delayForwarding cfg st))
    (h : step cfg st l=some st') : Keeps timed cfg st st' := by
  have hframe := keeps_callFrame hclock hrefl
  refine step_within h (fun _ => keeps_of_eq rfl rfl (Nat.le_succ _)) fun hl => ?_
  refine hframe.outcome (fun _ => silent_of_aside) (fun _ _ => nofun) (fun _ => nofun) hl
    (fun msg _ => ?_) (fun st key size body _ => ?_) (fun key _ => ?_) hdelay
  · refine hframe.toReadFrame.recvExecutor (fun _ _ _ => trivial)
      (fun _ _ => silent_of_aside trivial) (fun _ executorId reqId store key => ?_)
      (fun _ packing info _ => ?_) fun _ executorId reqId packing info => ?_
    · exact (hframe.recvGet (fun _ _ => silent_of_aside trivial) (fun _ _ => silent_of_aside trivial)
        (fun _ => silent_response _ _ _) (fun _ _ => keeps_of_eq rfl rfl (le_refl _)) st store
        key).or fun _ _ _ => trivial
    · exact hframe.recvEphemeral (fun _ _ => silent_of_aside trivial) hframe.counted
        (fun _ _ => keeps_of_eq rfl rfl (Nat.le_succ _)) (fun _ => nofun) (fun _ => nofun)
        ((hframe.recordObject (fun _ _ _ _ => keeps_of_eq rfl rfl (le_refl _)) st packing).or
          fun _ _ _ => trivial)
    · exact (hframe.recvPersistent (fun _ _ => keeps_of_eq rfl rfl (le_refl _))
        (fun _ _ _ => silent_of_aside trivial) st executorId reqId packing info).or fun _ _ _ => trivial
  · have hset : Keeps timed cfg st {st with keyLenMap := st.keyLenMap.set key size} :=
      keeps_of_eq rfl rfl (le_refl _)
    exact ((hframe.answerWaiting (fun _ _ => silent_response _ _ _)
      (fun _ _ => keeps_of_eq rfl rfl (le_refl _)) _ key).after hframe.trans hset).or
        fun _ _ _ => trivial
  · exact (hframe.recvKvsPut (fun _ _ => silent_response _ _ _)
      (fun _ _ => keeps_of_eq rfl rfl (le_refl _)) st key).or fun _ _ _ => trivial

theorem Kept.retry {L : Ledger UInt8 ℤ} (h : Kept timed cfg st L) (hclock : Monotone cfg.clock)
    {d : DelayFunctionCall} {rest : List DelayFunctionCall} (hq : st.delayCallQueue=d::rest)
    (hagain : assignExecutor cfg.toSchedConfig st.pool d.funcName=none →
      ∀ t,timed d.triggerTime t → timed (cfg.clock st.tick) t)
    (hs : Scheduled cfg .delayed st d.toInvocation st') :
    ∃ L',Kept timed cfg {st' with delayCallQueue := st'.delayCallQueue.tail} L' ∧
      Later cfg st L {st' with delayCallQueue := st'.delayCallQueue.tail} L' := by
  obtain ⟨L',hL',hlater⟩ := h.accounts.retry hq hagain hs
  exact ⟨L',⟨hL',(h.timely.scheduled hclock hs).tail (List.tail_sublist _)⟩,hlater⟩

/-- The first loop, with what holds of the worker in every round. -/
theorem keeps_retryDelayed (hclock : Monotone cfg.clock) (inv : ℕ → SchedState → Prop)
    (hagain : ∀ n st d rest,inv (n+1) st → st.delayCallQueue=d::rest →
      assignExecutor cfg.toSchedConfig st.pool d.funcName=none →
        ∀ t,timed d.triggerTime t → timed (cfg.clock st.tick) t)
    (hnext : ∀ n st d rest st',inv (n+1) st → st.delayCallQueue=d::rest →
      Scheduled cfg .delayed st d.toInvocation st' →
        inv n {st' with delayCallQueue := st'.delayCallQueue.tail})
    (avail : ℕ) (hinv : inv avail st) (hok : retryDelayed cfg avail st=.ok st') :
    Keeps timed cfg st st' := by
  induction avail generalizing st with
  | zero =>
    cases hok
    exact (keeps_frame timed cfg).refl _
  | succ avail ih =>
    rw [retryDelayed] at hok
    split at hok
    · cases hok
      exact (keeps_frame timed cfg).refl _
    · rename_i d rest hq
      obtain ⟨st1,hone,hok⟩ := bind_eq_ok hok
      have hs := scheduled_of_ok hone
      have hround : Keeps timed cfg st {st1 with delayCallQueue := st1.delayCallQueue.tail} :=
        fun L hL => hL.retry hclock hq (hagain avail st d rest hinv hq) hs
      exact (keeps_frame timed cfg).trans _ _ _ hround
        (ih (hnext avail st d rest st1 hinv hq hs) hok)

theorem keeps_expireDelayed {now : ℤ} {calls : List DelayFunctionCall}
    (hok : expireDelayed cfg now calls st=.ok st') :
    Keeps timed cfg {st with delayCallQueue := calls} st' := by
  induction calls generalizing st with
  | nil =>
    cases hok
    exact (keeps_frame timed cfg).refl _
  | cons d calls ih =>
    rw [expireDelayed] at hok
    split at hok
    · obtain ⟨st1,hone,hok⟩ := bind_eq_ok hok
      have hround : Keeps timed cfg {st with delayCallQueue := d::calls}
          {st1 with delayCallQueue := calls} := fun L hL => by
        obtain ⟨htick,L',hL',hlater⟩ := hL.accounts.expire hone
        have htail : Timely cfg {st with delayCallQueue := calls} :=
          hL.timely.tail (List.sublist_cons_self d calls)
        exact ⟨L',⟨hL',htail.of_eq rfl htick⟩,hlater.issued,hlater.tick,hlater.waiting⟩
      exact (keeps_frame timed cfg).trans _ _ _ hround (ih hok)
    · cases hok
      exact (keeps_frame timed cfg).refl _

theorem keeps_delayForwarding
    (hretry : ∀ st',retryDelayed cfg (getAvailExecutorNum st.pool.executorStatusMap) st=.ok st' →
      Keeps timed cfg st st') :
    LeadsOr (Keeps timed cfg) (fun _ _ => True) st id (delayForwarding cfg st) := by
  refine leadsOr_of_ok fun st' hok => ?_
  unfold delayForwarding at hok
  split at hok
  · cases hok
    exact (keeps_frame timed cfg).refl st
  · obtain ⟨st1,hone,hok⟩ := bind_eq_ok hok
    have hread : Keeps timed cfg st (readClock cfg st1).2 :=
      (keeps_frame timed cfg).trans _ _ _ (hretry st1 hone) ((keeps_frame timed cfg).tick st1)
    exact (keeps_frame timed cfg).trans _ _ _ hread (keeps_expireDelayed hok)

end

section

variable {cfg : SchedulerConfig} {st st' : SchedState}

/-- The functions that have been started or forwarded as direct targets. -/
def handedOut (st : SchedState) : List Str := st.trace.flatMap targets

variable {events : List SchedEvent}

theorem handedOut_append (htrace : st'.trace=st.trace++events) :
    handedOut st'=handedOut st++events.flatMap targets := by
  rw [handedOut,htrace,List.flatMap_append]
  rfl

theorem targets_forwarded (h : ∀ e∈events,Forwarded e) : events.flatMap targets=[] := by
  refine List.flatMap_eq_nil_iff.mpr fun e he => ?_
  obtain ⟨coord,msg,rfl⟩ := h e he
  rfl

variable {sessionId : Session} {appName : Str} {args : List Str×ℤ}

theorem handedOut_scheduleDirect {func : Str}
    (h : scheduleDirect cfg sessionId appName args st func=.ok st') :
    handedOut st'=handedOut st++[func] := by
  cases scheduled_of_ok h with
  | placed executor client hassign htrace hqueue htick => exact handedOut_append htrace
  | delayed hassign htrace hqueue htick => exact handedOut_append htrace
  | forwarded hassign args hargs events hevents htrace hqueue htick =>
    rw [handedOut_append htrace,List.flatMap_cons,List.flatMap_cons,targets_forwarded hevents]
    rfl
  | rejected hassign hreject htrace hqueue htick => exact handedOut_append htrace

theorem handedOut_scheduleDirects {funcs : List Str}
    (h : funcs.foldlM (scheduleDirect cfg sessionId appName args) st=.ok st') :
    handedOut st'=handedOut st++funcs := by
  induction funcs generalizing st with
  | nil =>
    cases h
    exact (List.append_nil _).symm
  | cons func funcs ih =>
    rw [List.foldlM_cons] at h
    obtain ⟨st1,hone,h⟩ := bind_eq_ok h
    rw [ih h,handedOut_scheduleDirect hone,List.append_assoc]
    rfl

/-- All direct targets of an object are handed out, in order. -/
theorem handedOut_directInvocation (hreject : cfg.rejectExtraReq=false) {deps : USet Str}
    {isDataPacking : UInt8} {info : ObjectInfo} (htgt : info.tgtFunction=[])
    (h : directInvocation cfg st appName deps isDataPacking info=.ok st') :
    handedOut st'=handedOut st++deps.elems := by
  unfold directInvocation at h
  dsimp only at h
  rw [if_pos htgt] at h
  split at h
  · obtain ⟨st1,hlocal,h⟩ := bind_eq_ok h
    rw [hreject,if_neg Bool.false_ne_true] at h
    obtain ⟨-,-,events,htrace,hevents⟩ := forward_quiet h
    have htrace' := htrace.trans (List.append_assoc st1.trace [_] events)
    rw [handedOut_append htrace',List.flatMap_append,targets_forwarded hevents,
      handedOut_scheduleDirects hlocal,List.append_nil,List.append_assoc]
    refine congrArg (handedOut st++·) ?_
    show deps.elems.take _++([_].flatMap targets)=deps.elems
    rw [List.flatMap_singleton]
    exact List.take_append_drop _ _
  · exact handedOut_scheduleDirects h

end

/-- At most so many rounds of the two loops have been recorded. -/
def Rounds (m n : ℕ) (st st' : SchedState) : Prop :=
  ∃ events,st'.trace=st.trace++events ∧ events.countP retries≤ m ∧ events.countP expires≤n

theorem Rounds.trans {m m' n n' : ℕ} {a b c : SchedState} (h : Rounds m n a b)
    (h' : Rounds m' n' b c) : Rounds (m+m') (n+n') a c := by
  obtain ⟨events,htrace,hm,hn⟩ := h
  obtain ⟨events',htrace',hm',hn'⟩ := h'
  refine ⟨events++events',by rw [htrace',htrace,List.append_assoc],?_,?_⟩
  · rw [List.countP_append]
    omega
  · rw [List.countP_append]
    omega

/-- An event that is no round. -/
def NoRound (e : SchedEvent) : Prop := retries e=false ∧ expires e=false

theorem rounds_of_records (h : Records NoRound st st') : Rounds 0 0 st st' := by
  obtain ⟨events,htrace,hevents⟩ := h
  refine ⟨events,htrace,?_,?_⟩
  · refine (List.countP_eq_zero.mpr fun e he => ?_).le
    rw [(hevents e he).1]
    exact Bool.false_ne_true
  · refine (List.countP_eq_zero.mpr fun e he => ?_).le
    rw [(hevents e he).2]
    exact Bool.false_ne_true

section

variable {cfg : SchedulerConfig} {st st' : SchedState}

theorem noRound_of_forward (coord : HandlerThread) (msg : FunctionCall) :
    NoRound (.sent (.forward coord msg)) := ⟨rfl,rfl⟩

/-- Handing a call over again is one round, also if it ends in a fault. -/
theorem rounds_schedule (call : Invocation) (st : SchedState) :
    Rounds 1 0 st (endState id (scheduleFuncCall cfg .delayed st call)) := by
  have hlog : Rounds 1 0 st (st.log (.scheduled .delayed call)) := ⟨[_],rfl,le_refl 1,le_refl 0⟩
  have hrest : Leads (Records NoRound) (st.log (.scheduled .delayed call)) id
      (scheduleFuncCall cfg .delayed st call) := by
    refine (records_frame NoRound).scheduleFuncCall (fun e he => ?_)
      (fun _ _ => records_of_eq rfl) (fun st time => records_of_eq (noteHints_trace call time st)) _ st
    rcases he with ⟨executor,client,rfl⟩|⟨args,-,rfl|⟨coord,msg,rfl,-,-⟩⟩
    · exact ⟨rfl,rfl⟩
    · exact ⟨rfl,rfl⟩
    · exact noRound_of_forward coord msg
  exact hlog.trans (rounds_of_records hrest.endState)

theorem rounds_expireCall (d : DelayFunctionCall) (st : SchedState) :
    Rounds 0 1 st (endState id (expireCall cfg st d)) := by
  unfold expireCall
  split
  · exact ⟨[],(List.append_nil _).symm,le_refl 0,Nat.zero_le 1⟩
  · have hlog : Rounds 0 1 st (st.log (.forwarding .expiry
        ⟨d.sessionId,d.appName,[d.funcName],[d.funcArgs],d.argFlag⟩)) :=
      ⟨[_],rfl,le_refl 0,le_refl 1⟩
    have hrest : Leads (Records NoRound) (st.log (.forwarding .expiry
        ⟨d.sessionId,d.appName,[d.funcName],[d.funcArgs],d.argFlag⟩)) id
        (forwardCallViaHelper cfg .expiry st
          ⟨d.sessionId,d.appName,[d.funcName],[d.funcArgs],d.argFlag⟩) :=
      (records_frame NoRound).forwardCallViaHelper
        (fun coord msg _ _ => noRound_of_forward coord msg) st
    exact hlog.trans (rounds_of_records hrest.endState)

/-- The queue does not grow in a round of the first loop. -/
theorem length_tail_scheduled {origin : Origin} {call : Invocation}
    (h : scheduleFuncCall cfg origin st call=.ok st') :
    st'.delayCallQueue.tail.length≤ st.delayCallQueue.length := by
  rw [List.length_tail]
  cases scheduled_of_ok h with
  | placed executor client hassign htrace hqueue htick =>
    rw [hqueue]
    omega
  | delayed hassign htrace hqueue htick =>
    rw [hqueue,List.length_append,List.length_singleton]
    omega
  | forwarded hassign args hargs events hevents htrace hqueue htick =>
    rw [hqueue]
    omega
  | rejected hassign hreject htrace hqueue htick =>
    rw [hqueue]
    omega

theorem rounds_retryDelayed (avail : ℕ) (st : SchedState) :
    Rounds avail 0 st (endState id (retryDelayed cfg avail st)) ∧
      ∀ st',retryDelayed cfg avail st=.ok st' →
        st'.delayCallQueue.length≤ st.delayCallQueue.length := by
  induction avail generalizing st with
  | zero =>
    refine ⟨⟨[],(List.append_nil _).symm,le_refl 0,le_refl 0⟩,fun st' h => ?_⟩
    cases h
    exact le_refl _
  | succ avail ih =>
    rw [retryDelayed]
    split
    · refine ⟨⟨[],(List.append_nil _).symm,Nat.zero_le _,le_refl 0⟩,fun st' h => ?_⟩
      cases h
      exact le_refl _
    · rename_i d rest _
      have hround : Rounds 1 0 st (endState id (scheduleFuncCall cfg .delayed st d.toInvocation)) :=
        rounds_schedule d.toInvocation st
      cases hone : scheduleFuncCall cfg .delayed st d.toInvocation with
      | error st1 =>
        rw [hone] at hround
        obtain ⟨events,htrace,hm,hn⟩ := hround
        exact ⟨⟨events,htrace,by omega,hn⟩,fun st' h => by cases h⟩
      | ok st1 =>
        rw [hone] at hround
        obtain ⟨hrest,hlen⟩ := ih {st1 with delayCallQueue := st1.delayCallQueue.tail}
        have hall := hround.trans hrest
        rw [Nat.add_comm 1 avail] at hall
        refine ⟨hall,fun st' h => ?_⟩
        exact (hlen st' h).trans (length_tail_scheduled hone)

theorem rounds_expireDelayed (now : ℤ) (calls : List DelayFunctionCall) (st : SchedState) :
    Rounds 0 calls.length st (endState id (expireDelayed cfg now calls st)) := by
  induction calls generalizing st with
  | nil => exact ⟨[],(List.append_nil _).symm,le_refl 0,le_refl 0⟩
  | cons d calls ih =>
    rw [expireDelayed]
    split
    · have hround : Rounds 0 1 st (endState id (expireCall cfg st d)) := rounds_expireCall d st
      cases hone : expireCall cfg st d with
      | error st1 =>
        rw [hone] at hround
        obtain ⟨events,htrace,hm,hn⟩ := hround
        exact ⟨events,htrace,hm,hn.trans (Nat.succ_le_succ (Nat.zero_le _))⟩
      | ok st1 =>
        rw [hone] at hround
        have hall := hround.trans (ih st1)
        rw [Nat.add_comm 1 calls.length] at hall
        exact hall
    · exact ⟨[],(List.append_nil _).symm,le_refl 0,Nat.zero_le _⟩

/-- A pass has at most one round per free executor and one per waiting call. -/
theorem rounds_delayForwarding (cfg : SchedulerConfig) (st : SchedState) :
    Rounds (getAvailExecutorNum st.pool.executorStatusMap) st.delayCallQueue.length st
      (endState id (delayForwarding cfg st)) := by
  unfold delayForwarding
  split
  · exact ⟨[],(List.append_nil _).symm,Nat.zero_le _,Nat.zero_le _⟩
  · obtain ⟨hretry,hlen⟩ := rounds_retryDelayed
      (getAvailExecutorNum st.pool.executorStatusMap) st
    cases hone : retryDelayed cfg (getAvailExecutorNum st.pool.executorStatusMap) st with
    | error st1 =>
      rw [hone] at hretry
      obtain ⟨events,htrace,hm,hn⟩ := hretry
      exact ⟨events,htrace,hm,hn.trans (Nat.zero_le _)⟩
    | ok st1 =>
      rw [hone] at hretry
      obtain ⟨events,htrace,hm,hn⟩ := hretry.trans
        (rounds_expireDelayed (readClock cfg st1).1 st1.delayCallQueue (readClock cfg st1).2)
      have hle := hlen st1 hone
      exact ⟨events,htrace,hm,by omega⟩

end

variable {timed : ℤ → ℤ → Prop}

theorem accounts_start (hqueue : st.delayCallQueue=[]) (htrace : st.trace=[]) (rejects : Bool) :
    Accounts timed rejects st .start where
  issued := by
    rw [submissions,htrace]
    rfl
  placed := by
    rw [htrace]
    exact .nil
  waiting := by
    rw [hqueue]
    exact .nil
  passed _ := by
    rw [htrace]
    exact .nil

theorem timely_start (hqueue : st.delayCallQueue=[]) :
    Timely cfg st := ⟨hqueue ▸ .nil,hqueue ▸ nofun⟩

theorem kept_start (hqueue : st.delayCallQueue=[]) (htrace : st.trace=[]) :
    Kept timed cfg st .start :=
  ⟨accounts_start hqueue htrace _,timely_start hqueue⟩

theorem Kept.conserved {L : Ledger UInt8 ℤ} (h : Kept (fun _ _ => True) cfg st L)
    (hreject : cfg.rejectExtraReq=false) : Conserved cfg st := by
  obtain ⟨events,htrace,hretries,hexpires⟩ := rounds_delayForwarding cfg st
  have hsince := since_eq htrace
  refine ⟨⟨L,hreject ▸ h.accounts⟩,h.timely.sorted,behind_of_sorted h.timely.sorted,?_,hsince ▸ hretries,
    hsince ▸ hexpires⟩
  intro appName deps isDataPacking info st' htgt hok
  have hout := handedOut_directInvocation hreject htgt hok
  have hrec : Leads (Records fun _ => True) st id
      (directInvocation cfg st appName deps isDataPacking info) :=
    (records_frame fun _ => True).directInvocation (fun _ _ => trivial) (fun _ _ _ => trivial) st deps
      isDataPacking
  have hrecorded : Records (fun _ => True) st st' := hrec.ok hok
  obtain ⟨new,hnew,-⟩ := hrecorded
  rw [since_eq hnew]
  exact List.append_cancel_left ((handedOut_append hnew).symm.trans hout)

/-- In every state of every run every call is at exactly one place, for every
initial pool of executors, with and without sharing and delay. -/
theorem calls_conserved (cfg : SchedulerConfig) (hreject : cfg.rejectExtraReq=false)
    (hclock : Monotone cfg.clock) (st₀ : SchedState) (hqueue : st₀.delayCallQueue=[])
    (htrace : st₀.trace=[]) (l : List SchedLabel) (st : SchedState)
    (hrun : run (step cfg) st₀ l=some st) : Conserved cfg st := by
  have hstep : ∀ s a s',(∃ L,Kept (fun _ _ => True) cfg s L) → step cfg s a=some s' →
      ∃ L,Kept (fun _ _ => True) cfg s' L := by
    intro s a s' ⟨L,hL⟩ hstep
    have hpass : LeadsOr (Keeps (fun _ _ => True) cfg) (fun _ _ => True) s id (delayForwarding cfg s) :=
      keeps_delayForwarding fun _ => keeps_retryDelayed hclock (fun _ _ => True)
        (fun _ _ _ _ _ _ _ _ _ => trivial) (fun _ _ _ _ _ _ _ _ => trivial) _ trivial
    obtain ⟨L',hL',-⟩ := keeps_step hclock (fun _ => trivial) (fun _ => hpass) hstep L hL
    exact ⟨L',hL'⟩
  have hkept := run_invariant hstep ⟨_,kept_start hqueue htrace⟩ hrun
  obtain ⟨L,hL⟩ := hkept
  exact hL.conserved hreject

/-- A worker with one executor, a delay of a millisecond and a clock that
advances by a second at every reading. -/
def delayingConfig : SchedulerConfig := .sample [0] 1000 1 fun k => k*1000000000

/-- Two calls for one executor; the second one waits and is forwarded. -/
def delayedCalls : List SchedLabel :=
  [.executor [1,7],.call ⟨str "app",[⟨str "f",[]⟩,⟨str "g",[]⟩],[],[],[],str "s",false⟩,.delay]

theorem calls_conserved_delayed : ∃ st,
    run (step delayingConfig) (.start delayingConfig 1) delayedCalls=some st ∧
      (submissions st).length=2 ∧ (st.trace.filterMap callSent?).length=1 ∧
      (st.trace.filterMap handed?).length=1 ∧ Conserved delayingConfig st := by
  have hcomputed : ((run (step delayingConfig) (.start delayingConfig 1) delayedCalls).map
      fun st => decide ((submissions st).length=2 ∧ (st.trace.filterMap callSent?).length=1 ∧
        (st.trace.filterMap handed?).length=1))=some true := by
    decide +kernel
  obtain ⟨st,hst,hcalls,hsent,hhanded⟩ := exists_of_decided hcomputed
  refine ⟨st,hst,hcalls,hsent,hhanded,?_⟩
  refine calls_conserved delayingConfig rfl (fun i j hij => ?_) _ rfl rfl delayedCalls st hst
  show (i : ℤ)*1000000000≤ (j : ℤ)*1000000000
  omega

end Pheromone.CallConservation
