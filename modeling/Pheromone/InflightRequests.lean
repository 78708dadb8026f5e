import Pheromone.RequestAdmission

/-!
# Requests that wait for keys

One table has the keys that each waiting request lacks, another the requests
that lack each key. They agree until the request counter wraps.
-/

namespace Pheromone.InflightRequests

open UnorderedContainers FaultingRuns CommonNames OperationMessages SchedulerState
open Scheduling SchedulerLoop SchedulerFrames RequestAdmission

/-- The requests with key arguments, by number. -/
def admitted (events : List SchedEvent) : List (UInt32×InflightFuncArgs) :=
  events.filterMap fun
    | .requested cid args => some (cid,args)
    | _ => none

@[simp] theorem admitted_append (a b : List SchedEvent) :
    admitted (a++b)=admitted a++admitted b := List.filterMap_append

theorem admitted_requested (cid : UInt32) (args : InflightFuncArgs) (events : List SchedEvent) :
    admitted (.requested cid args::events)=(cid,args)::admitted events := rfl

theorem fetched_requested (cid : UInt32) (args : InflightFuncArgs) (events : List SchedEvent) :
    fetched (.requested cid args::events)=fetched events := rfl

theorem admitted_scheduled (origin : Origin) (call : Invocation) (events : List SchedEvent) :
    admitted (.scheduled origin call::events)=admitted events := rfl

theorem fetched_scheduled (origin : Origin) (call : Invocation) (events : List SchedEvent) :
    fetched (.scheduled origin call::events)=fetched events := rfl

theorem starts_scheduled (cid c : UInt32) (call : Invocation) (events : List SchedEvent) :
    starts c (.scheduled (.request cid) call::events)=
      (if c=cid then [call] else [])++starts c events := by
  by_cases hc : c=cid
  · simp [starts,hc]
  · simp [starts,hc,Ne.symm hc]

/-- Events that do not concern requests. -/
def Quiet : SchedEvent → Prop
  | .requested _ _ => False
  | .scheduled (.request _) _ => False
  | _ => True

theorem quiet_of_unrequested (e : SchedEvent) (h : Unrequested e) : Quiet e := by
  cases e with
  | requested cid args => cases h
  | scheduled origin call =>
    cases origin with
    | request cid => cases h
    | _ => trivial
  | _ => trivial

variable {events : List SchedEvent}

theorem starts_of_quiet (h : ∀ e∈events,Quiet e) (cid : UInt32) : starts cid events=[] := by
  unfold starts
  rw [List.filterMap_eq_nil_iff]
  intro e he
  have hq := h e he
  split
  · cases hq
  · rfl

theorem admitted_of_quiet (h : ∀ e∈events,Quiet e) : admitted events=[] := by
  unfold admitted
  rw [List.filterMap_eq_nil_iff]
  intro e he
  have hq := h e he
  split
  · cases hq
  · rfl

theorem fetched_of_unrequested (h : ∀ e∈events,Unrequested e) : fetched events=[] := by
  unfold fetched
  rw [List.filterMap_eq_nil_iff]
  intro e he
  have hq := h e he
  split
  · cases hq
  · rfl

variable {cfg : SchedulerConfig} {cid : UInt32} {call : Invocation}

/-- A request handed to the scheduling function, and what follows. -/
theorem scheduleFuncCall_ok {st st' : SchedState}
    (h : scheduleFuncCall cfg (.request cid) st call=.ok st') :
    Moves Unrequested (st.log (.scheduled (.request cid) call)) st' :=
  (leads_scheduleFuncCall (fun e he => unrequested_of_aftermath e he) _ st).ok h

/-- A call is the one of a request: same function, session and mode, and the
keys in order, each with a length. -/
def Matches (args : InflightFuncArgs) (call : Invocation) : Prop :=
  call.sessionId=args.sessionId ∧ call.funcName=args.funcName ∧ call.argFlag=args.argFlag ∧
    ∃ lens,call.funcArgs=keyedArgs lens args.keyArgs

/-- The waiting requests lack what a relation between keys and requests says. -/
structure Waiting (lack : Str → UInt32 → Prop) (st : SchedState) : Prop where
  /-- The counter shows the used numbers. -/
  counter : st.callId=UInt32.ofNat st.issued
  /-- The missing keys of every waiting request. -/
  lacks : ∀ k cid,lack k cid ↔
    ∃ w,st.callIdInflightArgsMap.find? cid=some w ∧ k∈w.inflightArgs
  /-- A waiting request lacks some key. -/
  lacking : ∀ cid w,st.callIdInflightArgsMap.find? cid=some w → w.inflightArgs.elems≠[]
  /-- Its other keys are local. -/
  known : ∀ cid w,st.callIdInflightArgsMap.find? cid=some w →
    ∀ k∈w.keyArgs,k∈w.inflightArgs ∨ st.keyLenMap.contains k=true
  /-- It is as it arrived, but for the missing keys. -/
  stored : ∀ cid w,st.callIdInflightArgsMap.find? cid=some w →
    ∃ args,(cid,args)∈admitted st.trace ∧ w={args with inflightArgs := w.inflightArgs}
  /-- Arrived requests have used numbers. -/
  numbered : ∀ e∈admitted st.trace,e.1.toNat<st.issued
  /-- Scheduled requests have used numbers. -/
  started : ∀ cid,starts cid st.trace≠[] → cid.toNat<st.issued
  /-- No two requests have one number. -/
  distinct : ((admitted st.trace).map Prod.fst).Nodup
  /-- A waiting request has not been scheduled, any other one exactly once. -/
  once : ∀ e∈admitted st.trace,
    (st.callIdInflightArgsMap.contains e.1=true ∧ starts e.1 st.trace=[]) ∨
    (st.callIdInflightArgsMap.contains e.1=false ∧
      ∃ call,starts e.1 st.trace=[call] ∧ Matches e.2 call)

/-- Both tables describe one relation. -/
structure Inflight (st : SchedState) : Prop where
  /-- The requests that lack a key are stored under it. -/
  waiting : Waiting (fun k cid => cid∈st.keyCallIdMap.getD k ∅) st
  /-- A key with an entry is lacked by some request. -/
  awaited : ∀ k cids,st.keyCallIdMap.find? k=some cids → cids.elems≠[]

variable {lack : Str → UInt32 → Prop} {st st' : SchedState}

theorem Waiting.congr {lack' : Str → UInt32 → Prop} (h : Waiting lack st)
    (hl : ∀ k c,lack' k c ↔ lack k c) : Waiting lack' st :=
  ⟨h.counter,fun k c => (hl k c).trans (h.lacks k c),h.lacking,h.known,h.stored,h.numbered,
    h.started,h.distinct,h.once⟩

variable {c : UInt32} {w : InflightFuncArgs}

/-- A waiting request has not been scheduled. -/
theorem Waiting.idle (h : Waiting lack st) (hw : st.callIdInflightArgsMap.find? c=some w) :
    starts c st.trace=[] := by
  obtain ⟨args,hargs,-⟩ := h.stored c w hw
  have hwait : st.callIdInflightArgsMap.contains c=true := UMap.contains_eq_true_iff.mpr ⟨w,hw⟩
  rcases h.once _ hargs with ⟨-,hidle⟩|⟨hn,-⟩
  · exact hidle
  · rw [hwait] at hn
    cases hn

variable {key : Str}

/-- The keys of a request that lacks only one are known once it has arrived. -/
theorem Waiting.known_last (h : Waiting lack st) (hw : st.callIdInflightArgsMap.find? c=some w)
    (hlast : ∀ k∈w.inflightArgs,k=key) (size : UInt32) :
    ∀ k∈w.keyArgs,(st.keyLenMap.set key size).contains k=true := by
  intro k hk
  rw [UMap.contains_set]
  rcases h.known c w hw k hk with hm|hm
  · rw [hlast k hm]
    simp
  · rw [hm]
    simp

/-- A key without entry is one that no request waits for. -/
theorem Inflight.unawaited_iff (h : Inflight st) (k : Str) : st.keyCallIdMap.contains k=false ↔
    ∀ c v,st.callIdInflightArgsMap.find? c=some v → k∉v.inflightArgs := by
  have hlacks := h.waiting.lacks k
  constructor
  · intro hc c v hv hk
    have hempty : st.keyCallIdMap.getD k ∅=∅ := by
      rw [UMap.getD,Option.not_isSome_iff_eq_none.mp (Bool.eq_false_iff.mp hc)]
      rfl
    have hm := (hlacks c).mpr ⟨v,hv,hk⟩
    rw [hempty] at hm
    exact USet.not_mem_empty c hm
  · intro hall
    by_contra hc
    obtain ⟨cids,hcids⟩ := UMap.contains_eq_true_iff.mp (eq_true_of_ne_false hc)
    obtain ⟨c,hm⟩ := List.exists_mem_of_ne_nil _ (h.awaited k cids hcids)
    have hget : st.keyCallIdMap.getD k ∅=cids := by
      rw [UMap.getD,hcids]
      rfl
    obtain ⟨v,hv,hk⟩ := (hlacks c).mp (hget ▸ hm)
    exact hall c v hv hk

theorem inflight_start (cfg : SchedulerConfig) (seed : UInt32) :
    Inflight (SchedState.start cfg seed) := by
  refine ⟨⟨rfl,fun k cid => ⟨?_,?_⟩,?_,?_,?_,?_,?_,List.nodup_nil,?_⟩,?_⟩
  · intro h
    cases h
  · rintro ⟨w,hw,-⟩
    cases hw
  · intro cid w hw
    cases hw
  · intro cid w hw
    cases hw
  · intro cid w hw
    cases hw
  · intro e he
    cases he
  · intro cid h
    exact absurd rfl h
  · intro e he
    cases he
  · intro k cids h
    cases h

/-- Steps that do not concern requests keep the invariant. -/
theorem Waiting.passes (h : Waiting lack st) (hp : Passes Quiet st st') : Waiting lack st' := by
  obtain ⟨new,hnew,hq⟩ := hp.trace
  have hadm : admitted st'.trace=admitted st.trace := by
    rw [hnew,admitted_append,admitted_of_quiet hq,List.append_nil]
  have hstarts : ∀ cid,starts cid st'.trace=starts cid st.trace := by
    intro cid
    rw [hnew,starts_append,starts_of_quiet hq,List.append_nil]
  have hmap := hp.callIdInflightArgsMap
  refine ⟨hp.callId h.counter,?_,?_,?_,?_,?_,?_,?_,?_⟩
  · rw [hmap]
    exact h.lacks
  · rw [hmap]
    exact h.lacking
  · rw [hmap]
    intro cid w hw k hk
    exact (h.known cid w hw k hk).imp id (hp.known k)
  · rw [hmap,hadm]
    exact h.stored
  · rw [hadm]
    exact fun e he => (h.numbered e he).trans_le hp.issued
  · intro cid hs
    rw [hstarts] at hs
    exact (h.started cid hs).trans_le hp.issued
  · rw [hadm]
    exact h.distinct
  · rw [hmap,hadm]
    intro e he
    rw [hstarts]
    exact h.once e he

theorem Inflight.passes (h : Inflight st) (hp : Passes Quiet st st') : Inflight st' := by
  have hkeys := hp.keyCallIdMap
  refine ⟨?_,?_⟩
  · rw [hkeys]
    exact h.waiting.passes hp
  · rw [hkeys]
    exact h.awaited

section Fresh

variable (h : Waiting lack st)
include h

theorem Waiting.counter_succ : st.callId+1=UInt32.ofNat (st.issued+1) := by
  rw [h.counter,UInt32.ofNat_add]
  rfl

theorem Waiting.numbered_succ : ∀ e∈admitted st.trace,e.1.toNat<st.issued+1 :=
  fun e he => (h.numbered e he).trans (Nat.lt_succ_self _)

variable (hw : st.issued<2^32)
include hw

theorem Waiting.toNat_callId : st.callId.toNat=st.issued := by
  rw [h.counter,UInt32.toNat_ofNat_of_lt' hw]

theorem Waiting.not_admitted {e : UInt32×InflightFuncArgs} (he : e∈admitted st.trace) :
    e.1≠st.callId := by
  intro hc
  have hlt := h.numbered e he
  rw [hc,h.toNat_callId hw] at hlt
  exact lt_irrefl _ hlt

theorem Waiting.not_waiting : st.callIdInflightArgsMap.find? st.callId=none := by
  cases hf : st.callIdInflightArgsMap.find? st.callId with
  | none => rfl
  | some w =>
    obtain ⟨args,hargs,-⟩ := h.stored _ w hf
    exact absurd rfl (h.not_admitted hw hargs)

theorem Waiting.not_started : starts st.callId st.trace=[] := by
  by_contra hs
  have hlt := h.started _ hs
  rw [h.toNat_callId hw] at hlt
  exact lt_irrefl _ hlt

/-- The next request is admitted under a number of its own. -/
theorem Waiting.admits_next (args : InflightFuncArgs) :
    (∀ e∈admitted st.trace++[(st.callId,args)],e.1.toNat<st.issued+1) ∧
      ((admitted st.trace++[(st.callId,args)]).map Prod.fst).Nodup := by
  refine ⟨List.forall_mem_append.mpr ⟨h.numbered_succ,fun e he => ?_⟩,?_⟩
  · rw [List.mem_singleton.mp he,h.toNat_callId hw]
    exact Nat.lt_succ_self _
  · rw [List.map_append]
    refine List.nodup_append.mpr ⟨h.distinct,List.nodup_singleton _,?_⟩
    intro x hx y hy hxy
    obtain ⟨e,he,rfl⟩ := List.mem_map.mp hx
    rw [List.mem_singleton.mp hy] at hxy
    exact h.not_admitted hw he hxy

end Fresh

/-- The request of the next number is handed to the scheduling function. -/
structure Starts (call : Invocation) (st st' : SchedState) : Prop where
  known : ∀ k,st.keyLenMap.contains k=true → st'.keyLenMap.contains k=true
  callId : st'.callId=st.callId+1
  issued : st'.issued=st.issued+1
  callIdInflightArgsMap : st'.callIdInflightArgsMap=st.callIdInflightArgsMap
  keyCallIdMap : st'.keyCallIdMap=st.keyCallIdMap
  /-- The request, if it has key arguments, and its call are recorded. -/
  trace : ∃ first rest,st'.trace=st.trace++first++.scheduled (.request st.callId) call::rest ∧
    (first=[] ∨ ∃ args,first=[.requested st.callId args] ∧ Matches args call) ∧
    ∀ e∈rest,Unrequested e

theorem Starts.starts_eq (h : Starts call st st') (cid : UInt32) :
    starts cid st'.trace=starts cid st.trace++if cid=st.callId then [call] else [] := by
  obtain ⟨first,rest,ht,hfirst,hrest⟩ := h.trace
  have h1 : starts cid first=[] := by
    rcases hfirst with rfl|⟨args,rfl,-⟩ <;> rfl
  have h2 : starts cid rest=[] := starts_of_quiet (fun e he => quiet_of_unrequested e (hrest e he)) cid
  rw [ht,starts_append,starts_append,h1,starts_scheduled,h2,List.append_nil,List.append_nil]

theorem Starts.admitted_eq (h : Starts call st st') :
    admitted st'.trace=admitted st.trace ∨
      ∃ args,admitted st'.trace=admitted st.trace++[(st.callId,args)] ∧ Matches args call := by
  obtain ⟨first,rest,ht,hfirst,hrest⟩ := h.trace
  have h2 : admitted rest=[] := admitted_of_quiet fun e he => quiet_of_unrequested e (hrest e he)
  rw [ht,admitted_append,admitted_append,admitted_scheduled,h2,List.append_nil]
  rcases hfirst with rfl|⟨args,rfl,hm⟩
  · exact Or.inl (List.append_nil _)
  · exact Or.inr ⟨args,rfl,hm⟩

/-- Scheduling the next request keeps the invariant. -/
theorem Waiting.schedule (h : Waiting lack st) (hw : st.issued<2^32) (hs : Starts call st st') :
    Waiting lack st' := by
  have hmap := hs.callIdInflightArgsMap
  have hold : ∀ e∈admitted st.trace,starts e.1 st'.trace=starts e.1 st.trace := by
    intro e he
    rw [hs.starts_eq,if_neg (h.not_admitted hw he),List.append_nil]
  have hnew : starts st.callId st'.trace=[call] := by
    rw [hs.starts_eq,if_pos rfl,h.not_started hw,List.nil_append]
  have hcontains : st.callIdInflightArgsMap.contains st.callId=false := by
    rw [UMap.contains,h.not_waiting hw]
    rfl
  refine ⟨?_,?_,?_,?_,?_,?_,?_,?_,?_⟩
  · rw [hs.callId,hs.issued]
    exact h.counter_succ
  · rw [hmap]
    exact h.lacks
  · rw [hmap]
    exact h.lacking
  · rw [hmap]
    intro cid w hf k hk
    exact (h.known cid w hf k hk).imp id (hs.known k)
  · rw [hmap]
    intro cid w hf
    obtain ⟨args,hargs,he⟩ := h.stored cid w hf
    refine ⟨args,?_,he⟩
    rcases hs.admitted_eq with ha|⟨a,ha,-⟩
    · rw [ha]
      exact hargs
    · rw [ha]
      exact List.mem_append_left _ hargs
  · rw [hs.issued]
    rcases hs.admitted_eq with ha|⟨a,ha,-⟩
    · rw [ha]
      exact h.numbered_succ
    · rw [ha]
      exact (h.admits_next hw a).1
  · intro cid hcid
    rw [hs.issued]
    rw [hs.starts_eq] at hcid
    by_cases hc : cid=st.callId
    · rw [hc,h.toNat_callId hw]
      exact Nat.lt_succ_self _
    · rw [if_neg hc,List.append_nil] at hcid
      exact (h.started cid hcid).trans (Nat.lt_succ_self _)
  · rcases hs.admitted_eq with ha|⟨a,ha,-⟩
    · rw [ha]
      exact h.distinct
    · rw [ha]
      exact (h.admits_next hw a).2
  · rw [hmap]
    have hkeep : ∀ e∈admitted st.trace,
        (st.callIdInflightArgsMap.contains e.1=true ∧ starts e.1 st'.trace=[]) ∨
        (st.callIdInflightArgsMap.contains e.1=false ∧
          ∃ call,starts e.1 st'.trace=[call] ∧ Matches e.2 call) := by
      intro e he
      rw [hold e he]
      exact h.once e he
    rcases hs.admitted_eq with ha|⟨a,ha,hm⟩
    · rw [ha]
      exact hkeep
    · rw [ha]
      refine List.forall_mem_append.mpr ⟨hkeep,fun e he => Or.inr ?_⟩
      rw [List.mem_singleton.mp he]
      exact ⟨hcontains,call,hnew,hm⟩

section Requests

variable {cfg : SchedulerConfig} {appName : Str} {sessionId : Session} {req : FunctionRequest}

theorem recvRequest_ok (h : recvRequest cfg appName sessionId st req=.ok st') :
    ∃ st1,admitRequest cfg appName sessionId st req=.ok st1 ∧
      {st1 with
        callId := st1.callId+1
        issued := st1.issued+1}=st' := map_eq_ok h

theorem recvRequest_values (hflag : ¬(requestArgs req).2>0)
    (h : recvRequest cfg appName sessionId st req=.ok st') :
    Starts ⟨sessionId,appName,req.name,(requestArgs req).1,0⟩ st st' := by
  obtain ⟨st1,hentry,rfl⟩ := recvRequest_ok h
  rw [admitRequest_values cfg appName sessionId hflag] at hentry
  have hm := scheduleFuncCall_ok hentry
  obtain ⟨rest,ht,hrest⟩ := hm.trace
  refine ⟨fun k hk => hm.contains hk,?_,?_,hm.callIdInflightArgsMap,hm.keyCallIdMap,
    [],rest,?_,Or.inl rfl,hrest⟩
  · exact congrArg (·+1) hm.callId
  · exact congrArg (·+1) hm.issued
  · rw [List.append_nil]
    exact ht.trans (List.append_assoc _ _ _)

/-- Keys of local objects: the request is scheduled at once. -/
theorem recvRequest_local (hflag : (requestArgs req).2>0)
    (hk : ∀ k∈(requestArgs req).1,st.keyLenMap.contains k=true)
    (h : recvRequest cfg appName sessionId st req=.ok st') :
    Starts (localCall st.keyLenMap appName sessionId req) st st' ∧
      ∃ rest,st'.trace=st.trace++.requested st.callId (localEntry sessionId req)::
        .scheduled (.request st.callId) (localCall st.keyLenMap appName sessionId req)::rest ∧
        ∀ e∈rest,Unrequested e := by
  obtain ⟨st1,hentry,rfl⟩ := recvRequest_ok h
  rw [admitRequest_local cfg appName sessionId hflag hk] at hentry
  have hm := scheduleFuncCall_ok hentry
  obtain ⟨rest,ht,hrest⟩ := hm.trace
  have htrace : st1.trace=st.trace++.requested st.callId (localEntry sessionId req)::
      .scheduled (.request st.callId) (localCall st.keyLenMap appName sessionId req)::rest := by
    rw [ht]
    simp [SchedState.log]
  have hmatch : Matches (localEntry sessionId req) (localCall st.keyLenMap appName sessionId req) :=
    ⟨rfl,rfl,rfl,st.keyLenMap,rfl⟩
  refine ⟨⟨fun k hk => hm.contains hk,?_,?_,hm.callIdInflightArgsMap,hm.keyCallIdMap,
    [.requested st.callId (localEntry sessionId req)],rest,?_,Or.inr ⟨_,rfl,hmatch⟩,hrest⟩,
    rest,htrace,hrest⟩
  · exact congrArg (·+1) hm.callId
  · exact congrArg (·+1) hm.issued
  · rw [List.append_assoc,List.singleton_append]
    exact htrace

/-- Some key is missing: the request is stored. -/
structure Stores (sessionId : Session) (req : FunctionRequest) (w : InflightFuncArgs)
    (st st' : SchedState) : Prop where
  /-- The entry holds all keys. -/
  entry : w={localEntry sessionId req with inflightArgs := w.inflightArgs}
  /-- The entry holds the keys that are missing. -/
  missing : ∀ k,k∈w.inflightArgs ↔ k∈(requestArgs req).1 ∧ st.keyLenMap.contains k=false
  keyLenMap : st'.keyLenMap=st.keyLenMap
  callId : st'.callId=st.callId+1
  issued : st'.issued=st.issued+1
  /-- The entry is stored under its number. -/
  callIdInflightArgsMap : st'.callIdInflightArgsMap=st.callIdInflightArgsMap.set st.callId w
  /-- Its number is stored under every missing key. -/
  keyCallIdMap : ∀ k,st'.keyCallIdMap.find? k=if k∈w.inflightArgs then
    some ((st.keyCallIdMap.getD k ∅).insert st.callId) else st.keyCallIdMap.find? k
  /-- Data is requested, once, for every missing key without entry. -/
  trace : ∃ new,st'.trace=st.trace++new++[.requested st.callId w] ∧
    (∀ e∈new,∃ ioThread key,e=.sent (.dataReq ioThread key)) ∧ (fetched new).Nodup ∧
    ∀ k,k∈fetched new ↔ k∈w.inflightArgs ∧ st.keyCallIdMap.contains k=false

theorem recvRequest_missing (hflag : (requestArgs req).2>0)
    (hk : ∃ k∈(requestArgs req).1,st.keyLenMap.contains k=false)
    (h : recvRequest cfg appName sessionId st req=.ok st') :
    ∃ w,Stores sessionId req w st st' := by
  obtain ⟨st1,hentry,rfl⟩ := recvRequest_ok h
  obtain ⟨r,hr,he⟩ := admitRequest_missing cfg appName sessionId hflag hk
  rw [he] at hentry
  have hst := Except.ok.inj hentry
  have hmissing : ∀ k,k∈r.1.inflightArgs ↔
      k∈(requestArgs req).1 ∧ st.keyLenMap.contains k=false := by
    intro k
    rw [hr.missing k]
    constructor
    · rintro (hm|hm)
      · cases hm
      · exact hm
    · exact Or.inr
  obtain ⟨new,hnew,hsent,hnodup,hmem⟩ := hr.trace
  have hrest := hr.rest
  subst hst
  refine ⟨r.1,⟨hr.args,hmissing,?_,?_,?_,?_,fun k => ?_,new,?_,hsent,hnodup,fun k => ?_⟩⟩
  · exact (congrArg SchedState.keyLenMap hrest :)
  · exact congrArg (·+1) (congrArg SchedState.callId hrest :)
  · exact congrArg (·+1) (congrArg SchedState.issued hrest :)
  · exact congrArg (fun m => UMap.set m st.callId r.1)
      (congrArg SchedState.callIdInflightArgsMap hrest :)
  · exact (hr.noted k).trans (if_congr (hmissing k).symm rfl rfl)
  · show r.2.trace++_=_
    rw [hnew]
  · rw [hmem,hmissing,and_assoc]

end Requests

section Stored

variable {sessionId : Session} {req : FunctionRequest} {w : InflightFuncArgs}
  (hs : Stores sessionId req w st st')

include hs

/-- Nothing but the request for data comes before the new request. -/
theorem Stores.quiet : ∃ new,st'.trace=st.trace++new++[.requested st.callId w] ∧ ∀ e∈new,Quiet e := by
  obtain ⟨new,ht,hsent,-,-⟩ := hs.trace
  refine ⟨new,ht,fun e he => ?_⟩
  obtain ⟨ioThread,key,rfl⟩ := hsent e he
  trivial

theorem Stores.admitted : admitted st'.trace=admitted st.trace++[(st.callId,w)] := by
  obtain ⟨new,ht,hquiet⟩ := hs.quiet
  rw [ht,admitted_append,admitted_append,admitted_of_quiet hquiet,List.append_nil]
  rfl

theorem Stores.starts (cid : UInt32) : starts cid st'.trace=starts cid st.trace := by
  obtain ⟨new,ht,hquiet⟩ := hs.quiet
  rw [ht,starts_append,starts_append,starts_of_quiet hquiet,List.append_nil]
  exact List.append_nil _

theorem Stores.find? (cid : UInt32) : st'.callIdInflightArgsMap.find? cid=
    if cid=st.callId then some w else st.callIdInflightArgsMap.find? cid := by
  rw [hs.callIdInflightArgsMap,UMap.find?_set]

/-- A request that waits is the new one or an old one. -/
theorem Stores.find?_cases {cid : UInt32} {v : InflightFuncArgs}
    (hv : st'.callIdInflightArgsMap.find? cid=some v) :
    (cid=st.callId ∧ v=w) ∨ (cid≠st.callId ∧ st.callIdInflightArgsMap.find? cid=some v) := by
  rw [hs.find?] at hv
  by_cases hc : cid=st.callId
  · rw [if_pos hc] at hv
    exact Or.inl ⟨hc,(Option.some.inj hv).symm⟩
  · rw [if_neg hc] at hv
    exact Or.inr ⟨hc,hv⟩

/-- The new request waits for its missing keys. -/
theorem Stores.mem_waiting (k : Str) (cid : UInt32) : cid∈st'.keyCallIdMap.getD k ∅ ↔
    (cid=st.callId ∧ k∈w.inflightArgs) ∨ cid∈st.keyCallIdMap.getD k ∅ := by
  rw [UMap.getD,hs.keyCallIdMap k]
  by_cases hk : k∈w.inflightArgs
  · rw [if_pos hk,Option.getD_some,USet.mem_insert]
    simp only [hk,and_true]
  · rw [if_neg hk]
    simp only [hk,and_false,false_or,UMap.getD]

/-- A request that waits before lacks the same keys after. -/
theorem Stores.lacks (hw : st.issued<2^32)
    (hold : Waiting (fun k cid => cid∈st.keyCallIdMap.getD k ∅) st) (k : Str) (cid : UInt32) :
    cid∈st'.keyCallIdMap.getD k ∅ ↔
      ∃ v,st'.callIdInflightArgsMap.find? cid=some v ∧ k∈v.inflightArgs := by
  rw [hs.mem_waiting,hold.lacks]
  constructor
  · rintro (⟨rfl,hk⟩|⟨v,hv,hk⟩)
    · exact ⟨w,by rw [hs.find?,if_pos rfl],hk⟩
    · have hc : cid≠st.callId := by
        rintro rfl
        rw [hold.not_waiting hw] at hv
        cases hv
      exact ⟨v,by rw [hs.find?,if_neg hc]; exact hv,hk⟩
  · rintro ⟨v,hv,hk⟩
    rcases hs.find?_cases hv with ⟨rfl,rfl⟩|⟨-,hv'⟩
    · exact Or.inl ⟨rfl,hk⟩
    · exact Or.inr ⟨v,hv',hk⟩

end Stored

variable {sessionId : Session}

/-- Storing the next request keeps the invariant. -/
theorem Inflight.stores {req : FunctionRequest} (h : Inflight st) (hw : st.issued<2^32)
    (hs : Stores sessionId req w st st') (hne : w.inflightArgs.elems≠[]) : Inflight st' := by
  have hold := h.waiting
  have hadm := hs.admitted
  have hstarts := hs.starts
  refine ⟨⟨?_,hs.lacks hw hold,?_,?_,?_,?_,?_,?_,?_⟩,?_⟩
  · rw [hs.callId,hs.issued]
    exact hold.counter_succ
  · intro cid v hv
    rcases hs.find?_cases hv with ⟨-,rfl⟩|⟨-,hv'⟩
    · exact hne
    · exact hold.lacking cid v hv'
  · intro cid v hv k hk
    rw [hs.keyLenMap]
    rcases hs.find?_cases hv with ⟨-,rfl⟩|⟨-,hv'⟩
    · rw [hs.entry] at hk
      rw [hs.missing]
      cases hc : st.keyLenMap.contains k with
      | true => exact Or.inr rfl
      | false => exact Or.inl ⟨hk,rfl⟩
    · exact hold.known cid v hv' k hk
  · intro cid v hv
    rw [hadm]
    rcases hs.find?_cases hv with ⟨rfl,rfl⟩|⟨-,hv'⟩
    · exact ⟨v,List.mem_append_right _ List.mem_cons_self,rfl⟩
    · obtain ⟨args,hargs,he⟩ := hold.stored cid v hv'
      exact ⟨args,List.mem_append_left _ hargs,he⟩
  · rw [hadm,hs.issued]
    exact (hold.admits_next hw w).1
  · intro cid hcid
    rw [hstarts] at hcid
    rw [hs.issued]
    exact (hold.started cid hcid).trans (Nat.lt_succ_self _)
  · rw [hadm]
    exact (hold.admits_next hw w).2
  · rw [hadm]
    refine List.forall_mem_append.mpr ⟨fun e he => ?_,fun e he => Or.inl ?_⟩
    · have hc : st'.callIdInflightArgsMap.contains e.1=st.callIdInflightArgsMap.contains e.1 := by
        rw [UMap.contains,hs.find?,if_neg (hold.not_admitted hw he)]
        rfl
      rw [hc,hstarts]
      exact hold.once e he
    · rw [List.mem_singleton.mp he,hstarts]
      refine ⟨?_,hold.not_started hw⟩
      rw [UMap.contains,hs.find?,if_pos rfl]
      rfl
  · intro k cids hk
    rw [hs.keyCallIdMap k] at hk
    split at hk
    · rw [←Option.some.inj hk]
      exact List.ne_nil_of_mem (USet.mem_insert.mpr (Or.inl rfl))
    · exact h.awaited k cids hk

theorem Inflight.schedule (h : Inflight st) (hw : st.issued<2^32) (hs : Starts call st st') :
    Inflight st' := by
  have hkeys := hs.keyCallIdMap
  refine ⟨?_,?_⟩
  · rw [hkeys]
    exact h.waiting.schedule hw hs
  · rw [hkeys]
    exact h.awaited

/-- Every request keeps the invariant and uses one number. -/
theorem inflight_recvRequest {appName : Str} {req : FunctionRequest}
    (hr : recvRequest cfg appName sessionId st req=.ok st') :
    st'.issued=st.issued+1 ∧ (Inflight st → st.issued<2^32 → Inflight st') := by
  by_cases hflag : (requestArgs req).2>0
  · by_cases hlocal : ∀ k∈(requestArgs req).1,st.keyLenMap.contains k=true
    · have hs := (recvRequest_local hflag hlocal hr).1
      exact ⟨hs.issued,fun h hw => h.schedule hw hs⟩
    · push Not at hlocal
      obtain ⟨k,hm,hc⟩ := hlocal
      have hcf : st.keyLenMap.contains k=false := Bool.eq_false_iff.mpr hc
      obtain ⟨w,hs⟩ := recvRequest_missing hflag ⟨k,hm,hcf⟩ hr
      have hne : w.inflightArgs.elems≠[] := List.ne_nil_of_mem ((hs.missing k).mpr ⟨hm,hcf⟩)
      exact ⟨hs.issued,fun h hw => h.stores hw hs hne⟩
  · have hs := recvRequest_values hflag hr
    exact ⟨hs.issued,fun h hw => h.schedule hw hs⟩

theorem inflight_requests {appName : Str} {reqs : List FunctionRequest}
    (hr : reqs.foldlM (recvRequest cfg appName sessionId) st=.ok st') :
    st.issued≤ st'.issued ∧ (Inflight st → st'.issued<2^32 → Inflight st') := by
  induction reqs generalizing st with
  | nil =>
    cases hr
    exact ⟨le_refl _,fun h _ => h⟩
  | cons req reqs ih =>
    rw [List.foldlM_cons] at hr
    obtain ⟨u,hu,hv⟩ := bind_eq_ok hr
    obtain ⟨hone,hkeep⟩ := inflight_recvRequest hu
    obtain ⟨hle,hrest⟩ := ih hv
    refine ⟨by omega,fun h hw => hrest (hkeep h (by omega)) hw⟩

theorem passes_openCall (call : FunctionCall) (st : SchedState) : Passes Quiet st (openCall st call) :=
  passes_of_eq rfl

/-- The call of a waiting request whose keys are all local. -/
def servedCall (lens : UMap Str UInt32) (appName : Str) (w : InflightFuncArgs) : Invocation :=
  ⟨w.sessionId,appName,w.funcName,keyedArgs lens w.keyArgs,w.argFlag⟩

/-- Lengths that are kept give the same call. -/
theorem servedCall_kept {lens lens' : UMap Str UInt32} (hknown : ∀ k∈w.keyArgs,lens.contains k=true)
    (hkept : ∀ k v,lens.find? k=some v → lens'.find? k=some v) (appName : Str) :
    servedCall lens' appName w=servedCall lens appName w := by
  have hargs : keyedArgs lens' w.keyArgs=keyedArgs lens w.keyArgs := by
    refine List.flatMap_congr fun k hk => ?_
    obtain ⟨v,hv⟩ := UMap.contains_eq_true_iff.mp (hknown k hk)
    rw [UMap.getD,UMap.getD,hv,hkept k v hv]
  rw [servedCall,servedCall,hargs]

/-- What the data of a key does for one waiting request. -/
structure Serves (key : Str) (cid : UInt32) (w : InflightFuncArgs) (st st' : SchedState) : Prop where
  callId : st'.callId=st.callId
  issued : st'.issued=st.issued
  keyCallIdMap : st'.keyCallIdMap=st.keyCallIdMap
  keyLenMap : ∀ k v,st.keyLenMap.find? k=some v → st'.keyLenMap.find? k=some v
  /-- A request that lacks only this key is scheduled and forgotten. -/
  done : (∀ k∈w.inflightArgs,k=key) →
    (∀ c,st'.callIdInflightArgsMap.find? c=
      if c=cid then none else st.callIdInflightArgsMap.find? c) ∧
    ∃ appName rest,st'.trace=st.trace++
      .scheduled (.request cid) (servedCall st.keyLenMap appName w)::rest ∧ ∀ e∈rest,Unrequested e
  /-- Any other request waits on. -/
  more : ¬(∀ k∈w.inflightArgs,k=key) →
    (∀ c,st'.callIdInflightArgsMap.find? c=if c=cid then
      some {w with inflightArgs := w.inflightArgs.erase key} else st.callIdInflightArgsMap.find? c) ∧
    st'.trace=st.trace

theorem erase_elems_nil_iff {s : USet Str} : (s.erase key).elems=[] ↔ ∀ k∈s,k=key := by
  rw [List.eq_nil_iff_forall_not_mem]
  constructor
  · intro h k hk
    by_contra hne
    exact h k (USet.mem_erase.mpr ⟨hne,hk⟩)
  · intro h k hk
    obtain ⟨hne,hm⟩ := USet.mem_erase.mp hk
    exact hne (h k hm)

theorem arriveKey_serves (hw : st.callIdInflightArgsMap.find? cid=some w)
    (hknown : (∀ k∈w.inflightArgs,k=key) → ∀ k∈w.keyArgs,st.keyLenMap.contains k=true)
    (h : arriveKey cfg key st cid=.ok st') : Serves key cid w st st' := by
  have hget : st.callIdInflightArgsMap.getD cid .unset=w := by
    rw [UMap.getD,hw]
    rfl
  unfold arriveKey at h
  rw [hget] at h
  dsimp only at h
  by_cases hlast : ∀ k∈w.inflightArgs,k=key
  · rw [if_pos (erase_elems_nil_iff.mpr hlast)] at h
    have hsized := sizedArgs_known {st with
      callIdInflightArgsMap := st.callIdInflightArgsMap.set cid
        {w with inflightArgs := w.inflightArgs.erase key}} (hknown hlast)
    rw [hsized] at h
    obtain ⟨u,hu,hv⟩ := bind_eq_ok h
    have hm := scheduleFuncCall_ok hu
    obtain ⟨rest,ht,hrest⟩ := hm.trace
    have hst := Except.ok.inj hv
    subst hst
    refine ⟨hm.callId,hm.issued,hm.keyCallIdMap,hm.keyLenMap,fun _ => ⟨fun c => ?_,?_⟩,
      fun hmore => absurd hlast hmore⟩
    · show (u.callIdInflightArgsMap.erase cid).find? c=_
      rw [UMap.find?_erase,hm.callIdInflightArgsMap]
      show (if c=cid then none else (st.callIdInflightArgsMap.set cid _).find? c)=_
      by_cases hc : c=cid
      · rw [if_pos hc,if_pos hc]
      · rw [if_neg hc,if_neg hc,UMap.find?_set_of_ne _ hc]
    · exact ⟨_,rest,ht.trans (List.append_assoc _ _ _),hrest⟩
  · rw [if_neg fun he => hlast (erase_elems_nil_iff.mp he)] at h
    have hst := Except.ok.inj h
    subst hst
    refine ⟨rfl,rfl,rfl,fun k v hk => hk,fun hl => absurd hl hlast,fun _ => ⟨fun c => ?_,rfl⟩⟩
    exact UMap.find?_set _ _ _ _

section Serving

variable (hs : Serves key cid w st st')
include hs

theorem Serves.contains {k : Str} (hk : st.keyLenMap.contains k=true) :
    st'.keyLenMap.contains k=true := by
  obtain ⟨v,hv⟩ := UMap.contains_eq_true_iff.mp hk
  exact UMap.contains_eq_true_iff.mpr ⟨v,hs.keyLenMap k v hv⟩

theorem Serves.trace : admitted st'.trace=admitted st.trace ∧ fetched st'.trace=fetched st.trace ∧
      ∀ c,c≠cid → starts c st'.trace=starts c st.trace := by
  by_cases hlast : ∀ k∈w.inflightArgs,k=key
  · obtain ⟨-,appName,rest,ht,hrest⟩ := hs.done hlast
    have hquiet : ∀ e∈rest,Quiet e := fun e he => quiet_of_unrequested e (hrest e he)
    rw [ht,admitted_append,admitted_scheduled,admitted_of_quiet hquiet,fetched_append,
      fetched_scheduled,fetched_of_unrequested hrest,List.append_nil,List.append_nil]
    refine ⟨rfl,rfl,fun c hc => ?_⟩
    rw [starts_append,starts_scheduled,starts_of_quiet hquiet,if_neg hc,List.append_nil,List.append_nil]
  · obtain ⟨-,ht⟩ := hs.more hlast
    rw [ht]
    exact ⟨rfl,rfl,fun _ _ => rfl⟩

/-- The call of a request that lacks only this key. -/
theorem Serves.starts_done (hlast : ∀ k∈w.inflightArgs,k=key) :
    ∃ appName,starts cid st'.trace=starts cid st.trace++[servedCall st.keyLenMap appName w] := by
  obtain ⟨-,appName,rest,ht,hrest⟩ := hs.done hlast
  have hquiet : ∀ e∈rest,Quiet e := fun e he => quiet_of_unrequested e (hrest e he)
  refine ⟨appName,?_⟩
  rw [ht,starts_append,starts_scheduled,starts_of_quiet hquiet,if_pos rfl,List.append_nil]

/-- The entry of a request after its key has arrived. -/
theorem Serves.find {v : InflightFuncArgs} (hv : st'.callIdInflightArgsMap.find? c=some v) :
    (c=cid ∧ v={w with inflightArgs := w.inflightArgs.erase key} ∧ ¬∀ k∈w.inflightArgs,k=key) ∨
    (c≠cid ∧ st.callIdInflightArgsMap.find? c=some v) := by
  by_cases hlast : ∀ k∈w.inflightArgs,k=key
  · rw [(hs.done hlast).1 c] at hv
    by_cases hc : c=cid
    · rw [if_pos hc] at hv
      cases hv
    · rw [if_neg hc] at hv
      exact Or.inr ⟨hc,hv⟩
  · rw [(hs.more hlast).1 c] at hv
    by_cases hc : c=cid
    · rw [if_pos hc] at hv
      exact Or.inl ⟨hc,(Option.some.inj hv).symm,hlast⟩
    · rw [if_neg hc] at hv
      exact Or.inr ⟨hc,hv⟩

/-- The entries of other requests are left alone. -/
theorem Serves.find_other (hc : c≠cid) : st'.callIdInflightArgsMap.find? c=st.callIdInflightArgsMap.find? c := by
  by_cases hlast : ∀ k∈w.inflightArgs,k=key
  · rw [(hs.done hlast).1 c,if_neg hc]
  · rw [(hs.more hlast).1 c,if_neg hc]

variable (h : Waiting lack st) (hw : st.callIdInflightArgsMap.find? cid=some w)
include h hw

/-- Serving a request strikes the served pair. -/
theorem Serves.lacks (k : Str) (c : UInt32) : lack k c ∧ ¬(k=key ∧ c=cid) ↔
      ∃ v,st'.callIdInflightArgsMap.find? c=some v ∧ k∈v.inflightArgs := by
  constructor
  · rintro ⟨hl,hne⟩
    obtain ⟨v,hv,hk⟩ := (h.lacks k c).mp hl
    by_cases hc : c=cid
    · subst hc
      have hvw : v=w := Option.some.inj (hv.symm.trans hw)
      subst hvw
      have hkne : k≠key := fun he => hne ⟨he,rfl⟩
      have hmore : ¬∀ k∈v.inflightArgs,k=key := fun hall => hkne (hall k hk)
      refine ⟨_,by rw [(hs.more hmore).1 c,if_pos rfl],?_⟩
      exact USet.mem_erase.mpr ⟨hkne,hk⟩
    · exact ⟨v,by rw [hs.find_other hc]; exact hv,hk⟩
  · rintro ⟨v,hv,hk⟩
    rcases hs.find hv with ⟨rfl,rfl,-⟩|⟨hc,hv'⟩
    · obtain ⟨hkne,hk'⟩ := USet.mem_erase.mp hk
      exact ⟨(h.lacks k c).mpr ⟨w,hw,hk'⟩,fun he => hkne he.1⟩
    · exact ⟨(h.lacks k c).mpr ⟨v,hv',hk⟩,fun he => hc he.2⟩

/-- A served request still waits, or has been called with its arguments. -/
theorem Serves.once : ∀ e∈admitted st.trace,
      (st'.callIdInflightArgsMap.contains e.1=true ∧ starts e.1 st'.trace=[]) ∨
      (st'.callIdInflightArgsMap.contains e.1=false ∧
        ∃ call,starts e.1 st'.trace=[call] ∧ Matches e.2 call) := by
  intro e he
  by_cases hc : e.1=cid
  · have hidle := h.idle hw
    by_cases hlast : ∀ k∈w.inflightArgs,k=key
    · obtain ⟨appName,hst⟩ := hs.starts_done hlast
      obtain ⟨args,hargs,hent⟩ := h.stored cid w hw
      have hea : e=(cid,args) := List.inj_on_of_nodup_map h.distinct he hargs hc
      refine Or.inr ⟨?_,servedCall st.keyLenMap appName w,?_,?_⟩
      · rw [UMap.contains,(hs.done hlast).1,if_pos hc]
        rfl
      · rw [hc,hst,hidle,List.nil_append]
      · rw [hea,hent]
        exact ⟨rfl,rfl,rfl,st.keyLenMap,rfl⟩
    · refine Or.inl ⟨?_,?_⟩
      · rw [UMap.contains,(hs.more hlast).1,if_pos hc]
        rfl
      · rw [(hs.more hlast).2,hc]
        exact hidle
  · rw [hs.trace.2.2 e.1 hc,UMap.contains,hs.find_other hc]
    exact h.once e he

/-- Serving a request keeps the invariant, but for the served pair. -/
theorem Serves.waiting (hkey : st.keyLenMap.contains key=true) :
    Waiting (fun k c => lack k c ∧ ¬(k=key ∧ c=cid)) st' := by
  obtain ⟨hadm,-,hstarts⟩ := hs.trace
  refine ⟨?_,hs.lacks h hw,?_,?_,?_,?_,?_,?_,?_⟩
  · rw [hs.callId,hs.issued]
    exact h.counter
  · intro c v hv
    rcases hs.find hv with ⟨rfl,rfl,hmore⟩|⟨-,hv'⟩
    · exact fun he => hmore (erase_elems_nil_iff.mp he)
    · exact h.lacking c v hv'
  · intro c v hv k hk
    rcases hs.find hv with ⟨rfl,rfl,-⟩|⟨-,hv'⟩
    · by_cases hkk : k=key
      · exact Or.inr (hs.contains (hkk ▸ hkey))
      · exact (h.known c w hw k hk).imp (fun hm => USet.mem_erase.mpr ⟨hkk,hm⟩) hs.contains
    · exact (h.known c v hv' k hk).imp id hs.contains
  · intro c v hv
    rw [hadm]
    rcases hs.find hv with ⟨rfl,rfl,-⟩|⟨-,hv'⟩
    · obtain ⟨args,hargs,he⟩ := h.stored c w hw
      refine ⟨args,hargs,?_⟩
      rw [he]
    · exact h.stored c v hv'
  · rw [hadm,hs.issued]
    exact h.numbered
  · intro c hc
    rw [hs.issued]
    by_cases hcc : c=cid
    · obtain ⟨args,hargs,-⟩ := h.stored cid w hw
      rw [hcc]
      exact h.numbered _ hargs
    · rw [hstarts c hcc] at hc
      exact h.started c hc
  · rw [hadm]
    exact h.distinct
  · rw [hadm]
    exact hs.once h hw

end Serving

end Pheromone.InflightRequests
