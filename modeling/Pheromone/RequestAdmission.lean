import Pheromone.SchedulerFrames

/-!
# Admitting the requests of a call

A request whose keys are all local is scheduled at once. Otherwise it is
stored, and missing keys that no other request waits for are asked for.
-/

namespace Pheromone.RequestAdmission

open UnorderedContainers CommonNames OperationMessages SchedulerState Scheduling
open SchedulerLoop

/-- The calls under which a request has been scheduled. -/
def starts (cid : UInt32) (events : List SchedEvent) : List Invocation :=
  events.filterMap fun
    | .scheduled (.request c) call => if c=cid then some call else none
    | _ => none

/-- The keys for which data has been requested. -/
def fetched (events : List SchedEvent) : List Str :=
  events.filterMap fun
    | .sent (.dataReq _ key) => some key
    | _ => none

@[simp] theorem starts_append (cid : UInt32) (a b : List SchedEvent) :
    starts cid (a++b)=starts cid a++starts cid b := List.filterMap_append

@[simp] theorem fetched_append (a b : List SchedEvent) :
    fetched (a++b)=fetched a++fetched b := List.filterMap_append

/-- The key arguments of a call: every key with its length. -/
def keyedArgs (lens : UMap Str UInt32) (keys : List Str) : List Str :=
  keys.flatMap fun key => [key,DelimitedText.decimal (lens.getD key 0).toNat]

/-- Names with the lengths that are known; others have length zero. -/
theorem sizedArgs_fst (keys : List Str) (st : SchedState) :
    (sizedArgs keys st).1=keyedArgs st.keyLenMap keys := by
  induction keys generalizing st with
  | nil => rfl
  | cons k keys ih =>
    have hlens : keyedArgs (keyLen st k).2.keyLenMap keys=keyedArgs st.keyLenMap keys := by
      refine List.flatMap_congr fun other _ => ?_
      rw [keyLen,UMap.getD_touch]
    have hrest := (ih (keyLen st k).2).trans hlens
    exact congrArg (fun args => k::DelimitedText.decimal (st.keyLenMap.getD k 0).toNat::args) hrest

variable {keys : List Str}

/-- Reading the lengths of known objects creates no entries. -/
theorem sizedArgs_known (st : SchedState) (h : ∀ k∈keys,st.keyLenMap.contains k=true) :
    sizedArgs keys st=(keyedArgs st.keyLenMap keys,st) := by
  induction keys with
  | nil => rfl
  | cons k keys ih =>
    have hk : (keyLen st k).2=st := by
      have htouch : st.keyLenMap.touch k 0=st.keyLenMap := by
        rw [UMap.touch,if_pos (h k List.mem_cons_self)]
      rw [keyLen,htouch]
    have hrest := ih fun x hx => h x (List.mem_cons_of_mem _ hx)
    rw [sizedArgs,hk,hrest]
    rfl

/-- What fetching does: the request gets all keys, and waits for those that
are missing. -/
structure Fetches (st : SchedState) (callId : UInt32) (keys : List Str) (a : InflightFuncArgs)
    (r : InflightFuncArgs×SchedState) : Prop where
  /-- The keys are appended; function, session and mode are kept. -/
  args : r.1={a with
    keyArgs := a.keyArgs++keys
    inflightArgs := r.1.inflightArgs}
  /-- The missing keys are noted. -/
  missing : ∀ k,k∈r.1.inflightArgs ↔ k∈a.inflightArgs ∨ k∈keys ∧ st.keyLenMap.contains k=false
  /-- Under each of them, so is the request. -/
  noted : ∀ k,r.2.keyCallIdMap.find? k=if k∈keys ∧ st.keyLenMap.contains k=false then
    some ((st.keyCallIdMap.getD k ∅).insert callId) else st.keyCallIdMap.find? k
  /-- Nothing else changes but the last I/O thread and the trace. -/
  rest : r.2={st with
    keyCallIdMap := r.2.keyCallIdMap
    ioThreadId := r.2.ioThreadId
    trace := r.2.trace}
  /-- Data is requested, once, for every missing key without request. -/
  trace : ∃ new,r.2.trace=st.trace++new ∧ (∀ e∈new,∃ ioThread key,e=.sent (.dataReq ioThread key)) ∧
    (fetched new).Nodup ∧ ∀ k,k∈fetched new ↔ k∈keys ∧ st.keyLenMap.contains k=false ∧
      st.keyCallIdMap.contains k=false

theorem sendDataReq_eq (cfg : SchedulerConfig) (st : SchedState) (key : Str) :
    ∃ ioThread id,sendDataReq cfg st key={st with
      ioThreadId := id
      trace := st.trace++[.sent (.dataReq ioThread key)]} := by
  unfold sendDataReq ioThread
  split
  · exact ⟨_,_,rfl⟩
  · exact ⟨0,st.ioThreadId,rfl⟩

variable {st : SchedState}

/-- A request whose keys are all local is not changed but for its keys. -/
theorem fetchKeys_known (cfg : SchedulerConfig) (callId : UInt32)
    (h : ∀ k∈keys,st.keyLenMap.contains k=true) (args : InflightFuncArgs) :
    fetchKeys cfg callId keys args st=({args with keyArgs := args.keyArgs++keys},st) := by
  induction keys generalizing args with
  | nil =>
    rw [fetchKeys,List.append_nil]
  | cons k keys ih =>
    rw [fetchKeys]
    dsimp only
    rw [if_pos (h k List.mem_cons_self),ih fun x hx => h x (List.mem_cons_of_mem _ hx)]
    rw [List.append_assoc,List.singleton_append]

theorem note_eq (cfg : SchedulerConfig) (st : SchedState) (key : Str) (callId : UInt32) :
    ∃ id new,(∀ e∈new,∃ ioThread,e=.sent (.dataReq ioThread key)) ∧
      fetched new=(if st.keyCallIdMap.contains key then [] else [key]) ∧
      (let st := if st.keyCallIdMap.contains key then st else sendDataReq cfg st key
       {st with keyCallIdMap := st.keyCallIdMap.set key ((st.keyCallIdMap.getD key ∅).insert callId)})=
      {st with
        keyCallIdMap := st.keyCallIdMap.set key ((st.keyCallIdMap.getD key ∅).insert callId)
        ioThreadId := id
        trace := st.trace++new} := by
  by_cases hc : st.keyCallIdMap.contains key=true
  · refine ⟨st.ioThreadId,[],by simp,by simp [fetched,hc],?_⟩
    simp only [hc,if_true,List.append_nil]
  · obtain ⟨ioThread,id,hs⟩ := sendDataReq_eq cfg st key
    refine ⟨id,[.sent (.dataReq ioThread key)],?_,?_,?_⟩
    · intro e he
      exact ⟨ioThread,List.mem_singleton.mp he⟩
    · simp [fetched,hc]
    · simp only [hc,Bool.false_eq_true,if_false,hs]

variable {callId : UInt32} {key : Str} {a : InflightFuncArgs} {r : InflightFuncArgs×SchedState}

theorem Fetches.cons_known (hk : st.keyLenMap.contains key=true)
    (h : Fetches st callId keys {a with keyArgs := a.keyArgs++[key]} r) :
    Fetches st callId (key::keys) a r := by
  have hkey : ∀ k,(k∈key::keys ∧ st.keyLenMap.contains k=false) ↔
      k∈keys ∧ st.keyLenMap.contains k=false := by
    intro k
    rw [List.mem_cons]
    constructor
    · rintro ⟨rfl|hm,hc⟩
      · rw [hk] at hc
        cases hc
      · exact ⟨hm,hc⟩
    · exact fun hm => ⟨Or.inr hm.1,hm.2⟩
  obtain ⟨new,hnew,hsent,hnodup,hmem⟩ := h.trace
  refine ⟨?_,fun k => ?_,fun k => ?_,h.rest,new,hnew,hsent,hnodup,fun k => ?_⟩
  · rw [h.args,List.append_assoc,List.singleton_append]
  · rw [hkey]
    exact h.missing k
  · simp only [hkey]
    exact h.noted k
  · rw [hmem,←and_assoc,←and_assoc,hkey]

theorem Fetches.cons_missing {id : UInt32} {first : List SchedEvent}
    (hk : st.keyLenMap.contains key=false)
    (hfirst : ∀ e∈first,∃ ioThread,e=.sent (.dataReq ioThread key))
    (hfetch : fetched first=if st.keyCallIdMap.contains key then [] else [key])
    (h : Fetches {st with
        keyCallIdMap := st.keyCallIdMap.set key ((st.keyCallIdMap.getD key ∅).insert callId)
        ioThreadId := id
        trace := st.trace++first} callId keys {a with
        keyArgs := a.keyArgs++[key]
        inflightArgs := a.inflightArgs.insert key} r) : Fetches st callId (key::keys) a r := by
  obtain ⟨new,hnew,hsent,hnodup,hmem⟩ := h.trace
  refine ⟨?_,fun k => ?_,fun k => ?_,h.rest,first++new,?_,?_,?_,fun k => ?_⟩
  · rw [h.args,List.append_assoc,List.singleton_append]
  · rw [h.missing k,USet.mem_insert,List.mem_cons]
    by_cases hkk : k=key
    · subst hkk
      simp [hk]
    · simp [hkk]
  · rw [h.noted k]
    dsimp only
    by_cases hkk : k=key
    · subst hkk
      have hhead : k∈k::keys ∧ st.keyLenMap.contains k=false := ⟨List.mem_cons_self,hk⟩
      rw [UMap.find?_set_self,UMap.getD_set,if_pos rfl,if_pos hhead]
      split
      · rw [USet.insert_of_mem (USet.mem_insert.mpr (Or.inl rfl))]
      · rfl
    · rw [UMap.getD_set,if_neg hkk,UMap.find?_set_of_ne _ hkk]
      simp only [List.mem_cons,hkk,false_or]
  · rw [hnew,List.append_assoc]
  · refine List.forall_mem_append.mpr ⟨fun e he => ?_,hsent⟩
    obtain ⟨ioThread,rfl⟩ := hfirst e he
    exact ⟨ioThread,key,rfl⟩
  · rw [fetched_append,hfetch]
    refine List.nodup_append.mpr ⟨by split <;> simp,hnodup,?_⟩
    intro x hx y hy hxy
    subst hxy
    split at hx
    · cases hx
    · rw [List.mem_singleton.mp hx,hmem] at hy
      simp [UMap.contains_set] at hy
  · rw [fetched_append,hfetch,List.mem_append,hmem,List.mem_cons]
    dsimp only
    rw [UMap.contains_set]
    by_cases hkk : k=key
    · subst hkk
      cases hc : st.keyCallIdMap.contains k <;> simp [hk]
    · have hne : k∉(if st.keyCallIdMap.contains key=true then [] else [key]) := by
        split <;> simp [hkk]
      simp [hkk,hne]

theorem fetchKeys_spec (cfg : SchedulerConfig) (callId : UInt32) (keys : List Str)
    (args : InflightFuncArgs) (st : SchedState) :
    Fetches st callId keys args (fetchKeys cfg callId keys args st) := by
  induction keys generalizing args st with
  | nil =>
    refine ⟨by simp [fetchKeys],by simp [fetchKeys],by simp [fetchKeys],rfl,[],by simp [fetchKeys],
      by simp,List.nodup_nil,by simp [fetched]⟩
  | cons key keys ih =>
    rw [fetchKeys]
    dsimp only
    by_cases hk : st.keyLenMap.contains key=true
    · rw [if_pos hk]
      exact Fetches.cons_known hk (ih _ st)
    · rw [if_neg hk]
      obtain ⟨id,first,hfirst,hfetch,hst⟩ := note_eq cfg st key callId
      dsimp only at hst
      rw [hst]
      exact Fetches.cons_missing (Bool.eq_false_iff.mpr hk) hfirst hfetch (ih _ _)

section Admit

variable (cfg : SchedulerConfig) (appName : Str) (sessionId : Session) {st : SchedState}
  {req : FunctionRequest}

/-- The entry of a request with key arguments before its keys are looked up. -/
def requestEntry (sessionId : Session) (req : FunctionRequest) : InflightFuncArgs :=
  ⟨req.name,sessionId,[],∅,(requestArgs req).2⟩

/-- The entry of a request whose keys are all local. -/
def localEntry (sessionId : Session) (req : FunctionRequest) : InflightFuncArgs :=
  ⟨req.name,sessionId,(requestArgs req).1,∅,(requestArgs req).2⟩

/-- The call of such a request. -/
def localCall (lens : UMap Str UInt32) (appName : Str) (sessionId : Session) (req : FunctionRequest) :
    Invocation :=
  ⟨sessionId,appName,req.name,keyedArgs lens (requestArgs req).1,(requestArgs req).2⟩

theorem admitRequest_values (h : ¬(requestArgs req).2>0) :
    admitRequest cfg appName sessionId st req=scheduleFuncCall cfg (.request st.callId) st
      ⟨sessionId,appName,req.name,(requestArgs req).1,0⟩ := by
  rw [admitRequest]
  dsimp only
  rw [if_neg h]

theorem admitRequest_local (h : (requestArgs req).2>0)
    (hk : ∀ k∈(requestArgs req).1,st.keyLenMap.contains k=true) :
    admitRequest cfg appName sessionId st req=scheduleFuncCall cfg (.request st.callId)
      (st.log (.requested st.callId (localEntry sessionId req)))
      (localCall st.keyLenMap appName sessionId req) := by
  have hfetch := fetchKeys_known cfg st.callId hk (requestEntry sessionId req)
  rw [admitRequest]
  dsimp only
  rw [if_pos h]
  simp only [requestEntry] at hfetch ⊢
  rw [hfetch]
  have hempty : (∅ : USet Str).elems=[] := rfl
  dsimp only
  rw [if_pos hempty]
  have hsized := sizedArgs_known (st.log (.requested st.callId
    ⟨req.name,sessionId,[]++(requestArgs req).1,∅,(requestArgs req).2⟩)) hk
  rw [List.nil_append] at hsized ⊢
  rw [hsized]
  rfl

theorem admitRequest_missing (h : (requestArgs req).2>0)
    (hk : ∃ k∈(requestArgs req).1,st.keyLenMap.contains k=false) :
    ∃ r,Fetches st st.callId (requestArgs req).1 (requestEntry sessionId req) r ∧
      admitRequest cfg appName sessionId st req=.ok {r.2.log (.requested st.callId r.1) with
        callIdInflightArgsMap := r.2.callIdInflightArgsMap.set st.callId r.1} := by
  have hspec := fetchKeys_spec cfg st.callId (requestArgs req).1 (requestEntry sessionId req) st
  refine ⟨_,hspec,?_⟩
  obtain ⟨k,hm,hc⟩ := hk
  have hin := (hspec.missing k).mpr (Or.inr ⟨hm,hc⟩)
  have hne : (fetchKeys cfg st.callId (requestArgs req).1 (requestEntry sessionId req)
      st).1.inflightArgs.elems≠[] := List.ne_nil_of_mem hin
  have hcid := congrArg SchedState.callId hspec.rest
  rw [admitRequest]
  dsimp only
  rw [if_pos h]
  simp only [requestEntry] at hne hcid ⊢
  rw [if_neg hne]
  simp only [SchedState.log,hcid]

end Admit

end Pheromone.RequestAdmission
