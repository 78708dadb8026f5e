import Pheromone.InflightRequests

/-!
# Every request is scheduled once

In every reachable state each request with key arguments waits or has been
scheduled exactly once.
-/

namespace Pheromone.RequestRuns

open UnorderedContainers GuardedRuns FaultingRuns CommonNames OperationMessages
open SchedulerState SchedulerLoop SchedulerFrames RequestAdmission InflightRequests

variable {st st' : SchedState} {cfg : SchedulerConfig}

/-- What the data of a key does for the requests of a list. -/
structure Delivered (key : Str) (todo : List UInt32) (st st' : SchedState) : Prop where
  issued : st'.issued=st.issued
  keyCallIdMap : st'.keyCallIdMap=st.keyCallIdMap
  keyLenMap : ∀ k v,st.keyLenMap.find? k=some v → st'.keyLenMap.find? k=some v
  admitted : admitted st'.trace=admitted st.trace
  fetched : fetched st'.trace=fetched st.trace
  /-- Other requests are left alone. -/
  other : ∀ c,c∉todo → st'.callIdInflightArgsMap.find? c=st.callIdInflightArgsMap.find? c ∧
    starts c st'.trace=starts c st.trace
  /-- A request of the list that lacks only this key is scheduled. -/
  done : ∀ c w,c∈todo → st.callIdInflightArgsMap.find? c=some w → (∀ k∈w.inflightArgs,k=key) →
    st'.callIdInflightArgsMap.find? c=none ∧
    ∃ appName,starts c st'.trace=starts c st.trace++[servedCall st'.keyLenMap appName w]
  /-- Any other one of the list waits on. -/
  more : ∀ c w,c∈todo → st.callIdInflightArgsMap.find? c=some w → ¬(∀ k∈w.inflightArgs,k=key) →
    st'.callIdInflightArgsMap.find? c=some {w with inflightArgs := w.inflightArgs.erase key} ∧
    starts c st'.trace=starts c st.trace

theorem Delivered.nil (key : Str) (st : SchedState) : Delivered key [] st st :=
  ⟨rfl,rfl,fun _ _ h => h,rfl,rfl,fun _ _ => ⟨rfl,rfl⟩,
    fun _ _ h => absurd h List.not_mem_nil,fun _ _ h => absurd h List.not_mem_nil⟩

variable {key : Str} {cid : UInt32} {todo : List UInt32} {u : SchedState}

theorem Delivered.cons {w : InflightFuncArgs} (hcid : cid∉todo)
    (hw : st.callIdInflightArgsMap.find? cid=some w)
    (hknown : (∀ k∈w.inflightArgs,k=key) → ∀ k∈w.keyArgs,st.keyLenMap.contains k=true)
    (hs : Serves key cid w st u) (hd : Delivered key todo u st') :
    Delivered key (cid::todo) st st' := by
  obtain ⟨hadm,hfetch,hstarts⟩ := hs.trace
  have hkept : ∀ k v,st.keyLenMap.find? k=some v → st'.keyLenMap.find? k=some v :=
    fun k v hk => hd.keyLenMap k v (hs.keyLenMap k v hk)
  obtain ⟨hfind,hrest⟩ := hd.other cid hcid
  refine ⟨hd.issued.trans hs.issued,hd.keyCallIdMap.trans hs.keyCallIdMap,hkept,
    hd.admitted.trans hadm,hd.fetched.trans hfetch,fun c hc => ?_,fun c v hc hv hlast => ?_,
    fun c v hc hv hmore => ?_⟩
  · rw [List.mem_cons,not_or] at hc
    obtain ⟨h1,h2⟩ := hd.other c hc.2
    exact ⟨h1.trans (hs.find_other hc.1),h2.trans (hstarts c hc.1)⟩
  · by_cases hcc : c=cid
    · subst hcc
      have hvw : v=w := Option.some.inj (hv.symm.trans hw)
      subst hvw
      obtain ⟨appName,hst⟩ := hs.starts_done hlast
      refine ⟨by rw [hfind,(hs.done hlast).1,if_pos rfl],appName,?_⟩
      rw [hrest,hst,servedCall_kept (hknown hlast) hkept]
    · have hu : u.callIdInflightArgsMap.find? c=some v := by rw [hs.find_other hcc]; exact hv
      obtain ⟨h1,appName,h2⟩ := hd.done c v ((List.mem_cons.mp hc).resolve_left hcc) hu hlast
      exact ⟨h1,appName,by rw [h2,hstarts c hcc]⟩
  · by_cases hcc : c=cid
    · subst hcc
      have hvw : v=w := Option.some.inj (hv.symm.trans hw)
      subst hvw
      refine ⟨by rw [hfind,(hs.more hmore).1,if_pos rfl],?_⟩
      rw [hrest,(hs.more hmore).2]
    · have hu : u.callIdInflightArgsMap.find? c=some v := by rw [hs.find_other hcc]; exact hv
      obtain ⟨h1,h2⟩ := hd.more c v ((List.mem_cons.mp hc).resolve_left hcc) hu hmore
      exact ⟨h1,by rw [h2,hstarts c hcc]⟩

variable {base : Str → UInt32 → Prop}

/-- What is lacked once the first request of the list is served. -/
theorem lacking_rest (hcid : cid∉todo) (k : Str) (c : UInt32) :
    (if k=key then c∈todo else base k c) ↔
      (if k=key then c∈cid::todo else base k c) ∧ ¬(k=key ∧ c=cid) := by
  by_cases hk : k=key
  · rw [if_pos hk,if_pos hk,List.mem_cons]
    constructor
    · exact fun hc => ⟨Or.inr hc,fun he => hcid (he.2 ▸ hc)⟩
    · exact fun hc => hc.1.resolve_left fun he => hc.2 ⟨hk,he⟩
  · rw [if_neg hk,if_neg hk]
    exact ⟨fun hb => ⟨hb,fun he => hk he.1⟩,And.left⟩

theorem arriveKeys_delivered (hn : todo.Nodup)
    (h : Waiting (fun k c => if k=key then c∈todo else base k c) st)
    (hkey : st.keyLenMap.contains key=true) (hr : todo.foldlM (arriveKey cfg key) st=.ok st') :
    Waiting (fun k c => k≠key ∧ base k c) st' ∧ Delivered key todo st st' := by
  induction todo generalizing st with
  | nil =>
    cases hr
    refine ⟨h.congr fun k c => ?_,Delivered.nil key _⟩
    by_cases hk : k=key
    · simp [hk]
    · simp [hk]
  | cons cid todo ih =>
    rw [List.foldlM_cons] at hr
    obtain ⟨u,hu,hv⟩ := bind_eq_ok hr
    obtain ⟨hcid,hn'⟩ := List.nodup_cons.mp hn
    obtain ⟨w,hw,hkw⟩ := (h.lacks key cid).mp (by rw [if_pos rfl]; exact List.mem_cons_self)
    have hknown : (∀ k∈w.inflightArgs,k=key) → ∀ k∈w.keyArgs,st.keyLenMap.contains k=true := by
      intro hlast k hk
      rcases h.known cid w hw k hk with hm|hm
      · rw [hlast k hm]
        exact hkey
      · exact hm
    have hs := arriveKey_serves hw hknown hu
    have hserved := (hs.waiting h hw hkey).congr (lacking_rest hcid)
    obtain ⟨hend,hd⟩ := ih hn' hserved (hs.contains hkey) hv
    exact ⟨hend,hd.cons hcid hw hknown hs⟩

/-- What the arrival of a key does. -/
structure Arrives (key : Str) (size : UInt32) (st st' : SchedState) : Prop where
  issued : st'.issued=st.issued
  admitted : admitted st'.trace=admitted st.trace
  fetched : fetched st'.trace=fetched st.trace
  /-- Requests that do not wait are left alone. -/
  idle : ∀ c,st.callIdInflightArgsMap.find? c=none → st'.callIdInflightArgsMap.find? c=none ∧
    starts c st'.trace=starts c st.trace
  /-- A request that lacks only this key is scheduled, with its keys in order
  and the current length of each. -/
  done : ∀ c w,st.callIdInflightArgsMap.find? c=some w → (∀ k∈w.inflightArgs,k=key) →
    st'.callIdInflightArgsMap.find? c=none ∧
    ∃ appName,starts c st'.trace=[servedCall (st.keyLenMap.set key size) appName w]
  /-- Any other request waits on. -/
  more : ∀ c w,st.callIdInflightArgsMap.find? c=some w → ¬(∀ k∈w.inflightArgs,k=key) →
    st'.callIdInflightArgsMap.find? c=some {w with inflightArgs := w.inflightArgs.erase key} ∧
    starts c st'.trace=[]

variable {size : UInt32}

/-- Delivery to the requests stored under a key is the arrival of the key. -/
theorem Delivered.arrives (h : Inflight st) (hp : Passes Unrequested st u)
    (hissued : u.issued=st.issued)
    (hlen : ∀ k v,(st.keyLenMap.set key size).find? k=some v → u.keyLenMap.find? k=some v)
    (hd : Delivered key (u.keyCallIdMap.getD key ∅).elems u st') : Arrives key size st st' := by
  obtain ⟨new,hnew,hun⟩ := hp.trace
  have hquiet : ∀ e∈new,Quiet e := fun e he => quiet_of_unrequested e (hun e he)
  have hstarts : ∀ c,starts c u.trace=starts c st.trace := by
    intro c
    rw [hnew,starts_append,starts_of_quiet hquiet,List.append_nil]
  have hmap := hp.callIdInflightArgsMap
  have hstored : ∀ c,c∈(u.keyCallIdMap.getD key ∅).elems ↔
      ∃ w,st.callIdInflightArgsMap.find? c=some w ∧ key∈w.inflightArgs := by
    intro c
    rw [hp.keyCallIdMap]
    exact h.waiting.lacks key c
  refine ⟨?_,?_,?_,fun c hc => ?_,fun c w hw hlast => ?_,fun c w hw hmore => ?_⟩
  · exact hd.issued.trans hissued
  · rw [hd.admitted,hnew,admitted_append,admitted_of_quiet hquiet,List.append_nil]
  · rw [hd.fetched,hnew,fetched_append,fetched_of_unrequested hun,List.append_nil]
  · have hnot : c∉(u.keyCallIdMap.getD key ∅).elems := by
      rw [hstored]
      rintro ⟨w,hw,-⟩
      rw [hc] at hw
      cases hw
    obtain ⟨h1,h2⟩ := hd.other c hnot
    rw [h1,h2,hmap,hstarts]
    exact ⟨hc,rfl⟩
  · have hkey : key∈w.inflightArgs := by
      obtain ⟨k,hk⟩ := List.exists_mem_of_ne_nil _ (h.waiting.lacking c w hw)
      exact hlast k hk ▸ hk
    obtain ⟨h1,appName,h2⟩ := hd.done c w ((hstored c).mpr ⟨w,hw,hkey⟩) (hmap ▸ hw) hlast
    have hknown := h.waiting.known_last hw hlast size
    have hkept : ∀ k v,(st.keyLenMap.set key size).find? k=some v → st'.keyLenMap.find? k=some v :=
      fun k v hv => hd.keyLenMap k v (hlen k v hv)
    refine ⟨h1,appName,?_⟩
    rw [h2,hstarts,h.waiting.idle hw,List.nil_append,servedCall_kept hknown hkept]
  · by_cases hkey : key∈w.inflightArgs
    · obtain ⟨h1,h2⟩ := hd.more c w ((hstored c).mpr ⟨w,hw,hkey⟩) (hmap ▸ hw) hmore
      rw [h1,h2,hstarts]
      exact ⟨rfl,h.waiting.idle hw⟩
    · have hnot : c∉(u.keyCallIdMap.getD key ∅).elems := by
        rw [hstored]
        rintro ⟨v,hv,hk⟩
        exact hkey (Option.some.inj (hv.symm.trans hw) ▸ hk)
      obtain ⟨h1,h2⟩ := hd.other c hnot
      rw [h1,h2,hmap,hstarts,USet.erase_of_not_mem hkey]
      exact ⟨hw,h.waiting.idle hw⟩

/-- The key is no longer awaited. -/
theorem inflight_delivered {cids : USet UInt32} (h : Inflight st)
    (hcids : st.keyCallIdMap.find? key=some cids) (hkey : st.keyLenMap.contains key=true)
    (hr : cids.elems.foldlM (arriveKey cfg key) st=.ok st') :
    Delivered key cids.elems st st' ∧
      Inflight {st' with keyCallIdMap := st'.keyCallIdMap.erase key} := by
  have hget : st.keyCallIdMap.getD key ∅=cids := by
    rw [UMap.getD,hcids]
    rfl
  have hsplit : ∀ k c,(if k=key then c∈cids.elems else c∈st.keyCallIdMap.getD k ∅) ↔
      c∈st.keyCallIdMap.getD k ∅ := by
    intro k c
    by_cases hk : k=key
    · rw [if_pos hk,hk,hget]
      rfl
    · rw [if_neg hk]
  obtain ⟨hwait,hd⟩ := arriveKeys_delivered cids.nodup (h.waiting.congr hsplit) hkey hr
  have herased : ∀ k c,c∈(st'.keyCallIdMap.erase key).getD k ∅ ↔
      k≠key ∧ c∈st.keyCallIdMap.getD k ∅ := by
    intro k c
    rw [UMap.getD_erase,hd.keyCallIdMap]
    by_cases hk : k=key
    · simp [hk]
    · simp [hk]
  have hend := hwait.congr herased
  refine ⟨hd,⟨hend.counter,hend.lacks,hend.lacking,hend.known,hend.stored,hend.numbered,
    hend.started,hend.distinct,hend.once⟩,fun k c hk => ?_⟩
  have hfind : (st'.keyCallIdMap.erase key).find? k=some c := hk
  rw [UMap.find?_erase,hd.keyCallIdMap] at hfind
  by_cases hkk : k=key
  · rw [if_pos hkk] at hfind
    cases hfind
  · rw [if_neg hkk] at hfind
    exact h.awaited k c hfind

theorem recvData_arrives (h : Inflight st) (hr : recvData cfg st key size=.ok st') :
    Inflight st' ∧ Arrives key size st st' := by
  obtain ⟨u,hu,hrest⟩ := bind_eq_ok hr
  have hm := (leads_answerWaiting unrequested_of_sent _ key _).ok hu
  have hp : Passes Unrequested st u := (passes_setKeyLen st key size).trans hm.passes
  have hinf : Inflight u := h.passes (hp.mono quiet_of_unrequested)
  have hlen : ∀ k v,(st.keyLenMap.set key size).find? k=some v → u.keyLenMap.find? k=some v :=
    hm.keyLenMap
  have hkey : u.keyLenMap.contains key=true :=
    UMap.contains_eq_true_iff.mpr ⟨size,hlen key size (UMap.find?_set_self _ _ _)⟩
  have harrive : ∀ v,Delivered key (u.keyCallIdMap.getD key ∅).elems u v → Arrives key size st v :=
    fun v hd => hd.arrives h hp hm.issued hlen
  cases hf : u.keyCallIdMap.find? key with
  | none =>
    rw [hf] at hrest
    have hst := Except.ok.inj hrest
    subst hst
    have hnil : (u.keyCallIdMap.getD key ∅).elems=[] := by
      rw [UMap.getD,hf]
      rfl
    refine ⟨hinf,harrive _ ?_⟩
    rw [hnil]
    exact Delivered.nil key _
  | some cids =>
    rw [hf] at hrest
    obtain ⟨v,hv,hend⟩ := bind_eq_ok hrest
    cases hend
    obtain ⟨hd,hinf'⟩ := inflight_delivered hinf hf hkey hv
    have hget : (u.keyCallIdMap.getD key ∅).elems=cids.elems := by
      rw [UMap.getD,hf]
      rfl
    have ha := harrive v (hget ▸ hd)
    exact ⟨hinf',⟨ha.issued,ha.admitted,ha.fetched,ha.idle,ha.done,ha.more⟩⟩

/-- The key of a data response. -/
def dataKey (msg : Str) : Str := (msg.drop 1).take (msg.headD 0).toNat

/-- The length of its data. -/
def dataSize (msg : Str) : UInt32 := UInt32.ofNat (msg.drop ((msg.headD 0).toNat+1)).length

variable {msg : Str}

theorem recvDataMessage_ok (hr : recvDataMessage cfg st msg=.ok st') :
    ∃ data,recvData cfg (copyToShmObj st (dataKey msg) data) (dataKey msg) (dataSize msg)=.ok st' := by
  cases msg with
  | nil => cases hr
  | cons b rest =>
    obtain ⟨keyLen,hlen,hrest⟩ := bind_eq_ok hr
    cases hlen
    split at hrest
    · exact ⟨_,hrest⟩
    · cases hrest

theorem recvDataMessage_arrives (h : Inflight st) (hr : recvDataMessage cfg st msg=.ok st') :
    Inflight st' ∧ Arrives (dataKey msg) (dataSize msg) st st' := by
  obtain ⟨data,hdata⟩ := recvDataMessage_ok hr
  have hshm : Passes Quiet st (copyToShmObj st (dataKey msg) data) :=
    passes_of_eq rfl
  obtain ⟨hinf,ha⟩ := recvData_arrives (h.passes hshm) hdata
  exact ⟨hinf,⟨ha.issued,ha.admitted,ha.fetched,ha.idle,ha.done,ha.more⟩⟩

theorem arriveKey_issued (h : arriveKey cfg key st cid=.ok st') : st'.issued=st.issued := by
  unfold arriveKey at h
  dsimp only at h
  split at h
  · obtain ⟨u,hu,hv⟩ := bind_eq_ok h
    cases hv
    exact (scheduleFuncCall_ok hu).issued.trans (sends_sizedArgs (P:=Unrequested) _ _).issued
  · cases h
    rfl

theorem arriveKeys_issued (h : todo.foldlM (arriveKey cfg key) st=.ok st') :
    st'.issued=st.issued := by
  induction todo generalizing st with
  | nil =>
    cases h
    rfl
  | cons cid todo ih =>
    rw [List.foldlM_cons] at h
    obtain ⟨u,hu,hv⟩ := bind_eq_ok h
    exact (ih hv).trans (arriveKey_issued hu)

/-- A data response uses no number. -/
theorem recvDataMessage_issued (hr : recvDataMessage cfg st msg=.ok st') :
    st'.issued=st.issued := by
  obtain ⟨data,hdata⟩ := recvDataMessage_ok hr
  obtain ⟨u,hu,hrest⟩ := bind_eq_ok hdata
  have hm := (leads_answerWaiting (P:=Unrequested) unrequested_of_sent _ _ _).ok hu
  split at hrest
  · cases hrest
    exact hm.issued
  · obtain ⟨v,hv,hend⟩ := bind_eq_ok hrest
    cases hend
    exact (arriveKeys_issued hv).trans hm.issued

variable {l : SchedLabel}

theorem outcome_of_step (h : step cfg st l=some st') : outcome cfg st l=.ok st' := by
  unfold step at h
  cases ho : outcome cfg st l with
  | ok u =>
    rw [ho] at h
    exact congrArg Except.ok (Option.some.inj h)
  | error u =>
    rw [ho] at h
    cases h

/-- Numbers are only used up, and while they last the invariant is kept. -/
theorem inflight_step (hs : step cfg st l=some st') :
    st.issued≤ st'.issued ∧ (Inflight st → st'.issued<2^32 → Inflight st') := by
  have ho := outcome_of_step hs
  by_cases hcall : ∃ msg,l=.call msg
  · obtain ⟨msg,rfl⟩ := hcall
    have hopen := passes_openCall msg st
    obtain ⟨hle,hkeep⟩ := inflight_requests ho
    exact ⟨hopen.issued.trans hle,fun h hw => hkeep (h.passes hopen) hw⟩
  · by_cases hdata : ∃ msg,l=.data msg
    · obtain ⟨msg,rfl⟩ := hdata
      exact ⟨(recvDataMessage_issued ho).ge,fun h _ => (recvDataMessage_arrives h ho).1⟩
    · have hp := (leads_outcome_other quiet_of_unrequested st (fun _ _ _ => trivial)
        (not_exists.mp hcall) (not_exists.mp hdata)).ok ho
      exact ⟨hp.issued,fun h _ => h.passes hp⟩

/-- The invariant in every state reached before the counter wraps. -/
theorem inflight_run {seed : UInt32} {l : List SchedLabel}
    (hr : run (step cfg) (SchedState.start cfg seed) l=some st) (hw : st.issued<2^32) : Inflight st := by
  have hstep : ∀ s a s',(s.issued<2^32 → Inflight s) → step cfg s a=some s' →
      (s'.issued<2^32 → Inflight s') := by
    intro s a s' hs ha hw
    obtain ⟨hle,hkeep⟩ := inflight_step ha
    exact hkeep (hs (hle.trans_lt hw)) hw
  exact run_invariant hstep (fun _ => inflight_start cfg seed) hr hw

/-- A request with key arguments arrives and is entered as w. -/
structure Admits (appName : Str) (sessionId : Session) (req : FunctionRequest) (w : InflightFuncArgs)
    (st st' : SchedState) : Prop where
  /-- The entry holds all keys in order. -/
  entry : w={localEntry sessionId req with inflightArgs := w.inflightArgs}
  /-- The entry holds the keys that are missing. -/
  missing : ∀ k,k∈w.inflightArgs ↔ k∈(requestArgs req).1 ∧ st.keyLenMap.contains k=false
  /-- The arrival is recorded under the next number. -/
  admitted : admitted st'.trace=admitted st.trace++[(st.callId,w)]
  /-- Other requests are left alone. -/
  others : ∀ c,c≠st.callId → st'.callIdInflightArgsMap.find? c=st.callIdInflightArgsMap.find? c ∧
    starts c st'.trace=starts c st.trace
  /-- Without missing keys it is scheduled, with its keys in order and the
  current length of each. -/
  atOnce : (∀ k∈(requestArgs req).1,st.keyLenMap.contains k=true) →
    st'.callIdInflightArgsMap.find? st.callId=none ∧
    starts st.callId st'.trace=[localCall st.keyLenMap appName sessionId req]
  later : ¬(∀ k∈(requestArgs req).1,st.keyLenMap.contains k=true) →
    st'.callIdInflightArgsMap.find? st.callId=some w ∧ starts st.callId st'.trace=[]
  /-- Data is requested, once, for the missing keys that no request waits for. -/
  fetched : ∃ keys,fetched st'.trace=fetched st.trace++keys ∧ keys.Nodup ∧
    ∀ k,k∈keys ↔ k∈w.inflightArgs ∧
      ∀ c v,st.callIdInflightArgsMap.find? c=some v → k∉v.inflightArgs

section Requests

variable {appName : Str} {sessionId : Session} {req : FunctionRequest}

theorem admits_local (h : Inflight st) (hw : st.issued<2^32) (hflag : (requestArgs req).2>0)
    (hk : ∀ k∈(requestArgs req).1,st.keyLenMap.contains k=true)
    (hr : recvRequest cfg appName sessionId st req=.ok st') :
    Admits appName sessionId req (localEntry sessionId req) st st' := by
  obtain ⟨hs,rest,ht,hrest⟩ := recvRequest_local hflag hk hr
  have hquiet : ∀ e∈rest,Quiet e := fun e he => quiet_of_unrequested e (hrest e he)
  have hnone : ∀ k,¬k∈(localEntry sessionId req).inflightArgs := USet.not_mem_empty
  refine ⟨rfl,fun k => ⟨fun hm => absurd hm (hnone k),?_⟩,?_,fun c hc => ⟨?_,?_⟩,fun _ => ⟨?_,?_⟩,
    fun hn => absurd hk hn,[],?_,List.nodup_nil,fun k => ⟨fun hm => absurd hm List.not_mem_nil,?_⟩⟩
  · rintro ⟨hm,hc⟩
    rw [hk k hm] at hc
    cases hc
  · rw [ht,admitted_append,admitted_requested,admitted_scheduled,admitted_of_quiet hquiet]
  · rw [hs.callIdInflightArgsMap]
  · rw [hs.starts_eq,if_neg hc,List.append_nil]
  · rw [hs.callIdInflightArgsMap]
    exact h.waiting.not_waiting hw
  · rw [hs.starts_eq,if_pos rfl,h.waiting.not_started hw,List.nil_append]
  · rw [ht,fetched_append,fetched_requested,fetched_scheduled,fetched_of_unrequested hrest]
  · exact fun hm => absurd hm.1 (hnone k)

theorem admits_missing (h : Inflight st) (hw : st.issued<2^32) (hflag : (requestArgs req).2>0)
    (hk : ∃ k∈(requestArgs req).1,st.keyLenMap.contains k=false)
    (hr : recvRequest cfg appName sessionId st req=.ok st') :
    ∃ w,Admits appName sessionId req w st st' := by
  obtain ⟨w,hs⟩ := recvRequest_missing hflag hk hr
  obtain ⟨k,hm,hc⟩ := hk
  have hnot : ¬∀ k∈(requestArgs req).1,st.keyLenMap.contains k=true := by
    intro hall
    rw [hall k hm] at hc
    cases hc
  obtain ⟨new,ht,hsent,hnodup,hmem⟩ := hs.trace
  have hquiet : ∀ e∈new,Quiet e := by
    intro e he
    obtain ⟨ioThread,key,rfl⟩ := hsent e he
    trivial
  have hstarts : ∀ c,starts c st'.trace=starts c st.trace := by
    intro c
    rw [ht,starts_append,starts_append,starts_of_quiet hquiet,List.append_nil]
    exact List.append_nil _
  refine ⟨w,hs.entry,hs.missing,?_,fun c hc => ⟨?_,hstarts c⟩,fun hall => absurd hall hnot,
    fun _ => ⟨?_,?_⟩,fetched new,?_,hnodup,fun k => ?_⟩
  · rw [ht,admitted_append,admitted_append,admitted_of_quiet hquiet,List.append_nil]
    rfl
  · rw [hs.callIdInflightArgsMap,UMap.find?_set_of_ne _ hc]
  · rw [hs.callIdInflightArgsMap,UMap.find?_set_self]
  · rw [hstarts,h.waiting.not_started hw]
  · rw [ht,fetched_append,fetched_append]
    exact List.append_nil _
  · rw [hmem,h.unawaited_iff]

theorem admits_recvRequest (h : Inflight st) (hw : st.issued<2^32) (hflag : (requestArgs req).2>0)
    (hr : recvRequest cfg appName sessionId st req=.ok st') :
    ∃ w,Admits appName sessionId req w st st' := by
  by_cases hlocal : ∀ k∈(requestArgs req).1,st.keyLenMap.contains k=true
  · exact ⟨_,admits_local h hw hflag hlocal hr⟩
  · push Not at hlocal
    obtain ⟨k,hm,hc⟩ := hlocal
    exact admits_missing h hw hflag ⟨k,hm,Bool.eq_false_iff.mpr hc⟩ hr

end Requests

/-- An executor's request for an object. -/
def asksForObject : SchedLabel → Prop
  | .executor msg => (msg++[nulChar])[1]?=some 1
  | _ => False

/-- Steps that concern no request. -/
structure LeavesRequests (l : SchedLabel) (st st' : SchedState) : Prop where
  callIdInflightArgsMap : st'.callIdInflightArgsMap=st.callIdInflightArgsMap
  keyCallIdMap : st'.keyCallIdMap=st.keyCallIdMap
  admitted : admitted st'.trace=admitted st.trace
  starts : ∀ c,starts c st'.trace=starts c st.trace
  /-- Only for an executor is data requested. -/
  fetched : ¬asksForObject l → fetched st'.trace=fetched st.trace

theorem leavesRequests_step (hcall : ∀ msg,l≠.call msg) (hdata : ∀ msg,l≠.data msg)
    (hs : step cfg st l=some st') : LeavesRequests l st st' := by
  have ho := outcome_of_step hs
  have hp : Passes Quiet st st' :=
    (leads_outcome_other quiet_of_unrequested st (fun _ _ _ => trivial) hcall hdata).ok ho
  obtain ⟨new,hnew,hquiet⟩ := hp.trace
  refine ⟨hp.callIdInflightArgsMap,hp.keyCallIdMap,?_,fun c => ?_,fun hask => ?_⟩
  · rw [hnew,admitted_append,admitted_of_quiet hquiet,List.append_nil]
  · rw [hnew,starts_append,starts_of_quiet hquiet,List.append_nil]
  · have hget : ¬∃ msg,l=.executor msg ∧ (msg++[nulChar])[1]?=some 1 := by
      rintro ⟨msg,rfl,hb⟩
      exact hask hb
    have hp' : Passes Unrequested st st' :=
      (leads_outcome_other (fun _ he => he) st (fun hg => absurd hg hget) hcall hdata).ok ho
    obtain ⟨new',hnew',hun⟩ := hp'.trace
    rw [hnew',fetched_append,fetched_of_unrequested hun,List.append_nil]

/-- Both tables say which request lacks which key, and every request with key
arguments waits, unscheduled, or has been scheduled exactly once. -/
structure ScheduledOnce (st : SchedState) : Prop where
  /-- A request is stored under exactly the keys it lacks. -/
  agree : ∀ k cid,cid∈st.keyCallIdMap.getD k ∅ ↔
    ∃ w,st.callIdInflightArgsMap.find? cid=some w ∧ k∈w.inflightArgs
  /-- No two requests have one number. -/
  distinct : ((admitted st.trace).map Prod.fst).Nodup
  /-- A waiting request has not been scheduled, any other one exactly once. -/
  once : ∀ e∈admitted st.trace,
    (st.callIdInflightArgsMap.contains e.1=true ∧ starts e.1 st.trace=[]) ∨
    (st.callIdInflightArgsMap.contains e.1=false ∧
      ∃ call,starts e.1 st.trace=[call] ∧ Matches e.2 call)

/-- What the requests of a next call do, each in the state its predecessors leave. -/
def CallRule (cfg : SchedulerConfig) (st : SchedState) : Prop :=
  ∀ (call : FunctionCall) (earlier later : List FunctionRequest) (req : FunctionRequest)
    (s s' : SchedState),call.requests=earlier++req::later →
    earlier.foldlM (recvRequest cfg call.appName call.sessionId) (openCall st call)=.ok s →
    s.issued<2^32 → (requestArgs req).2>0 →
    recvRequest cfg call.appName call.sessionId s req=.ok s' →
    ∃ w,Admits call.appName call.sessionId req w s s'

/-- What a next data response does. -/
def DataRule (cfg : SchedulerConfig) (st : SchedState) : Prop :=
  ∀ msg st',step cfg st (.data msg)=some st' → Arrives (dataKey msg) (dataSize msg) st st'

/-- What any other next step does. -/
def OtherRule (cfg : SchedulerConfig) (st : SchedState) : Prop :=
  ∀ l st',(∀ msg,l≠.call msg) → (∀ msg,l≠.data msg) → step cfg st l=some st' →
    LeavesRequests l st st'

/-- In every state reached before the counter wraps, every request with key
arguments waits for exactly the keys it is stored under, or has been
scheduled exactly once; and the next message schedules exactly the requests
that it completes, and requests data for no key that is awaited. -/
theorem requests_scheduled_once (cfg : SchedulerConfig) (seed : UInt32) (l : List SchedLabel)
    (st : SchedState) (hr : run (step cfg) (SchedState.start cfg seed) l=some st)
    (hw : st.issued<2^32) :
    ScheduledOnce st ∧ CallRule cfg st ∧ DataRule cfg st ∧ OtherRule cfg st := by
  have h := inflight_run hr hw
  refine ⟨⟨h.waiting.lacks,h.waiting.distinct,h.waiting.once⟩,?_,?_,?_⟩
  · intro call earlier later req s s' _ hearlier hs hflag hreq
    have hinf := (inflight_requests hearlier).2 (h.passes (passes_openCall call st)) hs
    exact admits_recvRequest hinf hs hflag hreq
  · intro msg st' hs
    exact (recvDataMessage_arrives h (outcome_of_step hs)).2
  · intro l st' hcall hdata hs
    exact leavesRequests_step hcall hdata hs

/-- The executor becomes available, a call names an object that is not local,
and the object arrives. -/
def lateObject : List SchedLabel :=
  [.executor [1,7],
    .call ⟨str "app",[⟨str "f",[⟨str "b|k_s",1,str "10.0.0.2"⟩]⟩],[],[],[],str "s",false⟩,
    .data (5::str "b|k_s"++str "abc")]

theorem requests_scheduled_once_lateObject :
    ∃ st,run (step sampleConfig) (SchedState.start sampleConfig 1) lateObject=some st ∧
      starts 0 st.trace=[⟨str "s",[],str "f",[str "b|k_s",str "3"],1⟩] ∧
      ScheduledOnce st ∧ CallRule sampleConfig st ∧ DataRule sampleConfig st ∧
      OtherRule sampleConfig st := by
  have hrun : ((run (step sampleConfig) (SchedState.start sampleConfig 1) lateObject).map fun st =>
      (st.issued,starts 0 st.trace))=some (1,[⟨str "s",[],str "f",[str "b|k_s",str "3"],1⟩]) := by
    decide +kernel
  obtain ⟨st,hst,hval⟩ := Option.map_eq_some_iff.mp hrun
  obtain ⟨hissued,hstarts⟩ := Prod.mk.inj hval
  exact ⟨st,hst,hstarts,requests_scheduled_once sampleConfig 1 lateObject st hst (by omega)⟩

end Pheromone.RequestRuns
