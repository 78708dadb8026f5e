import Pheromone.ReactiveMachines
import Pheromone.ObjectRequests

/-!
# The I/O threads of a worker

A worker's helper picks I/O threads in turn from one counter and passes the
main one over by restarting at one. Each binds a data server on a port of its
own, of which there are fifty.
-/

namespace Pheromone.IoThreads

open UnorderedContainers FaultingRuns ReactiveMachines DelimitedText CommonNames
open WorkerUpdates SchedulerState Scheduling ObjectRequests

variable (cfg : SchedulerConfig)

/-- The threads that are started beside the main one. -/
def secondaryThreads : List ℕ := List.range' 1 (cfg.ioThreadCount.toNat-1)

/-- The numbers of all I/O threads. -/
def ioThreads : List UInt32 := 0::(secondaryThreads cfg).map UInt32.ofNat

/-- Port for answers of coordinators. -/
def kRemoteResponsePort : UInt32 := 7500

/-- Port for answers to notifications. -/
def kNotifyPort : UInt32 := 7600

/-- Port for answers to queries. -/
def kQueryPort : UInt32 := 7650

/-- Port for updates of triggers. -/
def TriggerUpdatePort : UInt32 := 7700

/-- First port for calls. -/
def funcExecPort : UInt32 := 4300

/-- The ports that a thread binds beside that of its data server. -/
def otherPorts (tid : UInt32) : List UInt32 :=
  if tid=0 then [kQueryPort,kRemoteResponsePort,kNotifyPort,TriggerUpdatePort,
    tid+dataAccessClientPort,funcExecPort]
  else [funcExecPort+tid,tid+dataAccessClientPort]

/-- The address of a thread's data server. -/
def dataAccessServerConnectAddress (tid : UInt32) : Address :=
  str "tcp://"++cfg.ip++str ":"++decimal (tid+dataAccessServerPort).toNat

/-- An address has a listener: it is that of a thread's data server, whose
port no other socket of the worker has. -/
def Listening (address : Address) : Prop :=
  ∃ tid∈ioThreads cfg,address=dataAccessServerConnectAddress cfg tid ∧
    ∀ other∈ioThreads cfg,tid+dataAccessServerPort∉otherPorts other

/-- The main thread serves a request itself; any other one has a queue. -/
def HasQueue (tid : UInt32) : Prop := tid=0 ∨ tid.toNat-1<(secondaryThreads cfg).length

/-- The threads that an event relies on are there. -/
def Served : SchedEvent → Prop
  | .sent (.notify _ req) => ∀ a∈req.addresses,∀ ip∈a.ips,Listening cfg ip
  | .sent (.forward _ call) => ∀ req∈call.requests,∀ arg∈req.arguments,
      arg.dataAddress≠[] → Listening cfg arg.dataAddress
  | .sent (.dataReq tid _) => HasQueue cfg tid
  | .sent (.getKvs tid _) => HasQueue cfg tid
  | .sent (.putKvs tid _ _) => HasQueue cfg tid
  | _ => True

/-- The calls that pick a thread. -/
inductive HelperCall where
  | notifyPut (bk : BucketKey) (activeTriggers : List Str) (respAddress : Address) (payload : Str)
  | forwardFuncCall (respAddress : Address) (call : ForwardRequest)
  | sendDataReq (key : Str)
  | getKvsAsync (key : Str)
  | putKvsAsync (key value : Str)

/-- The state after a call. -/
def perform (st : SchedState) : HelperCall → SchedState
  | .notifyPut bk activeTriggers respAddress payload =>
    notifyPut cfg st bk activeTriggers respAddress payload
  | .forwardFuncCall respAddress call => endState id (forwardFuncCall cfg st respAddress call)
  | .sendDataReq key => sendDataReq cfg st key
  | .getKvsAsync key => getKvsAsync cfg st key
  | .putKvsAsync key value => putKvsAsync cfg st key value

/-- A call in a state of the scheduler with the helper's counter: the counter
after it and what it sends. -/
def helperStep (counter : UInt32) (call : SchedState×HelperCall) : UInt32×List SchedEvent :=
  let st := perform cfg {call.1 with ioThreadId := counter,trace := []} call.2
  (st.ioThreadId,st.trace)

/-- One pick of a thread. -/
def pick (st : SchedState) (excludeMainThread : Bool) : SchedState×UInt32 :=
  let r := getIoThreadId cfg st excludeMainThread
  (r.2,r.1)

/-- Every pick is a thread, other than the main one where that is passed over
and there is another one, and whatever is sent relies on threads that are
there. -/
structure ThreadsSound : Prop where
  /-- For every sequence of picks. -/
  picks : ∀ st : SchedState,st.ioThreadId=0 → ∀ flags : List Bool,∀ p∈trace (pick cfg) st flags,
    p.2<cfg.ioThreadCount ∧ (p.1=true → 1<cfg.ioThreadCount → 1≤p.2)
  /-- For every sequence of calls, in whatever states of the scheduler. -/
  sent : ∀ calls : List (SchedState×HelperCall),∀ events∈outputs (helperStep cfg) 0 calls,
    ∀ e∈events,Served cfg e

/-- The thread after a thread. -/
def nextThread (id : UInt32) (excludeMainThread : Bool) : UInt32 :=
  if (id+1)%cfg.ioThreadCount=0 then if excludeMainThread then 1 else 0 else id+1

variable {cfg}

theorem toNat_succ {id : UInt32} (h : id<cfg.ioThreadCount) : (id+1).toNat=id.toNat+1 := by
  have hlt : id.toNat<cfg.ioThreadCount.toNat := h
  have hbound := cfg.ioThreadCount.toNat_lt
  rw [UInt32.toNat_add]
  show (id.toNat+1)%2^32=id.toNat+1
  omega

/-- The counter wraps exactly at the number of threads. -/
theorem succ_mod_eq_zero_iff {id : UInt32} (h : id<cfg.ioThreadCount) :
    (id+1)%cfg.ioThreadCount=0 ↔ id.toNat+1=cfg.ioThreadCount.toNat := by
  have hlt : id.toNat<cfg.ioThreadCount.toNat := h
  rw [←UInt32.toNat_inj,UInt32.toNat_mod,toNat_succ h]
  show (id.toNat+1)%cfg.ioThreadCount.toNat=0 ↔ _
  constructor
  · intro hmod
    by_contra hne
    rw [Nat.mod_eq_of_lt (by omega)] at hmod
    omega
  · intro he
    rw [he,Nat.mod_self]

theorem zero_lt (hmany : 1<cfg.ioThreadCount) : 0<cfg.ioThreadCount :=
  UInt32.lt_trans (by decide : (0 : UInt32)<1) hmany

/-- With two threads or more, a pick is a thread. -/
theorem nextThread_lt (hmany : 1<cfg.ioThreadCount) {id : UInt32} (h : id<cfg.ioThreadCount)
    (excludeMainThread : Bool) : nextThread cfg id excludeMainThread<cfg.ioThreadCount ∧
      (excludeMainThread=true → 1≤nextThread cfg id excludeMainThread) := by
  have hlt : id.toNat<cfg.ioThreadCount.toNat := h
  unfold nextThread
  by_cases hwrap : (id+1)%cfg.ioThreadCount=0
  · rw [if_pos hwrap]
    cases excludeMainThread with
    | true => exact ⟨hmany,fun _ => UInt32.le_refl _⟩
    | false => exact ⟨zero_lt hmany,fun he => absurd he Bool.false_ne_true⟩
  · rw [if_neg hwrap]
    rw [succ_mod_eq_zero_iff h] at hwrap
    refine ⟨?_,fun _ => ?_⟩
    · rw [UInt32.lt_iff_toNat_lt,toNat_succ h]
      omega
    · rw [UInt32.le_iff_toNat_le,toNat_succ h]
      show 1≤ id.toNat+1
      omega

theorem picks_sound (hmany : 1<cfg.ioThreadCount) {st : SchedState} (hst : st.ioThreadId=0)
    (flags : List Bool) : ∀ p∈trace (pick cfg) st flags,
      p.2<cfg.ioThreadCount ∧ (p.1=true → 1≤p.2) := by
  have hrun := @trace_invariant _ _ _ (pick cfg) (fun st tr => st.ioThreadId<cfg.ioThreadCount ∧
    ∀ p∈tr,p.2<cfg.ioThreadCount ∧ (p.1=true → 1≤p.2)) (fun st tr flag h => ?_) st
    ⟨hst ▸ zero_lt hmany,fun _ hp => absurd hp List.not_mem_nil⟩ flags
  · exact hrun.2
  · have hnext := nextThread_lt hmany h.1 flag
    exact ⟨hnext.1,List.forall_mem_append.mpr ⟨h.2,List.forall_mem_singleton.mpr hnext⟩⟩

theorem mem_ioThreads {tid : UInt32} (hcount : 1≤ cfg.ioThreadCount) :
    tid∈ioThreads cfg ↔ tid<cfg.ioThreadCount := by
  have hpos : 1≤ cfg.ioThreadCount.toNat := hcount
  have hbound := cfg.ioThreadCount.toNat_lt
  rw [ioThreads,List.mem_cons,List.mem_map,UInt32.lt_iff_toNat_lt]
  simp only [secondaryThreads,List.mem_range'_1]
  constructor
  · rintro (rfl|⟨n,hn,rfl⟩)
    · exact hpos
    · rw [UInt32.toNat_ofNat_of_lt' (show n<2^32 by omega)]
      omega
  · intro hlt
    by_cases hzero : tid=0
    · exact Or.inl hzero
    · have hne : tid.toNat≠0 := fun he => hzero (UInt32.toNat_inj.mp he)
      exact Or.inr ⟨tid.toNat,by omega,UInt32.ofNat_toNat⟩

/-- The ports of up to fifty data servers are theirs alone. -/
theorem port_not_mem_otherPorts {tid other : UInt32} (htid : tid.toNat<50) (hother : other.toNat<50) :
    tid+dataAccessServerPort∉otherPorts other := by
  have hserver : (tid+dataAccessServerPort).toNat=tid.toNat+4400 := by
    rw [UInt32.toNat_add]
    show (tid.toNat+4400)%2^32=_
    omega
  have hclient : (other+dataAccessClientPort).toNat=other.toNat+4450 := by
    rw [UInt32.toNat_add]
    show (other.toNat+4450)%2^32=_
    omega
  have hexec : (funcExecPort+other).toNat=4300+other.toNat := by
    rw [UInt32.toNat_add]
    show (4300+other.toNat)%2^32=_
    omega
  have hne : ∀ port : UInt32,port.toNat≠tid.toNat+4400 → tid+dataAccessServerPort≠port := by
    intro port hport he
    rw [←he] at hport
    exact hport hserver
  intro hmem
  unfold otherPorts at hmem
  split at hmem
  · simp only [List.mem_cons,List.not_mem_nil,or_false] at hmem
    rcases hmem with he|he|he|he|he|he
    · exact hne kQueryPort (show 7650≠tid.toNat+4400 by omega) he
    · exact hne kRemoteResponsePort (show 7500≠tid.toNat+4400 by omega) he
    · exact hne kNotifyPort (show 7600≠tid.toNat+4400 by omega) he
    · exact hne TriggerUpdatePort (show 7700≠tid.toNat+4400 by omega) he
    · exact hne _ (by omega) he
    · exact hne funcExecPort (show 4300≠tid.toNat+4400 by omega) he
  · simp only [List.mem_cons,List.not_mem_nil,or_false] at hmem
    rcases hmem with he|he
    · exact hne _ (by omega) he
    · exact hne _ (by omega) he

/-- Two to fifty threads: every thread's data server listens and has its queue. -/
structure Enough (cfg : SchedulerConfig) : Prop where
  /-- More than the main thread. -/
  many : 1<cfg.ioThreadCount
  ports : cfg.ioThreadCount≤50

theorem Enough.listening (h : Enough cfg) {tid : UInt32} (htid : tid<cfg.ioThreadCount) :
    Listening cfg (dataAccessServerConnectAddress cfg tid) := by
  have hcount : 1≤ cfg.ioThreadCount := UInt32.le_of_lt h.many
  have hports : cfg.ioThreadCount.toNat≤50 := h.ports
  refine ⟨tid,(mem_ioThreads hcount).mpr htid,rfl,fun other hother => ?_⟩
  have hlt : tid.toNat<cfg.ioThreadCount.toNat := htid
  have hother' : other.toNat<cfg.ioThreadCount.toNat := (mem_ioThreads hcount).mp hother
  exact port_not_mem_otherPorts (by omega) (by omega)

theorem hasQueue_of_lt {tid : UInt32} (htid : tid<cfg.ioThreadCount) : HasQueue cfg tid := by
  have hlt : tid.toNat<cfg.ioThreadCount.toNat := htid
  by_cases hzero : tid=0
  · exact Or.inl hzero
  · have hne : tid.toNat≠0 := fun he => hzero (UInt32.toNat_inj.mp he)
    refine Or.inr ?_
    rw [secondaryThreads,List.length_range']
    omega

/-- Only the data server of a thread has its address. -/
theorem dataAccessServerConnectAddress_inj {tid other : UInt32}
    (h : dataAccessServerConnectAddress cfg tid=dataAccessServerConnectAddress cfg other) :
    tid=other := by
  have hport := decimal_inj.mp (List.append_cancel_left h)
  exact (UInt32.add_left_inj _).mp (UInt32.toNat_inj.mp hport)

/-- The counter is a thread and all events rely on threads that are there. -/
structure Held (cfg : SchedulerConfig) (st : SchedState) : Prop where
  /-- The last thread that was picked. -/
  counter : st.ioThreadId<cfg.ioThreadCount
  events : ∀ e∈st.trace,Served cfg e

section Calls

variable (h : Enough cfg) {st : SchedState}

include h

theorem Held.pick (hst : Held cfg st) (excludeMainThread : Bool) :
    Held cfg (getIoThreadId cfg st excludeMainThread).2 :=
  ⟨(nextThread_lt h.many hst.counter excludeMainThread).1,hst.events⟩

omit h in
theorem Held.emit (hst : Held cfg st) {out : SchedOut} (hout : Served cfg (.sent out)) :
    Held cfg (st.emit out) :=
  ⟨hst.counter,List.forall_mem_append.mpr ⟨hst.events,List.forall_mem_singleton.mpr hout⟩⟩

theorem Held.address (hst : Held cfg st) (excludeMainThread : Bool) :
    Listening cfg (getDataServerAddr cfg st excludeMainThread).1 ∧
      Held cfg (getDataServerAddr cfg st excludeMainThread).2 :=
  ⟨h.listening (nextThread_lt h.many hst.counter excludeMainThread).1,hst.pick h excludeMainThread⟩

theorem Held.ioThread (hst : Held cfg st) :
    HasQueue cfg (ioThread cfg st).1 ∧ Held cfg (ioThread cfg st).2 := by
  rw [SchedulerState.ioThread,if_pos h.many]
  exact ⟨hasQueue_of_lt (nextThread_lt h.many hst.counter true).1,hst.pick h true⟩

theorem Held.notifyPut (hst : Held cfg st) (bk : BucketKey) (activeTriggers : List Str)
    (respAddress : Address) (payload : Str) :
    Held cfg (notifyPut cfg st bk activeTriggers respAddress payload) := by
  unfold SchedulerState.notifyPut
  split
  · exact hst
  · obtain ⟨haddress,hheld⟩ := hst.address h true
    refine hheld.emit fun a ha ip hip => ?_
    rw [List.mem_singleton.mp ha] at hip
    rw [List.mem_singleton.mp hip]
    exact haddress

/-- The arguments by key get addresses of data servers. -/
theorem Held.keyedArguments (argFlag : ℤ) (ts : List (Str×Str×Str)) (hst : Held cfg st) :
    (∀ arg∈(keyedArguments cfg argFlag ts st).1,Listening cfg arg.dataAddress) ∧
      Held cfg (keyedArguments cfg argFlag ts st).2 := by
  induction ts generalizing st with
  | nil => exact ⟨fun _ harg => absurd harg List.not_mem_nil,hst⟩
  | cons t ts ih =>
    obtain ⟨haddress,hheld⟩ := hst.address h false
    obtain ⟨hrest,hend⟩ := ih hheld
    exact ⟨List.forall_mem_cons.mpr ⟨haddress,hrest⟩,hend⟩

theorem Held.forwardArguments (argFlag : ℤ) (args : List Str) (hst : Held cfg st) :
    Ends (Held cfg) Prod.snd (forwardArguments cfg argFlag args st) ∧
      ∀ r,forwardArguments cfg argFlag args st=.ok r →
        ∀ arg∈r.1,arg.dataAddress≠[] → Listening cfg arg.dataAddress := by
  unfold Scheduling.forwardArguments
  split
  · cases triples args with
    | none => exact ⟨hst,fun r hr => by cases hr⟩
    | some ts =>
      have hkeyed := hst.keyedArguments h argFlag ts
      refine ⟨hkeyed.2,fun r hr arg harg _ => ?_⟩
      cases hr
      exact hkeyed.1 arg harg
  · refine ⟨hst,fun r hr arg harg hne => ?_⟩
    cases hr
    obtain ⟨body,-,rfl⟩ := List.mem_map.mp harg
    exact absurd rfl hne

theorem Held.forwardRequests (argFlag : ℤ) (names : List Str) (argsVec : List (List Str))
    (hst : Held cfg st) : Ends (Held cfg) Prod.snd (forwardRequests cfg argFlag names argsVec st) ∧
      ∀ r,forwardRequests cfg argFlag names argsVec st=.ok r → ∀ req∈r.1,∀ arg∈req.arguments,
        arg.dataAddress≠[] → Listening cfg arg.dataAddress := by
  induction names generalizing argsVec st with
  | nil =>
    refine ⟨hst,fun r hr req hreq => ?_⟩
    cases hr
    exact absurd hreq List.not_mem_nil
  | cons name names ih =>
    cases argsVec with
    | nil => exact ⟨hst,fun r hr => by cases hr⟩
    | cons args argsVec =>
      obtain ⟨hends,hgood⟩ := hst.forwardArguments h argFlag args
      rw [Scheduling.forwardRequests]
      constructor
      · refine hends.bind fun head _ hhead => ?_
        exact (ih argsVec hhead).1.bind fun tail _ htail => htail
      · intro r hr
        obtain ⟨head,hhead,hr⟩ := bind_eq_ok hr
        obtain ⟨tail,htail,hr⟩ := bind_eq_ok hr
        cases hr
        rw [hhead] at hends
        exact List.forall_mem_cons.mpr ⟨hgood head hhead,(ih argsVec hends).2 tail htail⟩

theorem Held.forwardFuncCall (respAddress : Address) (call : ForwardRequest) (hst : Held cfg st) :
    Ends (Held cfg) id (forwardFuncCall cfg st respAddress call) := by
  obtain ⟨hends,hgood⟩ := hst.forwardRequests h call.argFlag call.funcNames call.funcArgsVec
  unfold Scheduling.forwardFuncCall
  refine hends.bind fun r hr hheld => ?_
  have htables : Held cfg {r.2 with
      tables := {r.2.tables with appCoordMap := r.2.tables.appCoordMap.touch call.appName ⟨[],0⟩}} :=
    ⟨hheld.counter,hheld.events⟩
  exact htables.emit (hgood r hr)

/-- Every call keeps the counter and the events as they should be. -/
theorem Held.perform (hst : Held cfg st) (call : HelperCall) : Held cfg (perform cfg st call) := by
  cases call with
  | notifyPut bk activeTriggers respAddress payload =>
    exact hst.notifyPut h bk activeTriggers respAddress payload
  | forwardFuncCall respAddress call => exact (hst.forwardFuncCall h respAddress call).endState
  | sendDataReq key => exact (hst.ioThread h).2.emit (hst.ioThread h).1
  | getKvsAsync key => exact (hst.ioThread h).2.emit (hst.ioThread h).1
  | putKvsAsync key value => exact (hst.ioThread h).2.emit (hst.ioThread h).1

theorem sent_served (calls : List (SchedState×HelperCall)) :
    ∀ events∈outputs (helperStep cfg) 0 calls,∀ e∈events,Served cfg e := by
  refine @forall_outputs _ _ _ (helperStep cfg) (fun counter => counter<cfg.ioThreadCount)
    (fun events => ∀ e∈events,Served cfg e) (fun counter call hcounter => ?_) 0
    (zero_lt h.many) calls
  have hheld : Held cfg {call.1 with ioThreadId := counter,trace := []} :=
    ⟨hcounter,fun _ he => absurd he List.not_mem_nil⟩
  have hafter := hheld.perform h call.2
  exact ⟨hafter.counter,hafter.events⟩

end Calls

/-- A call that announces an object. -/
def announcement (cfg : SchedulerConfig) : SchedState×HelperCall :=
  ({SchedState.start cfg 0 with
    tables := {WorkerTables.start with bucketCoordMap := UMap.set ∅ [] ⟨[],0⟩}},
    .notifyPut ⟨[],[],[]⟩ [] [] [])

theorem helperStep_announcement (counter : UInt32) : helperStep cfg counter (announcement cfg)=
    (nextThread cfg counter true,[.sent (.notify ⟨[],0⟩ ⟨[],[⟨[],[],[],
      [dataAccessServerConnectAddress cfg (nextThread cfg counter true)],[]⟩],[]⟩)]) := rfl

/-- Threads are picked in turn. -/
theorem nextThread_ofNat {n : ℕ} (h : n+1<cfg.ioThreadCount.toNat) (excludeMainThread : Bool) :
    nextThread cfg (UInt32.ofNat n) excludeMainThread=UInt32.ofNat (n+1) := by
  have hbound := cfg.ioThreadCount.toNat_lt
  have hn : (UInt32.ofNat n).toNat=n := UInt32.toNat_ofNat_of_lt' (show n<2^32 by omega)
  have hlt : UInt32.ofNat n<cfg.ioThreadCount := by
    rw [UInt32.lt_iff_toNat_lt,hn]
    omega
  have hwrap : ¬(UInt32.ofNat n+1)%cfg.ioThreadCount=0 := by
    rw [succ_mod_eq_zero_iff hlt,hn]
    omega
  rw [nextThread,if_neg hwrap,UInt32.ofNat_add]
  rfl

theorem after_announcements {n : ℕ} (h : n<cfg.ioThreadCount.toNat) :
    after (helperStep cfg) 0 (List.replicate n (announcement cfg))=UInt32.ofNat n := by
  induction n with
  | zero => rfl
  | succ n ih =>
    rw [List.replicate_succ',after_concat,ih (by omega),helperStep_announcement]
    exact nextThread_ofNat h true

/-- The address that the next announcement shows has a listener. -/
theorem ThreadsSound.listening (h : ThreadsSound cfg) {n : ℕ} (hn : n<cfg.ioThreadCount.toNat) :
    Listening cfg (dataAccessServerConnectAddress cfg (nextThread cfg (UInt32.ofNat n) true)) := by
  have hlast := getElem?_outputs (helperStep cfg) 0 (List.replicate (n+1) (announcement cfg)) n
  have hnth : (List.replicate (n+1) (announcement cfg))[n]?=some (announcement cfg) := by
    rw [List.getElem?_replicate,if_pos (Nat.lt_succ_self n)]
  rw [hnth,List.take_replicate,Nat.min_eq_left (Nat.le_succ n),after_announcements hn,
    Option.map_some,helperStep_announcement] at hlast
  exact h.sent _ _ (List.mem_of_getElem? hlast) _ List.mem_cons_self _ List.mem_cons_self _
    List.mem_cons_self

/-- The port of the fifty-first data server is that of the first data client. -/
theorem not_listening_fifty : ¬Listening cfg (dataAccessServerConnectAddress cfg 50) := by
  rintro ⟨tid,-,haddress,hports⟩
  rw [←dataAccessServerConnectAddress_inj haddress] at hports
  exact hports 0 List.mem_cons_self (by decide)

/-- For every number of threads from one on: all picks are threads, all
announced and forwarded addresses have a listener and all queues that are
used exist, exactly if there are more than one and at most fifty. -/
theorem threads_sound_iff (cfg : SchedulerConfig) (hcount : 1≤ cfg.ioThreadCount) :
    ThreadsSound cfg ↔ 1<cfg.ioThreadCount ∧ cfg.ioThreadCount≤50 := by
  constructor
  · intro h
    have hmany : 1<cfg.ioThreadCount := by
      refine UInt32.lt_of_le_of_ne hcount fun he => ?_
      have hpick := (h.picks (SchedState.start cfg 0) rfl [true] _ List.mem_cons_self).1
      have hone : nextThread cfg 0 true=1 := by
        rw [nextThread,←he]
        rfl
      have hlt : nextThread cfg 0 true<cfg.ioThreadCount := hpick
      rw [hone,←he] at hlt
      exact UInt32.lt_irrefl 1 hlt
    refine ⟨hmany,?_⟩
    by_contra hports
    have hlt : 50<cfg.ioThreadCount.toNat := by
      rw [UInt32.not_le,UInt32.lt_iff_toNat_lt] at hports
      exact hports
    have hlisten := h.listening (n:=49) (by omega)
    rw [nextThread_ofNat hlt] at hlisten
    exact not_listening_fifty hlisten
  · rintro ⟨hmany,hports⟩
    have henough : Enough cfg := ⟨hmany,hports⟩
    refine ⟨fun st hst flags p hp => ?_,sent_served henough⟩
    have hpick := picks_sound hmany hst flags p hp
    exact ⟨hpick.1,fun hflag _ => hpick.2 hflag⟩

/-- A worker with the given number of I/O threads. -/
def withThreads (count : UInt32) : SchedulerConfig := .sample [0] 0 count fun _ => 0

theorem threads_sound_two : ThreadsSound (withThreads 2) :=
  (threads_sound_iff (withThreads 2) (by decide)).mpr ⟨by decide,by decide⟩

/-- With the main thread alone, an object is announced under the port of a
second thread, where nobody listens. -/
theorem single_thread_not_listening :
    (helperStep (withThreads 1) 0 (announcement (withThreads 1))).2=
      [.sent (.notify ⟨[],0⟩ ⟨[],[⟨[],[],[],[str "tcp://10.0.0.1:4401"],[]⟩],[]⟩)] ∧
    ¬Listening (withThreads 1) (str "tcp://10.0.0.1:4401") := by
  constructor
  · rfl
  · rintro ⟨tid,htid,haddress,-⟩
    have hmain : tid=0 := List.mem_singleton.mp htid
    rw [hmain] at haddress
    exact absurd haddress (by decide)

end Pheromone.IoThreads
