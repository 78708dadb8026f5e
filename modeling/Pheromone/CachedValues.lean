import Pheromone.CoordinatorLoop
import Pheromone.ObjectDispatch

/-!
# Cached values of objects

Worker and coordinator keep values of small objects by name. They stay
current unless a large or empty object is put over a cached one.
-/

namespace Pheromone.CachedValues

open UnorderedContainers GuardedRuns FaultingRuns EventHistories DelimitedText CommonNames
open OperationMessages SchedulerState Scheduling SchedulerLoop SchedulingRules
open ObjectTransport ObjectDispatch CoordinatorNotify CoordinatorOps CoordinatorRefinement

/-- A put of an object by a function. -/
structure PutRequest where
  /-- The sending executor. -/
  lib : UserLibrary
  /-- Bucket of the object. -/
  bucket : Str
  /-- Key of the object. -/
  key : Str
  /-- Function that is to be started directly, if any. -/
  target : Str
  value : Str

/-- Name of the object. -/
def PutRequest.name (p : PutRequest) : Str := getLocalObjectName p.bucket p.key p.lib.sessionId

/-- The message to the scheduler. -/
def PutRequest.message (p : PutRequest) : Str := objectMessage p.lib p.bucket p.key p.target p.value

/-- A value that travels inside the messages. -/
def Packed (value : Str) : Prop := value≠[] ∧ value.length≤ msgDataPackingThreshold

instance (value : Str) : Decidable (Packed value) := inferInstanceAs (Decidable (_ ∧ _))

/-- A worker, the coordinator of its buckets and the notifications between
them, each with the put that caused it. -/
structure PutNet where
  worker : SchedState
  /-- Names and values of the puts that the worker has handled, oldest first. -/
  puts : List (Str×Str)
  /-- Notifications on their way, oldest first. -/
  link : List ((Str×Str)×KeyNotifyRequest)
  coord : CoordState
  /-- Names and values of the puts that the coordinator has been notified of. -/
  seen : List (Str×Str)

/-- A put is handled, another step of the worker, a notification arrives, or
another message of the coordinator. -/
inductive PutLabel where
  | put (p : PutRequest)
  | work (l : SchedLabel)
  | deliver (now : ℤ)
  | coordinate (i : CoordinatorLoop.CoordIn)

/-- The message of an executor about an ephemeral object. -/
def sendsObject : SchedLabel → Bool
  | .executor msg => decide ((msg++[nulChar])[1]?=some 2)
  | _ => false

/-- One step of worker or coordinator. -/
def netStep (cfg : SchedulerConfig) (ccfg : CoordConfig) (self : CoordIdentity) (n : PutNet) :
    PutLabel → Option PutNet
  | .put p => (step cfg n.worker (.executor p.message)).map fun w =>
      {n with
        worker := w
        puts := n.puts++[(p.name,p.value)]
        link := n.link++((since n.worker w).filterMap notification?).map
          fun note => ((p.name,p.value),note.2)}
  | .work l => if sendsObject l then none else
      (step cfg n.worker l).map fun w => {n with worker := w}
  | .deliver now => match n.link with
    | [] => none
    | e::rest => (notifyHandler ccfg now n.coord e.2).map fun r =>
        {n with
          link := rest
          coord := r.1
          seen := n.seen++[e.1]}
  | .coordinate i => match i with
    | .notify _ _ => none
    | i => (CoordinatorLoop.handle ccfg self n.coord i).map fun r => {n with coord := r.1}

/-- A new worker and a new coordinator. -/
def netStart (cfg : SchedulerConfig) (seed coordSeed : UInt32) : PutNet :=
  ⟨.start cfg seed,[],[],(CoordinatorLoop.start coordSeed).tables,[]⟩

/-- Both caches hold the values of the latest puts only, and what a trigger
is called with by value are the values of the latest puts. -/
structure Current (n : PutNet) : Prop where
  worker : ∀ name v,n.worker.keyValMap.find? name=some v → latest name n.puts=some v
  coord : ∀ name v,n.coord.bucketKeyValMap.find? name=some v → latest name n.seen=some v
  called : ∀ names values,names.mapM (fun name => n.worker.keyValMap.find? name)=some values →
    List.Forall₂ (fun name v => latest name n.puts=some v) names values
  dispatched : ∀ bucket action values,valToBatch n.coord bucket action=some values →
    List.Forall₂ (fun o v => latest (getLocalObjectName bucket o.2 o.1) n.seen=some v)
      action.sessionKeys values

/-- Names are plain and long enough to be cut, the value is plain, and a value
that does not travel inside the messages goes under a name without cached
value. -/
structure Fits (st : SchedState) (p : PutRequest) : Prop where
  names : PlainNames p.lib p.bucket p.key p.target
  plain : Plain p.value
  long : 16<(getKeySessionName p.key p.lib.sessionId).length
  uncached : Packed p.value ∨ st.keyValMap.find? p.name=none

/-- Every put fits. -/
def FittingPuts (n : PutNet) : PutLabel → Prop
  | .put p => Fits n.worker p
  | _ => True

/-- The cache is as before. -/
def SameValues (st st' : SchedState) : Prop := st'.keyValMap=st.keyValMap

theorem sameValues_frame : LoopFrame (fun _ => True) SameValues where
  toReadFrame := .of_idle (fun _ _ h => h.keyValMap) (fun _ _ _ h h' => h'.trans h) fun _ _ _ => rfl
  noteHints st call time := by rw [SameValues,noteHints_eq]
  delayCallQueue _ _ := rfl
  rerunCheckQueue _ _ _ := rfl
  numbers _ _ _ := rfl
  inflight _ _ := rfl
  awaited _ _ := rfl

variable {st st' : SchedState} {isDataPacking : UInt8} {info : ObjectInfo}

variable {cfg : SchedulerConfig}

theorem records_notified {P : SchedEvent → Prop} {bk : BucketKey} {fired : List Str}
    (h : ∀ coord client ip,P (.sent (.notify coord ⟨client,[⟨bk.bucket,bk.key,bk.session,[ip],
      if isDataPacking=1 then info.value else []⟩],fired⟩))) (st : SchedState) :
    Records P st (notified cfg bk isDataPacking info fired st) := by
  have hput : ∀ payload,payload=(if isDataPacking=1 then info.value else []) →
      Records P st (notifyPut cfg (sessionClient st info.sessionId).2 bk fired
        (sessionClient st info.sessionId).1 payload) := by
    intro payload hpayload
    unfold notifyPut
    split
    · exact records_of_eq rfl
    · rw [hpayload]
      exact ⟨[_],rfl,List.forall_mem_singleton.mpr (h _ _ _)⟩
  unfold notified
  dsimp only
  split
  · rename_i hp
    exact hput _ (if_pos hp).symm
  · rename_i hp
    split
    · exact hput _ (if_neg hp).symm
    · exact records_of_eq rfl

/-- An ephemeral object: what becomes of the cache and what is reported. -/
theorem recvEphemeral_values {P : SchedEvent → Prop} (hP : ∀ e,notification? e=none → P e)
    (hnote : ∀ coord client ip fired,P (.sent (.notify coord ⟨client,
      [⟨(BucketKey.ofSessionKey info.bucket info.sessionKey).bucket,
        (BucketKey.ofSessionKey info.bucket info.sessionKey).key,
        (BucketKey.ofSessionKey info.bucket info.sessionKey).session,[ip],
        if isDataPacking=1 then info.value else []⟩],fired⟩)))
    (h : recvEphemeral cfg st isDataPacking info=.ok st') :
    st'.keyValMap=(if isDataPacking=1 then st.keyValMap.set info.objName info.value
      else st.keyValMap) ∧ Records P st st' := by
  have hcalling : ∀ e,Calling e → P e := by
    intro e he
    apply hP
    cases e with
    | sent out => cases out <;> first | rfl | cases he
    | _ => rfl
  obtain ⟨st1,hrec,-⟩ := bind_eq_ok ((recvEphemeral_eq ..).symm.trans h)
  obtain ⟨lens,hst1,-⟩ := recordObject_ok hrec
  have hsame : SameValues st1 st' :=
    ((sameValues_frame.callFrame fun _ _ => trivial).recorded (fun _ _ => trivial)
      sameValues_frame.counted (fun _ _ => rfl) (fun _ => trivial) (fun _ => trivial) hrec).leads.ok h
  have hrecords : Records P st1 st' := by
    have hframe := @LoopFrame.callFrame P _ cfg (records_frame P) hcalling
    have htouch : Records P st1 (consulted st1 info.srcFunction) := hframe.consulted st1 _
    rw [recvEphemeral_eq,hrec] at h
    dsimp only [bind,Except.bind] at h
    split at h
    · rename_i deps _
      exact htouch.trans ((hframe.directInvocation (fun _ _ _ => hP _ rfl) _ deps _).leads.ok h)
    · split at h
      · rw [triggerCheck_eq] at h
        obtain ⟨r,hcheck,h⟩ := bind_eq_ok h
        cases h
        have hcalls := (hframe.checkTrigger (records_of_eq rfl) fun _ _ => hP _ rfl).leads.ok hcheck
        exact htouch.trans (hcalls.trans
          (records_notified (fun coord client ip => hnote coord client ip _) r.2))
      · cases h
        exact htouch
  rw [hst1] at hsame hrecords
  exact ⟨hsame,hrecords⟩

/-- A notification that reports a put: its name, and its value if that
travels inside the messages. -/
def Reports (put : Str×Str) (req : KeyNotifyRequest) : Prop :=
  ∃ a,req.addresses=[a] ∧ (getBucketKeyFromAddr a).shmKeyName=put.1 ∧
    a.payload=if Packed put.2 then put.2 else []

theorem put_worker {p : PutRequest} (hp : Fits st p)
    (h : step cfg st (.executor p.message)=some st') :
    st'.keyValMap=(if Packed p.value then st.keyValMap.set p.name p.value else st.keyValMap) ∧
      ∀ note∈(since st st').filterMap notification?,Reports (p.name,p.value) note.2 := by
  have hout : recvExecutor cfg st p.message=.ok st' := SchedulingRules.step_eq_some h
  by_cases hne : p.value=[]
  · have hnone : objectInfo (terminated nulChar (objectFields p.lib
        (createObject p.bucket p.key p.lib.sessionId p.target p.value)++textOf p.value))=none := by
      rw [objectInfo_fields hp.names,hne]
      rfl
    rw [PutRequest.message,objectMessage_eq,recvExecutor_object,recvObject,hnone] at hout
    cases hout
    have hsince : since st st=[] := List.drop_length
    rw [if_neg fun hpacked : Packed p.value => hpacked.1 hne,hsince]
    exact ⟨rfl,fun note hn => absurd hn List.not_mem_nil⟩
  · rw [PutRequest.message,recvExecutor_sent cfg st hp.names hne hp.plain] at hout
    have hpacking : packingOf p.value=1 ↔ Packed p.value := by
      unfold packingOf Packed
      split
      · rename_i hsmall
        exact ⟨fun _ => ⟨hne,hsmall⟩,fun _ => rfl⟩
      · rename_i hlarge
        exact ⟨fun he => absurd he (by decide),fun hpacked => absurd hpacked.2 hlarge⟩
    have htext : Packed p.value → textOf p.value=p.value := fun hpacked => if_pos hpacked.2
    have hname := BucketKey.shmKeyName_ofSessionKey hp.long p.bucket
    have hvalues := @recvEphemeral_values st st' (packingOf p.value)
      (sentInfo p.lib p.bucket p.key p.target (textOf p.value)) cfg
      (fun e => ∀ note,notification? e=some note → Reports (p.name,p.value) note.2)
      (fun e he note hnote => by rw [he] at hnote; cases hnote)
      (fun coord client ip fired note hnote => ?_) hout
    · obtain ⟨hcache,events,htrace,hevents⟩ := hvalues
      refine ⟨?_,fun note hnote => ?_⟩
      · rw [hcache]
        by_cases hpacked : Packed p.value
        · rw [if_pos (hpacking.mpr hpacked),if_pos hpacked]
          exact congrArg (st.keyValMap.set p.name) (htext hpacked)
        · rw [if_neg (fun he => hpacked (hpacking.mp he)),if_neg hpacked]
      · rw [since_eq htrace] at hnote
        obtain ⟨e,he,hn⟩ := List.mem_filterMap.mp hnote
        exact hevents e he note hn
    · cases hnote
      refine ⟨_,rfl,hname,?_⟩
      by_cases hpacked : Packed p.value
      · rw [if_pos (hpacking.mpr hpacked),if_pos hpacked]
        exact htext hpacked
      · rw [if_neg (fun he => hpacked (hpacking.mp he)),if_neg hpacked]

theorem work_values {l : SchedLabel} (hl : sendsObject l=false) (h : step cfg st l=some st') :
    SameValues st st' := by
  have hframe := sameValues_frame
  refine step_within h (fun _ => rfl) fun hl' => Leads.or ?_ fun _ _ _ => trivial
  refine hframe.outcome (fun _ _ => trivial) (fun _ => trivial) hl' (fun msg he => ?_)
    (fun st key size body _ => ?_) fun key _ => ?_
  · subst he
    refine hframe.recvExecutor (fun _ _ => trivial) (fun _ executorId reqId => ?_)
      (fun hkind => ?_) fun _ => ?_
    · exact hframe.recvGet (fun _ _ => trivial) (fun _ => trivial) (fun _ _ => rfl) st
    · rw [sendsObject,hkind] at hl
      cases hl
    · exact hframe.recvPersistent (fun _ _ => rfl) (fun _ _ _ => trivial) st
  · exact hframe.answerWaiting (fun _ _ => trivial) (fun _ _ => rfl) _ key
  · exact hframe.recvKvsPut (fun _ _ => trivial) (fun _ _ => rfl) st key

theorem notifyHandler_values {cfg : CoordConfig} {now : ℤ} {st st' : CoordState}
    {req : KeyNotifyRequest} {out : List CoordOut} {a : BucketKeyAddress} (hreq : req.addresses=[a])
    (h : notifyHandler cfg now st req=some (st',out)) :
    st'.bucketKeyValMap=if a.payload=[] then st.bucketKeyValMap else
      st.bucketKeyValMap.set (getBucketKeyFromAddr a).shmKeyName a.payload := by
  unfold notifyHandler at h
  rw [hreq] at h
  simp only [notifyAddresses,Option.bind_eq_bind,Option.bind_eq_some_iff] at h
  obtain ⟨registered,hr,h⟩ := h
  cases registered with
  | none =>
    cases h
    rw [if_pos (DispatchCapacity.registerObject_eq_none hr).1]
  | some st1 =>
    obtain ⟨⟨st2,out1⟩,ht,h⟩ := Option.bind_eq_some_iff.mp h
    cases h
    obtain ⟨ip,host,-,-,hst1⟩ := DispatchCapacity.registerObject_eq_some hr
    have hkept := @CoordinatorLoop.notifyTriggers_rule cfg now req (getBucketKeyFromAddr a)
      (fun s => s.bucketKeyValMap=st1.bucketKeyValMap) (fun _ => True) st1 st2 out1 rfl
      (fun r _ action _ s s' d hs hd => ?_) ht
    · refine hkept.1.trans ?_
      rw [hst1]
    · obtain ⟨_,_,_,_,_,_,hs',_⟩ := DispatchCapacity.dispatchAction_eq_some hd
      rw [hs']
      exact ⟨hs,trivial⟩

/-- A value outside the messages is put only before all values inside them
of the same name. -/
def Unshadowed (before : List (Str×Str)) (put : Str×Str) : Prop :=
  ¬Packed put.2 → ∀ earlier∈before,earlier.1=put.1 → ¬Packed earlier.2

/-- Caches, puts and notifications fit together. -/
structure Cached (n : PutNet) : Prop where
  /-- The worker's cache holds latest values. -/
  worker : ∀ name v,n.worker.keyValMap.find? name=some v → latest name n.puts=some v
  /-- Every name of a small put is cached. -/
  packed : ∀ put∈n.puts,Packed put.2 → ∃ v,n.worker.keyValMap.find? put.1=some v
  /-- The coordinator's cache holds latest values. -/
  coord : ∀ name v,n.coord.bucketKeyValMap.find? name=some v → latest name n.seen=some v
  /-- It holds values of small puts only. -/
  small : ∀ name v,n.coord.bucketKeyValMap.find? name=some v → ∃ put∈n.seen,put.1=name ∧ Packed put.2
  /-- Notifications report puts of the worker. -/
  known : ∀ put∈n.seen++n.link.map Prod.fst,put∈n.puts
  /-- No large put follows a small one. -/
  order : Justified Unshadowed (n.seen++n.link.map Prod.fst)
  /-- The notifications on their way. -/
  link : ∀ e∈n.link,Reports e.1 e.2

variable {n : PutNet}

theorem Cached.current (h : Cached n) : Current n := by
  refine ⟨h.worker,h.coord,fun names values hm => ?_,fun bucket action values hm => ?_⟩
  · exact (forall₂_mapM hm).imp fun name v hv => h.worker name v hv
  · exact (forall₂_mapM hm).imp fun o v hv => h.coord _ v hv

theorem cached_start (cfg : SchedulerConfig) (seed coordSeed : UInt32) :
    Cached (netStart cfg seed coordSeed) := by
  refine ⟨nofun,nofun,nofun,nofun,nofun,justified_nil,nofun⟩

/-- Latest values after one more put, given what becomes of the cache. -/
theorem latest_of_put {cache cache' : UMap Str Str} {puts : List (Str×Str)} {put : Str×Str}
    (h : ∀ name v,cache.find? name=some v → latest name puts=some v)
    (hset : cache'=if Packed put.2 then cache.set put.1 put.2 else cache)
    (hold : ¬Packed put.2 → cache.find? put.1=none) :
    ∀ name v,cache'.find? name=some v → latest name (puts++[put])=some v := by
  intro name v hv
  rw [latest_concat]
  by_cases hp : Packed put.2
  · rw [hset,if_pos hp,UMap.find?_set] at hv
    by_cases hname : put.1=name
    · rw [if_pos hname.symm] at hv
      rw [if_pos hname]
      exact hv
    · rw [if_neg (Ne.symm hname)] at hv
      rw [if_neg hname]
      exact h name v hv
  · rw [hset,if_neg hp] at hv
    by_cases hname : put.1=name
    · rw [←hname,hold hp] at hv
      cases hv
    · rw [if_neg hname]
      exact h name v hv

theorem cached_put {p : PutRequest} {w : SchedState} (h : Cached n) (hp : Fits n.worker p)
    (hw : step cfg n.worker (.executor p.message)=some w) :
    Cached {n with
      worker := w
      puts := n.puts++[(p.name,p.value)]
      link := n.link++((since n.worker w).filterMap notification?).map
        fun note => ((p.name,p.value),note.2)} := by
  obtain ⟨hcache,hnotes⟩ := put_worker hp hw
  have huncached : ¬Packed p.value → n.worker.keyValMap.find? p.name=none := fun hlarge =>
    hp.uncached.resolve_left hlarge
  generalize (since n.worker w).filterMap notification?=notes at hnotes
  have hnew : ∀ put∈(notes.map fun note => (((p.name,p.value),note.2) : (Str×Str)×KeyNotifyRequest)).map
      Prod.fst,put=(p.name,p.value) := by
    intro put hput
    obtain ⟨e,he,rfl⟩ := List.mem_map.mp hput
    obtain ⟨note,-,rfl⟩ := List.mem_map.mp he
    rfl
  refine ⟨latest_of_put h.worker hcache huncached,fun put hput hpacked => ?_,h.coord,h.small,
    fun put hput => ?_,?_,fun e he => ?_⟩
  · show ∃ v,w.keyValMap.find? put.1=some v
    rw [hcache]
    rcases List.mem_append.mp hput with hput|hput
    · obtain ⟨v,hv⟩ := h.packed put hput hpacked
      split
      · rw [UMap.find?_set]
        split
        · exact ⟨_,rfl⟩
        · exact ⟨v,hv⟩
      · exact ⟨v,hv⟩
    · rw [List.mem_singleton.mp hput] at hpacked ⊢
      rw [if_pos hpacked]
      exact ⟨_,UMap.find?_set_self _ _ _⟩
  · rw [List.map_append,←List.append_assoc] at hput
    rcases List.mem_append.mp hput with hput|hput
    · exact List.mem_append_left _ (h.known put hput)
    · rw [hnew put hput]
      exact List.mem_append_right _ (List.mem_singleton_self _)
  · show Justified Unshadowed (n.seen++(n.link++_).map Prod.fst)
    rw [List.map_append,←List.append_assoc]
    refine h.order.append fun before hb put hput hlarge earlier hearlier hname hpacked => ?_
    have hentry := hnew put hput
    rw [hentry] at hlarge hname
    rcases List.mem_append.mp hearlier with hearlier|hearlier
    · obtain ⟨v,hv⟩ := h.packed earlier (h.known earlier hearlier) hpacked
      rw [hname,huncached hlarge] at hv
      cases hv
    · rw [hnew earlier (hb hearlier)] at hpacked
      exact hlarge hpacked
  · rcases List.mem_append.mp he with he|he
    · exact h.link e he
    · obtain ⟨note,hnote,rfl⟩ := List.mem_map.mp he
      exact hnotes note hnote

theorem cached_deliver {ccfg : CoordConfig} {now : ℤ} {e : (Str×Str)×KeyNotifyRequest}
    {rest : List ((Str×Str)×KeyNotifyRequest)} {st : CoordState} {out : List CoordOut}
    (h : Cached n) (hlink : n.link=e::rest) (hn : notifyHandler ccfg now n.coord e.2=some (st,out)) :
    Cached {n with
      link := rest
      coord := st
      seen := n.seen++[e.1]} := by
  obtain ⟨a,hreq,hname,hpayload⟩ := h.link e (by rw [hlink]; exact List.mem_cons_self)
  have hall : n.seen++n.link.map Prod.fst=(n.seen++[e.1])++rest.map Prod.fst := by
    rw [hlink,List.map_cons,List.append_assoc]
    rfl
  have hvalues : st.bucketKeyValMap=if Packed e.1.2 then n.coord.bucketKeyValMap.set e.1.1 e.1.2
      else n.coord.bucketKeyValMap := by
    rw [notifyHandler_values hreq hn,hname,hpayload]
    by_cases hp : Packed e.1.2
    · rw [if_pos hp,if_pos hp,if_neg hp.1]
    · rw [if_neg hp,if_neg hp,if_pos rfl]
  have huncached : ¬Packed e.1.2 → n.coord.bucketKeyValMap.find? e.1.1=none := by
    intro hlarge
    by_contra hsome
    obtain ⟨v,hv⟩ := Option.ne_none_iff_exists'.mp hsome
    obtain ⟨put,hput,hpn,hpacked⟩ := h.small e.1.1 v hv
    have hbefore := h.order n.seen e.1 (rest.map Prod.fst) (by rw [hlink]; rfl)
    exact hbefore hlarge put hput hpn hpacked
  refine ⟨h.worker,h.packed,latest_of_put h.coord hvalues huncached,fun name v hv => ?_,?_,?_,
    fun x hx => h.link x (by rw [hlink]; exact List.mem_cons_of_mem _ hx)⟩
  · have hv' : st.bucketKeyValMap.find? name=some v := hv
    rw [hvalues] at hv'
    split at hv'
    · rename_i hp
      rw [UMap.find?_set] at hv'
      split at hv'
      · rename_i hn
        exact ⟨e.1,List.mem_append_right _ (List.mem_singleton_self _),hn.symm,hp⟩
      · obtain ⟨put,hput,hrest⟩ := h.small name v hv'
        exact ⟨put,List.mem_append_left _ hput,hrest⟩
    · obtain ⟨put,hput,hrest⟩ := h.small name v hv'
      exact ⟨put,List.mem_append_left _ hput,hrest⟩
  · intro put hput
    exact h.known put (by rw [hall]; exact hput)
  · have horder := h.order
    rw [hall] at horder
    exact horder

theorem cached_step {ccfg : CoordConfig} {self : CoordIdentity} {n' : PutNet} {l : PutLabel}
    (h : Cached n) (hok : FittingPuts n l) (hstep : netStep cfg ccfg self n l=some n') :
    Cached n' := by
  cases l with
  | put p =>
    obtain ⟨w,hw,rfl⟩ := Option.map_eq_some_iff.mp hstep
    exact cached_put h hok hw
  | work l =>
    rw [netStep] at hstep
    split at hstep
    · cases hstep
    · rename_i hl
      obtain ⟨w,hw,rfl⟩ := Option.map_eq_some_iff.mp hstep
      have hsame : w.keyValMap=n.worker.keyValMap := work_values (Bool.eq_false_iff.mpr hl) hw
      refine ⟨?_,?_,h.coord,h.small,h.known,h.order,h.link⟩
      · show ∀ name v,w.keyValMap.find? name=some v → latest name n.puts=some v
        rw [hsame]
        exact h.worker
      · show ∀ put∈n.puts,Packed put.2 → ∃ v,w.keyValMap.find? put.1=some v
        rw [hsame]
        exact h.packed
  | deliver now =>
    rw [netStep] at hstep
    split at hstep
    · cases hstep
    · rename_i e rest hlink
      obtain ⟨r,hr,rfl⟩ := Option.map_eq_some_iff.mp hstep
      exact cached_deliver h hlink hr
  | coordinate i =>
    have hother : ∀ {r : CoordState×List CoordinatorLoop.CoordEvent},
        (∀ req now,i≠.notify req now) → CoordinatorLoop.handle ccfg self n.coord i=some r →
          Cached {n with coord := r.1} := by
      intro r hi hr
      have hvalues := (CoordinatorLoop.handle_aside hi hr).values
      refine ⟨h.worker,h.packed,?_,?_,h.known,h.order,h.link⟩
      · show ∀ name v,r.1.bucketKeyValMap.find? name=some v → latest name n.seen=some v
        rw [hvalues]
        exact h.coord
      · show ∀ name v,r.1.bucketKeyValMap.find? name=some v → _
        rw [hvalues]
        exact h.small
    by_cases hi : ∃ req now,i=.notify req now
    · obtain ⟨req,now,rfl⟩ := hi
      cases hstep
    · have hhandle : (CoordinatorLoop.handle ccfg self n.coord i).map
          (fun r => {n with coord := r.1})=some n' := by
        cases i with
        | notify req now => exact absurd ⟨req,now,rfl⟩ hi
        | _ => exact hstep
      obtain ⟨r,hr,rfl⟩ := Option.map_eq_some_iff.mp hhandle
      exact hother (fun req now he => hi ⟨req,now,he⟩) hr

/-- Along every run whose puts fit, the caches of worker and coordinator are
current. -/
theorem cached_values_current (cfg : SchedulerConfig) (ccfg : CoordConfig) (self : CoordIdentity)
    (seed coordSeed : UInt32) (labels : List PutLabel) (n : PutNet)
    (hok : StepsMeet (netStep cfg ccfg self) FittingPuts (netStart cfg seed coordSeed) labels)
    (hrun : run (netStep cfg ccfg self) (netStart cfg seed coordSeed) labels=some n) : Current n :=
  (run_invariant_of_steps (fun _ _ _ h hok hstep => cached_step h hok hstep)
    (cached_start cfg seed coordSeed) hok hrun).current

instance (st : SchedState) (p : PutRequest) : Decidable (Fits st p) :=
  decidable_of_iff ((Plain p.lib.sessionId ∧ Plain p.lib.function ∧ Plain p.target ∧ Plain p.bucket ∧
      Plain p.key) ∧ Plain p.value ∧ 16<(getKeySessionName p.key p.lib.sessionId).length ∧
      (Packed p.value ∨ st.keyValMap.find? p.name=none))
    ⟨fun ⟨⟨hs,hf,ht,hb,hk⟩,hp,hl,hu⟩ => ⟨⟨hs,hf,ht,hb,hk⟩,hp,hl,hu⟩,
      fun ⟨⟨hs,hf,ht,hb,hk⟩,hp,hl,hu⟩ => ⟨⟨hs,hf,ht,hb,hk⟩,hp,hl,hu⟩⟩

instance (n : PutNet) (l : PutLabel) : Decidable (FittingPuts n l) :=
  match l with
  | .put p => inferInstanceAs (Decidable (Fits n.worker p))
  | .work _ => isTrue trivial
  | .deliver _ => isTrue trivial
  | .coordinate _ => isTrue trivial

/-- A put of a value under one name. -/
def samplePut (value : Str) : PutRequest := ⟨sampleLibrary,str "b",str "k",[],value⟩

/-- A value of 1025 bytes. -/
def largeValue : Str := List.replicate 1025 120

/-- A bucket known to both sides, and two puts that are reported. -/
def twoPuts (first second : Str) : List PutLabel :=
  [.work (.update ⟨str "10.0.0.9",0,str "app",[],[],
      [{TriggerEntity.unset with bucketName := str "b"}],0⟩),
    .coordinate (.bucket ⟨.createBucket,str "app",str "b",[],[]⟩),
    .put (samplePut first),.deliver 0,.put (samplePut second),.deliver 0]

/-- The run of two puts. -/
def twoPutsRun (first second : Str) : Option PutNet :=
  run (netStep sampleConfig DispatchCapacity.oneThread ⟨str "10.0.0.9",0⟩)
    (netStart sampleConfig 1 1) (twoPuts first second)

theorem cached_values_current_small : ∃ n,twoPutsRun (str "v1") (str "v2")=some n ∧
    n.coord.bucketKeyValMap.find? (samplePut []).name=some (str "v2") ∧ Current n := by
  have hcomputed : ((twoPutsRun (str "v1") (str "v2")).map fun n => decide
      (n.coord.bucketKeyValMap.find? (samplePut []).name=some (str "v2")))=some true := by
    decide +kernel
  obtain ⟨n,hn,hvalue⟩ := exists_of_decided hcomputed
  exact ⟨n,hn,hvalue,cached_values_current sampleConfig DispatchCapacity.oneThread
    ⟨str "10.0.0.9",0⟩ 1 1 (twoPuts (str "v1") (str "v2")) n (by decide +kernel) hn⟩

/-- After a large put both caches still hold the small value before it. -/
theorem overwritten_value_cached : ∃ n,twoPutsRun (str "v1") largeValue=some n ∧
    n.worker.keyValMap.find? (samplePut []).name=some (str "v1") ∧
    latest (samplePut []).name n.puts=some largeValue ∧
    n.coord.bucketKeyValMap.find? (samplePut []).name=some (str "v1") ∧
    latest (samplePut []).name n.seen=some largeValue ∧ ¬Current n := by
  have hcomputed : ((twoPutsRun (str "v1") largeValue).map fun n => decide
      (n.worker.keyValMap.find? (samplePut []).name=some (str "v1") ∧
        latest (samplePut []).name n.puts=some largeValue ∧
        n.coord.bucketKeyValMap.find? (samplePut []).name=some (str "v1") ∧
        latest (samplePut []).name n.seen=some largeValue))=some true := by
    decide +kernel
  obtain ⟨n,hn,hworker,hputs,hcoord,hseen⟩ := exists_of_decided hcomputed
  refine ⟨n,hn,hworker,hputs,hcoord,hseen,fun h => ?_⟩
  have hstale := h.worker _ _ hworker
  rw [hputs] at hstale
  revert hstale
  decide +kernel

end Pheromone.CachedValues
