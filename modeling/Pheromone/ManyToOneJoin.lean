import Pheromone.ObjectTransport
import Pheromone.RegistrationDelivery
import Pheromone.RequestAdmission

/-!
# A join, from its registration to its start

Every source of a many-to-one dependency sends one object. On one worker the
target is started once per session, at the last of them and with all.
-/

namespace Pheromone.ManyToOneJoin

open UnorderedContainers GuardedRuns FaultingRuns DelimitedText CommonNames TriggerPrimitives
open OperationMessages WorkerUpdates SchedulerState Scheduling SchedulerLoop SchedulingRules
open RequestAdmission ObjectTransport CoordinatorNotify CoordinatorOps RegistrationDelivery

/-- Bytes of an object that is created for a target. -/
def objectCapacity : ℕ := 1024*1024

/-- The object that a function creates for a target. -/
def createObjectFor (lib : UserLibrary) (target value : Str) : EpheObject :=
  createObject (str "b_"++target) (str "k_"++lib.function) lib.sessionId target value

/-- The message that sends it. -/
def sendFor (lib : UserLibrary) (target value : Str) : Str :=
  (sendObject lib (createObjectFor lib target value) false).1

/-- A join of an application in one session. -/
structure Join where
  /-- The application. -/
  app : Str
  /-- The function that is to be started. -/
  target : Str
  /-- The functions it waits for, as they are registered. -/
  srcs : List Str
  session : Session

namespace Join

variable (j : Join)

/-- The functions without repetition. -/
def sources : USet Str := USet.ofList j.srcs

/-- The keys that the trigger waits for. -/
def keys : USet Key := USet.ofList (j.srcs.map sourceKey)

/-- The bucket of the objects. -/
def bucket : Bucket := dependencyBucket j.target

/-- Name of the object of a source. -/
def object (func : Str) : Str := getLocalObjectName j.bucket (sourceKey func) j.session

/-- Arguments and argument mode of the target: the values if all are small,
and otherwise the names with the lengths. -/
def arguments (value : Str → Str) : List Str×ℤ :=
  if ∀ func∈j.sources.elems,(value func).length≤ msgDataPackingThreshold then
    (j.sources.elems.map value,0)
  else (j.sources.elems.flatMap fun func => [j.object func,decimal (value func).length],1)

/-- The start of the target with the objects of all sources. -/
def call (value : Str → Str) : Invocation :=
  ⟨j.session,j.app,j.target,(j.arguments value).1,(j.arguments value).2⟩

/-- Names as the messages need them, and a session of sixteen bytes. -/
structure WellNamed : Prop where
  target : Plain j.target
  sources : ∀ func∈j.srcs,Plain func
  session : Plain j.session
  length : j.session.length=16

theorem keys_elems : j.keys.elems=j.sources.elems.map sourceKey :=
  USet.ofList_map_elems sourceKey_injective j.srcs

theorem sourceKey_mem_keys {func : Str} : sourceKey func∈j.keys ↔ func∈j.sources := by
  rw [keys,sources,USet.mem_ofList,USet.mem_ofList]
  exact List.mem_map_of_injective sourceKey_injective

theorem mem_srcs {func : Str} : func∈j.sources ↔ func∈j.srcs := USet.mem_ofList

end Join

variable {j : Join}

theorem Join.WellNamed.bucket (h : j.WellNamed) : Plain j.bucket :=
  Plain.append (s:=str "b_") (by decide) h.target

theorem Join.WellNamed.key (h : j.WellNamed) {func : Str} (hf : func∈j.sources) :
    Plain (sourceKey func) := Plain.append (s:=str "k_") (by decide) (h.sources func (j.mem_srcs.mp hf))

/-- The parts around the first delimiter are unique. -/
theorem delimited_unique {a b x y : Str} (ha : kDelimiterChar∉a) (hb : kDelimiterChar∉b)
    (h : a++kDelimiter++x=b++kDelimiter++y) : a=b ∧ x=y := by
  have hcut : ∀ {c z : Str},kDelimiterChar∉c → terminated kDelimiterChar (c++kDelimiter++z)=c := by
    intro c z hc
    rw [List.append_assoc,terminated_append hc]
    simp [kDelimiter,terminated]
  have hab : a=b := by rw [←hcut (z:=x) ha,h,hcut hb]
  subst hab
  exact ⟨rfl,List.append_cancel_left h⟩

/-- Names of other objects. -/
def Apart (j : Join) (name : Str) : Prop := ∀ func∈j.sources,j.object func≠name

variable {info : ObjectInfo}

/-- An object that is cut into another session has another name. -/
theorem apart_objName (hj : j.WellNamed) (hb : kDelimiterChar∉info.bucket)
    (hs : (BucketKey.ofSessionKey info.bucket info.sessionKey).session≠j.session) :
    Apart j info.objName := by
  intro func hf he
  obtain ⟨hbucket,hkey⟩ := delimited_unique hj.bucket.1 hb he
  apply hs
  have hne : sourceKey func≠[] := List.append_ne_nil_of_left_ne_nil (by decide) _
  rw [←hkey,BucketKey.ofSessionKey_append hne hj.length]

variable {name : Str}

/-- Names that do not end in the session are other names. -/
theorem apart_of_suffix (h : ¬j.session <:+ name) : Apart j name := by
  intro func _ he
  apply h
  rw [←he]
  exact ⟨j.bucket++kDelimiter++sourceKey func,by simp [Join.object,getLocalObjectName,getKeySessionName]⟩

/-- A start of the target for the session by a dependency. -/
def start? (j : Join) : SchedEvent → Option Invocation
  | .scheduled .direct call => if call.sessionId=j.session ∧ call.funcName=j.target then some call else none
  | .scheduled .trigger call => if call.sessionId=j.session ∧ call.funcName=j.target then some call else none
  | .scheduled .rerun call => if call.sessionId=j.session ∧ call.funcName=j.target then some call else none
  | _ => none

/-- The starts in a trace. -/
def startsOf (j : Join) (trace : List SchedEvent) : List Invocation := trace.filterMap (start? j)

variable {e : SchedEvent}

theorem start?_of_routine (h : Routine e) : start? j e=none := by
  cases e with
  | scheduled origin call =>
    cases origin with
    | request cid => rfl
    | delayed => rfl
    | _ => cases h
  | _ => rfl

variable {st : SchedState}

theorem startsOf_log (h : start? j e=none) : startsOf j (st.log e).trace=startsOf j st.trace := by
  show (st.trace++[e]).filterMap (start? j)=_
  rw [List.filterMap_append]
  simp [h,startsOf]

/-- The parts of a worker that concern a join. -/
structure View where
  /-- Hints of every function. -/
  hints : UMap Str (List RerunTriggerTimeout)
  /-- Known applications. -/
  infos : UMap Str AppInfo
  /-- Applications of the buckets. -/
  owners : UMap Bucket Str
  pointers : UMap Bucket (List TriggerPointer)
  /-- Values of small objects. -/
  vals : UMap Str Str
  /-- Lengths of objects. -/
  lens : UMap Str UInt32
  /-- Checks for re-execution. -/
  queue : List RerunCheckQueueItem
  /-- What has happened. -/
  trace : List SchedEvent

/-- The parts of a state. -/
def view (st : SchedState) : View :=
  ⟨st.tables.funcTriggerTimeoutMap,st.tables.appInfoMap,st.tables.bucketAppMap,
    st.tables.bucketTriggersMap,st.keyValMap,st.keyLenMap,st.rerunCheckQueue,st.trace⟩

/-- How far a join is. -/
structure Progress where
  /-- Keys that have arrived. -/
  prepared : USet Key
  /-- Value of the object of a source, if it is small. -/
  value : Str → Option Str
  /-- Length of the object of a source. -/
  length : Str → Option UInt32
  /-- Starts of the target. -/
  starts : List Invocation

/-- The only trigger of the bucket waits for the keys and has some of them. -/
def Watches (j : Join) (prepared : USet Key) (pointers : List TriggerPointer) : Prop :=
  ∃ id trigger,pointers=[⟨id,⟨j.target,dependencyTriggerName "1" j.target,0,.bySet trigger⟩⟩] ∧
    trigger.keySet=j.keys ∧ trigger.sessionPreparedKeysMap.getD j.session ∅=prepared

/-- A worker at which a join is so far. -/
structure Gathered (j : Join) (g : Progress) (v : View) : Prop where
  hints : ∀ func,v.hints.getD func []=[]
  /-- Nothing is checked for re-execution. -/
  queue : v.queue=[]
  /-- The sources start nothing directly. -/
  undirected : ∀ app,∀ func∈j.sources,(v.infos.getD app .unset).directDeps.find? func=none
  /-- The bucket belongs to the application. -/
  owner : v.owners.getD j.bucket []=j.app
  /-- The trigger of the bucket. -/
  watches : Watches j g.prepared (v.pointers.getD j.bucket [])
  /-- The values of small objects. -/
  values : ∀ func∈j.sources,v.vals.find? (j.object func)=g.value func
  lengths : ∀ func∈j.sources,∀ n,g.length func=some n → v.lens.find? (j.object func)=some n
  /-- The target has been started so often. -/
  starts : startsOf j v.trace=g.starts

variable {g : Progress}

variable {v : View}

/-- Lengths of other objects are set. -/
theorem Gathered.setLen (h : Gathered j g v) (hn : Apart j name) (n : UInt32) :
    Gathered j g {v with lens := v.lens.set name n} := by
  refine ⟨h.hints,h.queue,h.undirected,h.owner,h.watches,h.values,fun func hf m hm => ?_,h.starts⟩
  show (v.lens.set name n).find? (j.object func)=some m
  rw [UMap.find?_set_of_ne _ (hn func hf)]
  exact h.lengths func hf m hm

theorem Gathered.setVal (h : Gathered j g v) (hn : Apart j name) (value : Str) :
    Gathered j g {v with vals := v.vals.set name value} := by
  refine ⟨h.hints,h.queue,h.undirected,h.owner,h.watches,fun func hf => ?_,h.lengths,h.starts⟩
  show (v.vals.set name value).find? (j.object func)=g.value func
  rw [UMap.find?_set_of_ne _ (hn func hf)]
  exact h.values func hf

/-- What scheduling and the tables of the loop change does not concern the join. -/
theorem gathered_frame (j : Join) (g : Progress) : LoopFrame (fun e => start? j e=none)
    (fun a b => Gathered j g (view a) → Gathered j g (view b)) where
  toReadFrame := .of_idle (fun _ _ hi hg => ⟨fun func => by rw [view,hi.hints]; exact hg.hints func,
      hi.rerunCheckQueue.trans hg.queue,
      fun app func hf => by rw [view,hi.appInfos]; exact hg.undirected app func hf,
      (hi.bucketApps _).trans hg.owner,by rw [view,hi.triggers.1]; exact hg.watches,
      fun func hf => by rw [view,hi.keyValMap]; exact hg.values func hf,
      fun func hf n hn => hi.keyLenMap _ n (hg.lengths func hf n hn),
      by rw [view,hi.trace]; exact hg.starts⟩) (fun _ _ _ h h' hg => h' (h hg))
    fun st e he hg => ⟨hg.hints,hg.queue,hg.undirected,hg.owner,hg.watches,hg.values,hg.lengths,
      (startsOf_log he).trans hg.starts⟩
  noteHints st call time hg := by
    rw [noteHints_hintless time (hg.hints call.funcName)]
    exact ⟨fun func => (UMap.getD_touch _ _ func _).trans (hg.hints func),hg.queue,hg.undirected,
      hg.owner,hg.watches,hg.values,hg.lengths,hg.starts⟩
  delayCallQueue _ _ h := h
  rerunCheckQueue st queue hq hg := by
    have hempty : queue=[] := by
      rw [List.eq_nil_iff_forall_not_mem]
      intro item hm
      have hold := hq item hm
      rw [show st.rerunCheckQueue=[] from hg.queue] at hold
      cases hold
    exact ⟨hg.hints,hempty,hg.undirected,hg.owner,hg.watches,hg.values,hg.lengths,hg.starts⟩
  numbers _ _ _ h := h
  inflight _ _ h := h
  awaited _ _ h := h

/-- Key of the object in a data response. -/
def dataKey (msg : Str) : Str := (msg.drop 1).take (msg.head?.getD 0).toNat

/-- Everything but updates and objects of the session: ephemeral objects are
sent from other sessions and cut into other sessions, and data of other
sessions arrives. -/
def Foreign (j : Join) : SchedLabel → Prop
  | .executor msg => (msg++[nulChar])[1]?=some 2 → ∀ info,objectInfo (cString msg 4)=some info →
      info.sessionId≠j.session ∧
        (BucketKey.ofSessionKey info.bucket info.sessionKey).session≠j.session
  | .update _ => False
  | .data msg => ¬j.session <:+ dataKey msg
  | _ => True

/-- Whatever a function of another session sends through its library, under
plain names, is foreign. -/
theorem foreign_of_library (hj : j.WellNamed) {other : UserLibrary} {bucket key target : Str}
    (hnames : PlainNames other bucket key target) (hlength : other.sessionId.length=16)
    (hother : other.sessionId≠j.session) (value : Str) :
    Foreign j (.executor (objectMessage other bucket key target value)) := by
  intro _ info hinfo
  rw [objectMessage_eq] at hinfo
  have hread := (objectInfo_fields hnames value (textOf value)).symm.trans hinfo
  split at hread
  · cases hread
  · cases hread
    refine ⟨hother,?_⟩
    show (BucketKey.ofSessionKey bucket (getKeySessionName key other.sessionId)).session≠j.session
    by_cases hk : key=[]
    · have hshort : ¬(getKeySessionName key other.sessionId).length>16 := by
        rw [getKeySessionName,hk,List.nil_append,hlength]
        omega
      rw [BucketKey.ofSessionKey,if_neg hshort]
      intro he
      have hlen := hj.length
      rw [←he] at hlen
      cases hlen
    · rw [BucketKey.ofSessionKey_append hk hlength]
      exact hother

theorem actionForNewObject_keySet (target : Str) (t : BySetTrigger) (bk : BucketKey) :
    (t.actionForNewObject target bk).1.keySet=t.keySet := by
  unfold BySetTrigger.actionForNewObject
  split
  · dsimp only
    split <;> rfl
  · rfl

variable {bk : BucketKey}

/-- An object concerns the keys of its own session only. -/
theorem actionForNewObject_prepared (target : Str) (t : BySetTrigger) {session : Session}
    (hs : bk.session≠session) :
    (t.actionForNewObject target bk).1.sessionPreparedKeysMap.getD session ∅=
      t.sessionPreparedKeysMap.getD session ∅ := by
  unfold BySetTrigger.actionForNewObject
  split
  · dsimp only
    split
    · rw [UMap.getD_erase,if_neg hs.symm,UMap.getD_set,if_neg hs.symm]
    · rw [UMap.getD_set,if_neg hs.symm]
  · rfl

theorem arrivedAt_gathered {cfg : SchedulerConfig} (hs : bk.session≠j.session)
    (hg : Gathered j g (view st)) : Gathered j g (view (arrivedAt cfg st bk)) := by
  refine ⟨hg.hints,hg.queue,hg.undirected,hg.owner,?_,hg.values,hg.lengths,hg.starts⟩
  obtain ⟨id,trigger,hp,hkeys,hprepared⟩ := hg.watches
  have hp' : st.tables.bucketTriggersMap.getD j.bucket []=_ := hp
  by_cases hb : j.bucket=bk.bucket
  · refine ⟨id,(trigger.actionForNewObject j.target bk).1,?_,?_,?_⟩
    · show (st.tables.bucketTriggersMap.set bk.bucket _).getD j.bucket []=_
      rw [UMap.getD_set,if_pos hb,←hb]
      simp only [readClock,hp']
      rfl
    · rw [actionForNewObject_keySet,hkeys]
    · rw [actionForNewObject_prepared _ _ hs,hprepared]
  · refine ⟨id,trigger,?_,hkeys,hprepared⟩
    show (st.tables.bucketTriggersMap.set bk.bucket _).getD j.bucket []=_
    rw [UMap.getD_set,if_neg hb]
    exact hp'

variable {cfg : SchedulerConfig}

/-- Start and end of a computation at which the join is equally far. -/
abbrev Keeping (j : Join) (g : Progress) (a b : SchedState) : Prop :=
  Gathered j g (view a) → Gathered j g (view b)

theorem recordObject_gathered (hn : Apart j info.objName) (isDataPacking : UInt8) (st : SchedState) :
    Leads (Keeping j g) st id (recordObject st isDataPacking info) := by
  refine (gathered_frame j g).recordObject (fun st vals size hvals hg => ?_) st isDataPacking
  rcases hvals with rfl|rfl
  · exact hg.setLen hn size
  · exact (hg.setVal hn info.value).setLen hn size

theorem recvEphemeral_gathered (hn : Apart j info.objName) (hsession : info.sessionId≠j.session)
    (hkey : (BucketKey.ofSessionKey info.bucket info.sessionKey).session≠j.session)
    (isDataPacking : UInt8) (st : SchedState) :
    Leads (Keeping j g) st id (recvEphemeral cfg st isDataPacking info) := by
  have hframe := gathered_frame j g
  have hP : ∀ e,Routine e → start? j e=none := fun e he => start?_of_routine he
  have hother : ∀ call : Invocation,call.sessionId=info.sessionId →
      ¬(call.sessionId=j.session ∧ call.funcName=j.target) :=
    fun call he hc => hsession (he.symm.trans hc.1)
  rw [recvEphemeral_eq]
  refine (recordObject_gathered hn isDataPacking st).bind hframe.trans fun st1 _ => ?_
  have htouch := hframe.consulted st1 info.srcFunction
  dsimp only [id]
  split
  · refine (hframe.directInvocation (calling_of_routine hP) (fun call hc _ => ?_) _ _
      isDataPacking).after hframe.trans htouch
    exact if_neg (hother call hc)
  · split
    · refine ((hframe.callFrame (calling_of_routine hP)).triggerCheck (fun _ _ => rfl) hframe.counted
        (arrivedAt_gathered hkey) (fun call hc => ?_) isDataPacking).leads.after hframe.trans htouch
      exact if_neg (hother call hc)
    · exact htouch

theorem answerWaiting_gathered (st : SchedState) (key body : Str) :
    Leads (Keeping j g) st id (answerWaiting cfg st key body) :=
  (gathered_frame j g).answerWaiting (fun _ _ => rfl) (fun _ _ hg => hg) st key

variable {msg : Str}

theorem recvExecutor_gathered (hj : j.WellNamed) (hmsg : Foreign j (.executor msg))
    (st : SchedState) : Leads (Keeping j g) st id (recvExecutor cfg st msg) := by
  have hframe := gathered_frame j g
  have hP : ∀ e,Routine e → start? j e=none := fun e he => start?_of_routine he
  refine hframe.recvExecutor hP (fun _ _ _ => ?_) (fun hk packing info hinfo => ?_) fun _ _ _ => ?_
  · exact hframe.recvGet hP (fun _ => rfl) (fun _ _ hg => hg) st
  · obtain ⟨hsession,hkey⟩ := hmsg hk info hinfo
    have hbucket := delimiter_not_mem_info hinfo info.bucket (by simp)
    exact recvEphemeral_gathered (apart_objName hj hbucket hkey) hsession hkey packing st
  · exact hframe.recvPersistent (fun _ _ h => h) (fun _ _ _ => rfl) st _ _

theorem recvDataMessage_gathered (hmsg : Foreign j (.data msg)) (st : SchedState) :
    Leads (Keeping j g) st id (recvDataMessage cfg st msg) := by
  have hframe := gathered_frame j g
  have hP : ∀ e,Routine e → start? j e=none := fun e he => start?_of_routine he
  unfold recvDataMessage
  refine (leads_orFault (hframe.refl st) _).bind hframe.trans fun keyLen hlen => ?_
  have hkey : dataKey msg=(msg.drop 1).take keyLen.toNat := by
    rw [dataKey,orFault_eq_ok hlen]
    rfl
  dsimp only
  split
  · refine ((hframe.callFrame (calling_of_routine hP)).recvData (routine_request hP)
      ?_).leads.after hframe.trans (hframe.shm st _)
    refine ((answerWaiting_gathered _ _ _).after hframe.trans fun hg => ?_).or fun _ _ h => h
    exact hg.setLen (apart_of_suffix (hkey ▸ hmsg)) _
  · exact hframe.refl st

/-- Names of durable objects are other names. -/
theorem apart_kvs (key : Str) : Apart j (kvsKeyPrefix++kDelimiter++key) := by
  intro func _ he
  have hobject : (j.object func).head?=some 98 := rfl
  have hkvs : (kvsKeyPrefix++kDelimiter++key).head?=some 75 := rfl
  rw [he,hkvs] at hobject
  cases hobject

/-- Without checks in the queue the periodic part only reports. -/
theorem reportTimer_gathered (fuel : ℕ) (st : SchedState) :
    Leads (Keeping j g) st id (reportTimer cfg fuel st) := by
  have hframe := gathered_frame j g
  by_cases hq : st.rerunCheckQueue=[]
  · have hcheck : Leads (Keeping j g) st id (rerunCheck cfg (readClock cfg st).1 fuel
        (readClock cfg st).2) := by
      cases fuel with
      | zero => exact hframe.tick st
      | succ fuel =>
        have hnone : firstCheck (readClock cfg st).2.rerunCheckQueue=none := by
          show firstCheck st.rerunCheckQueue=none
          rw [hq]
          rfl
        rw [rerunCheck,hnone]
        exact hframe.tick st
    exact hcheck.bind hframe.trans fun st1 _ => hframe.updateStatus (fun _ _ => rfl) st1 _
  · have hno : ∀ b,Keeping j g st b := fun _ hg => absurd hg.queue hq
    cases reportTimer cfg fuel st with
    | ok b => exact hno b
    | error b => exact hno b

/-- No step of another session concerns the join. -/
theorem outcome_gathered (hj : j.WellNamed) {l : SchedLabel} (hl : Foreign j l) (st : SchedState) :
    Leads (Keeping j g) st id (outcome cfg st l) := by
  have hframe := gathered_frame j g
  have hP : ∀ e,Routine e → start? j e=none := fun e he => start?_of_routine he
  cases l with
  | executor msg => exact recvExecutor_gathered hj hl st
  | update msg => cases hl
  | call msg =>
    exact ((hframe.callFrame (calling_of_routine hP)).recvCall
      (fun _ _ => rfl) (fun _ _ => rfl) (routine_request hP) st msg).leads
  | data msg => exact recvDataMessage_gathered hl st
  | kvsGet key value =>
    exact (answerWaiting_gathered _ _ _).after hframe.trans fun hg => hg.setLen (apart_kvs key) _
  | kvsPut key => exact hframe.recvKvsPut (fun _ _ => rfl) (fun _ _ hg => hg) st key
  | delay => exact hframe.delayForwarding hP st
  | report fuel => exact reportTimer_gathered fuel st
  | write name data => exact hframe.shm st _

/-- Every source runs in the session and sends a value that is not empty,
plain, and not larger than the created object. -/
structure Taking (j : Join) (lib : Str → UserLibrary) (value : Str → Str) : Prop where
  /-- The library knows the function. -/
  function : ∀ func∈j.srcs,(lib func).function=func
  /-- The library knows the session. -/
  session : ∀ func∈j.srcs,(lib func).sessionId=j.session
  nonempty : ∀ func∈j.srcs,value func≠[]
  plain : ∀ func∈j.srcs,Plain (value func)
  /-- Values fit into the created object. -/
  fits : ∀ func∈j.srcs,(value func).length≤objectCapacity

variable {lib : Str → UserLibrary} {value : Str → Str} {func : Str}

/-- The object of one more source is recorded. -/
def Progress.sent (g : Progress) (value : Str → Str) (func : Str) : Progress :=
  {g with
    value := fun f => if f=func ∧ (value func).length≤ msgDataPackingThreshold
      then some (value func) else g.value f
    length := fun f => if f=func then some (UInt32.ofNat (value func).length) else g.length f}

theorem object_injective (j : Join) : Function.Injective j.object := by
  intro f f' h
  have hkey : sourceKey f++j.session=sourceKey f'++j.session := List.append_cancel_left h
  exact sourceKey_injective (List.append_cancel_right hkey)

theorem recordedObject_gathered (hg : Gathered j g (view st)) (value : Str → Str) (func : Str) :
    Gathered j (g.sent value func) (view (recordedObject st (j.object func) (value func))) := by
  refine ⟨hg.hints,hg.queue,hg.undirected,hg.owner,hg.watches,fun f hf => ?_,fun f hf n hn => ?_,hg.starts⟩
  · have hold : st.keyValMap.find? (j.object f)=g.value f := hg.values f hf
    show (if (value func).length≤ msgDataPackingThreshold then
        st.keyValMap.set (j.object func) (value func) else st.keyValMap).find? (j.object f)=
      if f=func ∧ (value func).length≤ msgDataPackingThreshold then some (value func) else g.value f
    by_cases hsmall : (value func).length≤ msgDataPackingThreshold
    · rw [if_pos hsmall,UMap.find?_set,hold]
      simp [hsmall,(object_injective j).eq_iff]
    · rw [if_neg hsmall,hold]
      simp [hsmall]
  · show (st.keyLenMap.set (j.object func) (UInt32.ofNat (value func).length)).find? (j.object f)=some n
    have hn' : (if f=func then some (UInt32.ofNat (value func).length) else g.length f)=some n := hn
    rw [UMap.find?_set]
    by_cases he : f=func
    · rw [if_pos he] at hn'
      rw [if_pos (congrArg j.object he),hn']
    · rw [if_neg he] at hn'
      rw [if_neg fun h => he (object_injective j h)]
      exact hg.lengths f hf n hn'

/-- What the scheduler reads of the object of a source. -/
def ownInfo (j : Join) (lib : Str → UserLibrary) (value : Str → Str) (func : Str) : ObjectInfo :=
  sentInfo (lib func) j.bucket (sourceKey func) j.target (textOf (value func))

theorem plainNames_of_source (hj : j.WellNamed) (ht : Taking j lib value) (hf : func∈j.sources) :
    PlainNames (lib func) j.bucket (sourceKey func) j.target := by
  have hf' := j.mem_srcs.mp hf
  have hfunction : Plain (lib func).function := by
    rw [ht.function func hf']
    exact hj.sources func hf'
  exact ⟨ht.session func hf' ▸ hj.session,hfunction,hj.target,hj.bucket,hj.key hf⟩

theorem sendFor_eq (ht : Taking j lib value) (hf : func∈j.sources) :
    sendFor (lib func) j.target (value func)=
      objectMessage (lib func) j.bucket (sourceKey func) j.target (value func) := by
  rw [sendFor,createObjectFor,ht.function func (j.mem_srcs.mp hf)]
  rfl

/-- The scheduler reads the object of a source as one of the bucket, the key
and the session that the trigger waits for. -/
theorem ownInfo_read (hj : j.WellNamed) (ht : Taking j lib value) (hf : func∈j.sources) :
    objectInfo (cString (sendFor (lib func) j.target (value func)) 4)=some (ownInfo j lib value func) ∧
      BucketKey.ofSessionKey (ownInfo j lib value func).bucket (ownInfo j lib value func).sessionKey=
        ⟨j.bucket,sourceKey func,j.session⟩ := by
  have hf' := j.mem_srcs.mp hf
  constructor
  · rw [sendFor_eq ht hf]
    exact objectInfo_sent (plainNames_of_source hj ht hf) (ht.nonempty func hf') (ht.plain func hf')
  · show BucketKey.ofSessionKey j.bucket (getKeySessionName (sourceKey func) (lib func).sessionId)=_
    rw [ht.session func hf']
    exact BucketKey.ofSessionKey_append (List.append_ne_nil_of_left_ne_nil (by decide) _) hj.length

/-- The object of a source is recorded and checked against the triggers. -/
theorem recvExecutor_own (cfg : SchedulerConfig) (hj : j.WellNamed) (ht : Taking j lib value)
    (hf : func∈j.sources) (hg : Gathered j g (view st)) :
    ∃ st1,recvExecutor cfg st (sendFor (lib func) j.target (value func))=
        triggerCheck cfg st1 (packingOf (value func)) (ownInfo j lib value func) ∧
      Gathered j (g.sent value func) (view st1) := by
  have hf' := j.mem_srcs.mp hf
  have hsize : (value func).length<2^31 := by
    have hfits := ht.fits func hf'
    unfold objectCapacity at hfits
    omega
  have hname : (ownInfo j lib value func).objName=j.object func := by
    show j.bucket++kDelimiter++getKeySessionName (sourceKey func) (lib func).sessionId=_
    rw [ht.session func hf']
    rfl
  have hrec : recordObject st (packingOf (value func)) (ownInfo j lib value func)=
      .ok (recordedObject st (j.object func) (value func)) :=
    hname ▸ recordObject_sent st rfl hsize
  have hg1 := recordedObject_gathered hg value func
  generalize recordedObject st (j.object func) (value func)=st1 at hrec hg1
  have hframe := gathered_frame j (g.sent value func)
  have hsource : (ownInfo j lib value func).srcFunction=func := ht.function func hf'
  have hbucket : (ownInfo j lib value func).bucket≠bucketNameDirectInvoc := by
    intro he
    have hhead : (str "b_"++j.target).head?=bucketNameDirectInvoc.head? := congrArg List.head? he
    cases hhead
  have hnone : directTargets st1 (ownInfo j lib value func).srcFunction=none := by
    rw [hsource]
    exact hg1.undirected _ func hf
  refine ⟨consulted st1 (ownInfo j lib value func).srcFunction,?_,hframe.consulted st1 _ hg1⟩
  rw [sendFor_eq ht hf,recvExecutor_sent cfg st (plainNames_of_source hj ht hf)
    (ht.nonempty func hf') (ht.plain func hf')]
  exact recvEphemeral_check hrec hnone hbucket

/-- The object of a source, as the triggers see it. -/
def ownKey (j : Join) (func : Str) : BucketKey := ⟨j.bucket,sourceKey func,j.session⟩

/-- An object of the session arrives; what the trigger becomes and what it
asks for follow from the arrival at the set. -/
theorem arrive_own (cfg : SchedulerConfig) (hg : Gathered j g (view st)) (func : Str) :
    ∃ trigger : BySetTrigger,trigger.keySet=j.keys ∧
      trigger.sessionPreparedKeysMap.getD j.session ∅=g.prepared ∧
      ∃ id,(arrivedAt cfg st (ownKey j func)).tables.bucketTriggersMap.getD j.bucket []=
          [⟨id,⟨j.target,dependencyTriggerName "1" j.target,0,
            .bySet (trigger.actionForNewObject j.target (ownKey j func)).1⟩⟩] ∧
        checkObjectArrival cfg st (ownKey j func)=
          (firedNames [(⟨j.target,dependencyTriggerName "1" j.target,0,
              .bySet (trigger.actionForNewObject j.target (ownKey j func)).1⟩,
            (trigger.actionForNewObject j.target (ownKey j func)).2)],
          activeFuncMetadatas j.bucket [(⟨j.target,dependencyTriggerName "1" j.target,0,
              .bySet (trigger.actionForNewObject j.target (ownKey j func)).1⟩,
            (trigger.actionForNewObject j.target (ownKey j func)).2)]
            (arrivedAt cfg st (ownKey j func))) := by
  obtain ⟨id,trigger,hp,hkeys,hprepared⟩ := hg.watches
  have hp' : st.tables.bucketTriggersMap.getD (ownKey j func).bucket []=_ := hp
  refine ⟨trigger,hkeys,hprepared,id,?_,?_⟩
  · show (st.tables.bucketTriggersMap.set j.bucket _).getD j.bucket []=_
    rw [UMap.getD_set_self]
    simp only [readClock,hp']
    rfl
  · rw [checkObjectArrival_eq,hp']
    rfl

/-- With keys still missing the object is only noted. -/
theorem arrive_incomplete (cfg : SchedulerConfig) (hg : Gathered j g (view st))
    (hf : func∈j.sources) (hsize : (g.prepared.insert (sourceKey func)).size≠j.keys.size) :
    checkObjectArrival cfg st (ownKey j func)=([],[],arrivedAt cfg st (ownKey j func)) ∧
      Gathered j {g with prepared := g.prepared.insert (sourceKey func)}
        (view (arrivedAt cfg st (ownKey j func))) := by
  obtain ⟨trigger,hkeys,hprepared,id,hp,hcheck⟩ := arrive_own cfg hg func
  have hmem : (ownKey j func).key∈trigger.keySet := by
    rw [hkeys]
    exact j.sourceKey_mem_keys.mpr hf
  have hsize' : ¬((trigger.sessionPreparedKeysMap.getD (ownKey j func).session ∅).insert
      (ownKey j func).key).size=trigger.keySet.size := by
    show ¬((trigger.sessionPreparedKeysMap.getD j.session ∅).insert (sourceKey func)).size=_
    rw [hprepared,hkeys]
    exact hsize
  rw [BySetTrigger.actionForNewObject,if_pos hmem] at hp hcheck
  dsimp only at hp hcheck
  rw [if_neg hsize'] at hp hcheck
  refine ⟨hcheck,hg.hints,hg.queue,hg.undirected,hg.owner,?_,hg.values,hg.lengths,hg.starts⟩
  refine ⟨id,_,hp,hkeys,?_⟩
  show (trigger.sessionPreparedKeysMap.set j.session _).getD j.session ∅=_
  rw [UMap.getD_set_self,←hprepared]
  rfl

/-- The objects of all sources are known. -/
structure Complete (j : Join) (value : Str → Str) (g : Progress) : Prop where
  cached : ∀ func∈j.sources,g.value func=
    if (value func).length≤ msgDataPackingThreshold then some (value func) else none
  known : ∀ func∈j.sources,g.length func=some (UInt32.ofNat (value func).length)

/-- Reading the values of objects: all are cached, or some is not. -/
theorem mapM_values {vals : UMap Str Str} {funcs : List Str}
    (h : ∀ func∈funcs,vals.find? (j.object func)=
      if (value func).length≤ msgDataPackingThreshold then some (value func) else none) :
    (funcs.map j.object).mapM (fun name => vals.find? name)=
      if ∀ func∈funcs,(value func).length≤ msgDataPackingThreshold then some (funcs.map value)
      else none := by
  induction funcs with
  | nil => rfl
  | cons func funcs ih =>
    obtain ⟨hhead,htail⟩ := List.forall_mem_cons.mp h
    rw [List.map_cons,List.mapM_cons,hhead,ih htail]
    have hiff : (∀ f∈func::funcs,(value f).length≤ msgDataPackingThreshold) ↔
        (value func).length≤ msgDataPackingThreshold ∧
          ∀ f∈funcs,(value f).length≤ msgDataPackingThreshold := List.forall_mem_cons
    by_cases hsmall : (value func).length≤ msgDataPackingThreshold
    · by_cases hrest : ∀ f∈funcs,(value f).length≤ msgDataPackingThreshold
      · rw [if_pos hsmall,if_pos hrest,if_pos (hiff.mpr ⟨hsmall,hrest⟩)]
        rfl
      · rw [if_pos hsmall,if_neg hrest,if_neg fun hall => hrest (hiff.mp hall).2]
        rfl
    · rw [if_neg hsmall,if_neg fun hall => hsmall (hiff.mp hall).1]
      rfl

theorem activeFuncMetadatas_single (bucket : Bucket) (r : Trigger×List TriggerAction) (st : SchedState) :
    activeFuncMetadatas bucket [r] st=activeFuncMetadata bucket (r.1.triggerOption+1) r.2 st := by
  rw [activeFuncMetadatas,activeFuncMetadatas]
  dsimp only
  rw [List.append_nil]

/-- The arguments of the action that names all objects. -/
theorem activeFuncMetadata_join (hg : Gathered j g (view st)) (hc : Complete j value g)
    (ht : Taking j lib value) :
    activeFuncMetadata j.bucket 1 [⟨j.target,j.keys.elems.map fun key => (j.session,key)⟩] st=
      ([⟨j.target,(j.arguments value).1,(j.arguments value).2⟩],st) := by
  have hnames : ((j.keys.elems.map fun key => (j.session,key)).map fun sessionKey =>
      getLocalObjectName j.bucket sessionKey.2 sessionKey.1)=j.sources.elems.map j.object := by
    rw [j.keys_elems,List.map_map,List.map_map]
    rfl
  have hlen : ∀ func∈j.sources.elems,st.keyLenMap.find? (j.object func)=
      some (UInt32.ofNat (value func).length) := fun func hf => hg.lengths func hf _ (hc.known func hf)
  have hvals : ∀ func∈j.sources.elems,st.keyValMap.find? (j.object func)=
      if (value func).length≤ msgDataPackingThreshold then some (value func) else none :=
    fun func hf => (hg.values func hf).trans (hc.cached func hf)
  have hknown : ∀ name∈j.sources.elems.map j.object,st.keyLenMap.contains name=true := by
    intro name hn
    obtain ⟨func,hf,rfl⟩ := List.mem_map.mp hn
    exact UMap.contains_eq_true_iff.mpr ⟨_,hlen func hf⟩
  have hsized : keyedArgs st.keyLenMap (j.sources.elems.map j.object)=
      j.sources.elems.flatMap fun func => [j.object func,decimal (value func).length] := by
    rw [keyedArgs,List.flatMap_map]
    apply List.flatMap_congr
    intro func hf
    have hfits := ht.fits func (j.mem_srcs.mp hf)
    have hnat : (UInt32.ofNat (value func).length).toNat=(value func).length := by
      rw [UInt32.toNat_ofNat',Nat.mod_eq_of_lt]
      unfold objectCapacity at hfits
      omega
    rw [UMap.getD,hlen func hf]
    show [j.object func,decimal (UInt32.ofNat (value func).length).toNat]=_
    rw [hnat]
  rw [activeFuncMetadata]
  dsimp only
  rw [hnames,mapM_values hvals,Join.arguments]
  by_cases hall : ∀ func∈j.sources.elems,(value func).length≤ msgDataPackingThreshold
  · rw [if_pos hall,if_pos hall]
    rfl
  · rw [if_neg hall,if_neg hall,sizedArgs_known st hknown,hsized]
    rfl

/-- With the last key the trigger asks for the target with all objects and
forgets the session. -/
theorem arrive_complete (cfg : SchedulerConfig) (hg : Gathered j g (view st)) (hf : func∈j.sources)
    (hsize : (g.prepared.insert (sourceKey func)).size=j.keys.size) (hc : Complete j value g)
    (ht : Taking j lib value) :
    checkObjectArrival cfg st (ownKey j func)=([dependencyTriggerName "1" j.target],
        [⟨j.target,(j.arguments value).1,(j.arguments value).2⟩],arrivedAt cfg st (ownKey j func)) ∧
      Gathered j {g with prepared := ∅} (view (arrivedAt cfg st (ownKey j func))) := by
  obtain ⟨trigger,hkeys,hprepared,id,hp,hcheck⟩ := arrive_own cfg hg func
  have hmem : (ownKey j func).key∈trigger.keySet := by
    rw [hkeys]
    exact j.sourceKey_mem_keys.mpr hf
  have hsize' : ((trigger.sessionPreparedKeysMap.getD (ownKey j func).session ∅).insert
      (ownKey j func).key).size=trigger.keySet.size := by
    show ((trigger.sessionPreparedKeysMap.getD j.session ∅).insert (sourceKey func)).size=_
    rw [hprepared,hkeys]
    exact hsize
  rw [BySetTrigger.actionForNewObject,if_pos hmem] at hp hcheck
  dsimp only at hp hcheck
  rw [if_pos hsize'] at hp hcheck
  have hg' : Gathered j {g with prepared := ∅} (view (arrivedAt cfg st (ownKey j func))) := by
    refine ⟨hg.hints,hg.queue,hg.undirected,hg.owner,?_,hg.values,hg.lengths,hg.starts⟩
    refine ⟨id,_,hp,hkeys,?_⟩
    show ((trigger.sessionPreparedKeysMap.set j.session _).erase j.session).getD j.session ∅=_
    rw [UMap.getD_erase,if_pos rfl]
  have hc' : Complete j value {g with prepared := ∅} := ⟨hc.cached,hc.known⟩
  refine ⟨?_,hg'⟩
  rw [hcheck,hkeys,activeFuncMetadatas_single]
  exact congrArg (Prod.mk [dependencyTriggerName "1" j.target]) (activeFuncMetadata_join hg' hc' ht)

/-- One more key has arrived. -/
def Progress.noted (g : Progress) (value : Str → Str) (func : Str) : Progress :=
  {g.sent value func with prepared := g.prepared.insert (sourceKey func)}

/-- The last key has arrived and the target is started. -/
def Progress.started (g : Progress) (j : Join) (value : Str → Str) (func : Str) : Progress :=
  {g.sent value func with
    prepared := ∅
    starts := g.starts++[j.call value]}

/-- An object before the last one never faults and starts nothing. -/
theorem own_incomplete (cfg : SchedulerConfig) (hj : j.WellNamed) (ht : Taking j lib value)
    (hf : func∈j.sources) (hg : Gathered j g (view st))
    (hsize : (g.prepared.insert (sourceKey func)).size≠j.keys.size) :
    ∃ st',recvExecutor cfg st (sendFor (lib func) j.target (value func))=.ok st' ∧
      Gathered j (g.noted value func) (view st') := by
  obtain ⟨st1,hrun,hg1⟩ := recvExecutor_own cfg hj ht hf hg
  obtain ⟨hcheck,hg2⟩ := arrive_incomplete cfg hg1 hf hsize
  have hframe := gathered_frame j (g.noted value func)
  rw [hrun,triggerCheck_eq,(ownInfo_read hj ht hf).2]
  change ∃ st',(checkTrigger cfg st1 (ownKey j func) _ >>= _)=.ok st' ∧ _
  rw [checkTrigger_none hcheck]
  exact ⟨_,rfl,hframe.numbers _ _ _ (hframe.notified (fun _ _ => rfl) _ _ _ _ _ hg2)⟩

/-- The trigger's call is recorded as a start of the target. -/
theorem scheduleTriggered_started (hg : Gathered j {g.sent value func with prepared := ∅} (view st)) :
    Ends (fun st' => Gathered j (g.started j value func) (view st')) id
      (scheduleTriggered cfg j.bucket j.session st
        ⟨j.target,(j.arguments value).1,(j.arguments value).2⟩) := by
  have hframe := gathered_frame j (g.started j value func)
  have hP : ∀ e,Routine e → start? j e=none := fun e he => start?_of_routine he
  have howner : st.tables.bucketAppMap.getD j.bucket []=j.app := hg.owner
  unfold scheduleTriggered
  rw [howner]
  have hg1 := (gathered_frame j {g.sent value func with prepared := ∅}).bucketApp st j.bucket hg
  generalize ({st with
    tables := {st.tables with
      bucketAppMap := st.tables.bucketAppMap.touch j.bucket []}} : SchedState)=st1 at hg1 ⊢
  have hlog : Gathered j (g.started j value func)
      (view (st1.log (.scheduled .trigger (j.call value)))) := by
    refine ⟨hg1.hints,hg1.queue,hg1.undirected,hg1.owner,hg1.watches,hg1.values,hg1.lengths,?_⟩
    have hone : start? j (.scheduled .trigger (j.call value))=some (j.call value) := if_pos ⟨rfl,rfl⟩
    have hold : startsOf j st1.trace=g.starts := hg1.starts
    change (st1.trace++[SchedEvent.scheduled .trigger (j.call value)]).filterMap (start? j)=
      g.starts++[j.call value]
    rw [List.filterMap_append,List.filterMap_cons_some hone,←hold]
    rfl
  exact (hframe.scheduleFuncCall (fun e he => hP e (routine_of_calling (calling_of_callEvent he)))
    (fun st _ => hframe.delayCallQueue st _) (fun st time => hframe.noteHints st _ time) .trigger
    st1).ends fun st' h => h hlog

/-- The last object starts the target with all objects, also if a fault
follows. -/
theorem own_complete (cfg : SchedulerConfig) (hj : j.WellNamed) (ht : Taking j lib value)
    (hf : func∈j.sources) (hg : Gathered j g (view st))
    (hsize : (g.prepared.insert (sourceKey func)).size=j.keys.size)
    (hc : Complete j value (g.sent value func)) :
    Ends (fun st' => Gathered j (g.started j value func) (view st')) id
      (recvExecutor cfg st (sendFor (lib func) j.target (value func))) := by
  obtain ⟨st1,hrun,hg1⟩ := recvExecutor_own cfg hj ht hf hg
  obtain ⟨hcheck,hg2⟩ := arrive_complete cfg hg1 hf hsize hc ht
  have hframe := gathered_frame j (g.started j value func)
  have hsession : (ownInfo j lib value func).sessionId=j.session :=
    ht.session func (j.mem_srcs.mp hf)
  rw [hrun,triggerCheck_eq,(ownInfo_read hj ht hf).2,hsession]
  change Ends _ id (checkTrigger cfg st1 (ownKey j func) j.session >>= _)
  rw [checkTrigger_one hcheck]
  have hstart : Ends (fun st' => Gathered j (g.started j value func) (view st')) Prod.snd
      ((scheduleTriggered cfg j.bucket j.session (arrivedAt cfg st1 (ownKey j func))
        ⟨j.target,(j.arguments value).1,(j.arguments value).2⟩).map
          fun st => ([dependencyTriggerName "1" j.target],st)) :=
    (scheduleTriggered_started hg2).map fun _ h => h
  refine hstart.bind fun r _ h => ?_
  exact hframe.numbers _ _ _ (hframe.notified (fun _ _ => rfl) _ _ _ _ _ h)

/-- The progress after some sources have sent their objects. -/
def progress (value : Str → Str) (done : List Str) : Progress where
  prepared := USet.ofList (done.map sourceKey)
  value f := if f∈done ∧ (value f).length≤ msgDataPackingThreshold then some (value f) else none
  length f := if f∈done then some (UInt32.ofNat (value f).length) else none
  starts := []

theorem progress_concat (value : Str → Str) (done : List Str) (func : Str) :
    (progress value done).noted value func=progress value (done++[func]) := by
  have hprepared : (USet.ofList (done.map sourceKey)).insert (sourceKey func)=
      USet.ofList ((done++[func]).map sourceKey) := by
    rw [List.map_append,List.map_singleton,USet.ofList_concat]
  have hvalue : (fun f => if f=func ∧ (value func).length≤ msgDataPackingThreshold
        then some (value func) else (progress value done).value f)=
      (progress value (done++[func])).value := by
    funext f
    simp only [progress,List.mem_append,List.mem_singleton]
    by_cases he : f=func
    · subst he
      by_cases hsmall : (value f).length≤ msgDataPackingThreshold <;> simp [hsmall]
    · simp [he]
  have hlength : (fun f => if f=func then some (UInt32.ofNat (value func).length)
        else (progress value done).length f)=(progress value (done++[func])).length := by
    funext f
    simp only [progress,List.mem_append,List.mem_singleton]
    by_cases he : f=func
    · simp [he]
    · simp [he]
  rw [Progress.noted,Progress.sent,hvalue,hlength]
  exact congrArg (fun p => Progress.mk p _ _ _) hprepared

/-- Steps of the worker: some sources send their objects, in an order, with
steps of other sessions before, between and after. -/
inductive Woven (j : Join) (send : Str → SchedLabel) : List Str → List SchedLabel → Prop
  | nil : Woven j send [] []
  | own {done : List Str} {ls : List SchedLabel} (func : Str) :
      Woven j send done ls → Woven j send (done++[func]) (ls++[send func])
  | other {done : List Str} {ls : List SchedLabel} {l : SchedLabel} : Foreign j l →
      Woven j send done ls → Woven j send done (ls++[l])

/-- The step in which a source sends its object. -/
def sendLabel (j : Join) (lib : Str → UserLibrary) (value : Str → Str) (func : Str) : SchedLabel :=
  .executor (sendFor (lib func) j.target (value func))

variable {done order rest : List Str}

/-- How many keys the sources of an order bring. -/
theorem prepared_size (value : Str → Str) (horder : order.Perm j.sources.elems)
    (hsplit : order=done++func::rest) :
    ((progress value done).prepared.insert (sourceKey func)).size=done.length+1 ∧
      j.keys.size=done.length+1+rest.length := by
  have hnodup : order.Nodup := horder.nodup_iff.mpr j.sources.nodup
  have hpre : (done++[func]).Nodup := by
    rw [hsplit,List.append_cons] at hnodup
    exact (List.nodup_append.mp hnodup).1
  have hset : (progress value done).prepared.insert (sourceKey func)=
      USet.ofList ((done++[func]).map sourceKey) := congrArg Progress.prepared (progress_concat value done func)
  constructor
  · rw [hset,USet.size,USet.elems_ofList (hpre.map sourceKey_injective)]
    simp
  · have hlen := horder.length_eq
    rw [hsplit] at hlen
    rw [USet.size,j.keys_elems,List.length_map,←hlen]
    simp
    omega

/-- With the last source all objects are known. -/
theorem complete_sent (value : Str → Str) (h : ∀ f∈j.sources,f∈done++[func]) :
    Complete j value ((progress value done).sent value func) := by
  have hlast := progress_concat value done func
  constructor
  · intro f hf
    have hvalue : ((progress value done).sent value func).value f=(progress value (done++[func])).value f :=
      congrFun (congrArg Progress.value hlast) f
    rw [hvalue]
    simp only [progress,h f hf,true_and]
  · intro f hf
    have hlength : ((progress value done).sent value func).length f=
      (progress value (done++[func])).length f := congrFun (congrArg Progress.length hlast) f
    rw [hlength]
    exact if_pos (h f hf)

variable {st1 : SchedState} {ls : List SchedLabel}

/-- As long as sources are missing, the worker knows exactly the objects that
have been sent, and the target is not started. -/
theorem woven_gathered (hj : j.WellNamed) (ht : Taking j lib value)
    (horder : order.Perm j.sources.elems) (hstart : Gathered j (progress value []) (view st1))
    (hw : Woven j (sendLabel j lib value) done ls) (hsplit : order=done++rest) (hrest : rest≠[])
    {st2 : SchedState} (hr : run (step cfg) st1 ls=some st2) :
    Gathered j (progress value done) (view st2) := by
  induction hw generalizing st2 rest with
  | nil => exact Option.some.inj hr ▸ hstart
  | @own done ls func _ ih =>
    obtain ⟨u,hu,hlast⟩ := run_append_eq_some.mp hr
    obtain ⟨u',hstep,he⟩ := run_cons_eq_some.mp hlast
    cases he
    have hsplit' : order=done++func::rest := by rw [hsplit,List.append_assoc]; rfl
    have hg := ih hsplit' (List.cons_ne_nil _ _) hu
    obtain ⟨hsize,hkeys⟩ := prepared_size value horder hsplit'
    have hpos : 0< rest.length := List.length_pos_iff.mpr hrest
    have hf : func∈j.sources := horder.mem_iff.mp (by rw [hsplit']; simp)
    obtain ⟨st',hok,hg'⟩ := own_incomplete cfg hj ht hf hg (by omega)
    have hsame : outcome cfg u (sendLabel j lib value func)=.ok st2 := step_eq_some hstep
    cases hok.symm.trans hsame
    rw [←progress_concat]
    exact hg'
  | @other done ls l hl _ ih =>
    obtain ⟨u,hu,hlast⟩ := run_append_eq_some.mp hr
    obtain ⟨u',hstep,he⟩ := run_cons_eq_some.mp hlast
    cases he
    exact (outcome_gathered hj hl u).ok (step_eq_some hstep) (ih hsplit hrest hu)

theorem foreign_gathered (hj : j.WellNamed) (hl : ∀ l∈ls,Foreign j l) {st' : SchedState}
    (hg : Gathered j g (view st)) (hr : run (step cfg) st ls=some st') :
    Gathered j g (view st') := by
  have hstep : ∀ u l u',Gathered j g (view u) → Foreign j l → step cfg u l=some u' →
      Gathered j g (view u') :=
    fun u _ _ hu hl hs => (outcome_gathered hj hl u).ok (step_eq_some hs) hu
  exact run_invariant_of_steps hstep hg (stepsMeet_of_forall (fun l hm _ => hl l hm) st) hr

theorem delivered_gathered {seed : UInt32} {msg : UpdateCoordMsg} {self : CoordIdentity} {now : ℤ}
    {cst cst' : CoordState} {reg : AppRegistration} {out : List CoordOut} {node : Address}
    (hreg : SoleJoin reg j.target j.srcs) (happ : reg.appName=j.app)
    (hhandled : appRegisterHandler self now cst reg=some (cst',out)) (hsent : .update node msg∈out)
    (hst : step cfg (.start cfg seed) (.update msg)=some st1) (value : Str → Str) :
    Gathered j (progress value []) (view st1) ∧
      st1.tables.bucketTriggers j.bucket=[joinTrigger j.target j.srcs] := by
  have hok := step_eq_some hst
  obtain ⟨w,hw,rfl⟩ := map_eq_ok hok
  have hd := delivered_of_announcement hreg (announcement_of_mem hhandled hsent) (orFault_eq_ok hw)
  obtain ⟨p,hp,htrigger⟩ : ∃ p,w.bucketTriggersMap.getD j.bucket []=[p] ∧
      p.trigger=joinTrigger j.target j.srcs := by
    have hmap : (w.bucketTriggersMap.getD j.bucket []).map TriggerPointer.trigger=
      [joinTrigger j.target j.srcs] := hd.triggers
    obtain ⟨p,hp,ht⟩ := List.map_eq_singleton_iff.mp hmap
    exact ⟨p,hp,ht⟩
  refine ⟨⟨hd.hintless,rfl,fun app f hf => hd.undirected f (j.mem_srcs.mp hf) app,?_,?_,
    fun f _ => ?_,fun f _ n hn => ?_,rfl⟩,hd.triggers⟩
  · exact hd.owner.trans happ
  · refine ⟨p.id,⟨j.keys,∅,∅,∅⟩,?_,rfl,rfl⟩
    rw [show (view {(readClock cfg (.start cfg seed)).2 with tables := w}).pointers.getD j.bucket []=
      [p] from hp]
    have hpair : p=⟨p.id,joinTrigger j.target j.srcs⟩ := by rw [←htrigger]
    rw [hpair]
    rfl
  · show none=(progress value []).value f
    simp [progress]
  · simp [progress] at hn

/-- A many-to-one dependency on one worker, from the registration to the
start: the scheduler reads every object of a source under the bucket, key
and session that the trigger of the registration waits for; in every order
of the sources and whatever foreign steps there are, such as all objects of
other sessions of sixteen characters under plain names, no object before the
last one faults or starts the target, and the last one starts it with exactly
the objects of all sources, once and for all. -/
theorem many_to_one_starts_once (cfg : SchedulerConfig) (seed : UInt32) (self : CoordIdentity)
    (now : ℤ) (cst cst' : CoordState) (reg : AppRegistration) (out : List CoordOut) (node : Address)
    (msg : UpdateCoordMsg) (st1 : SchedState) (j : Join) (lib : Str → UserLibrary)
    (value : Str → Str) (order : List Str) (hreg : SoleJoin reg j.target j.srcs)
    (happ : reg.appName=j.app) (hj : j.WellNamed) (ht : Taking j lib value)
    (hhandled : appRegisterHandler self now cst reg=some (cst',out)) (hsent : .update node msg∈out)
    (hdelivered : step cfg (.start cfg seed) (.update msg)=some st1)
    (horder : order.Perm j.sources.elems) :
    (∀ func∈j.srcs,∃ info,
        objectInfo (cString (sendFor (lib func) j.target (value func)) 4)=some info ∧
        BucketKey.ofSessionKey info.bucket info.sessionKey=⟨j.bucket,sourceKey func,j.session⟩) ∧
      st1.tables.bucketTriggers j.bucket=[joinTrigger j.target j.srcs] ∧
      (∀ (other : UserLibrary) (bucket key target val : Str),PlainNames other bucket key target →
        other.sessionId.length=16 → other.sessionId≠j.session →
        Foreign j (.executor (objectMessage other bucket key target val))) ∧
      ∀ done func rest,order=done++func::rest → ∀ ls st2,
        Woven j (sendLabel j lib value) done ls → run (step cfg) st1 ls=some st2 →
        startsOf j st2.trace=[] ∧
        (rest≠[] → ∃ st3,outcome cfg st2 (sendLabel j lib value func)=.ok st3 ∧
          startsOf j st3.trace=[]) ∧
        (rest=[] →
          startsOf j (endState id (outcome cfg st2 (sendLabel j lib value func))).trace=[j.call value] ∧
          ∀ later st3 st4,(∀ l∈later,Foreign j l) →
            outcome cfg st2 (sendLabel j lib value func)=.ok st3 →
            run (step cfg) st3 later=some st4 → startsOf j st4.trace=[j.call value]) := by
  obtain ⟨hstart,htriggers⟩ := delivered_gathered hreg happ hhandled hsent hdelivered value
  refine ⟨fun func hf => ⟨_,ownInfo_read hj ht (j.mem_srcs.mpr hf)⟩,htriggers,
    fun other bucket key target val hnames hlength hother =>
      foreign_of_library hj hnames hlength hother val,?_⟩
  intro done func rest hsplit ls st2 hw hr
  have hg := woven_gathered hj ht horder hstart hw hsplit (List.cons_ne_nil _ _) hr
  have hf : func∈j.sources := horder.mem_iff.mp (by rw [hsplit]; simp)
  obtain ⟨hsize,hkeys⟩ := prepared_size value horder hsplit
  refine ⟨hg.starts,fun hrest => ?_,fun hrest => ?_⟩
  · have hpos : 0< rest.length := List.length_pos_iff.mpr hrest
    obtain ⟨st3,hok,hg3⟩ := own_incomplete cfg hj ht hf hg (by omega)
    exact ⟨st3,hok,hg3.starts⟩
  · subst hrest
    have hc := complete_sent value fun f hf => hsplit ▸ horder.mem_iff.mpr hf
    have hend := own_complete cfg hj ht hf hg (by simpa using hsize.trans hkeys.symm) hc
    refine ⟨hend.endState.starts,fun later st3 st4 hlater hok hrun => ?_⟩
    have hg3 : Gathered j ((progress value done).started j value func) (view st3) := by
      have hend' := hend.endState
      rwa [show recvExecutor cfg st2 (sendFor (lib func) j.target (value func))=.ok st3 from hok] at hend'
    exact (foreign_gathered hj hlater hg3 hrun).starts

/-- Two functions joined by a third. -/
def sampleJoin : Join := ⟨str "app",str "h",[str "f",str "g"],str "0123456789abcdef"⟩

/-- The application of a join whose target has a direct target. -/
def sampleRegistration : AppRegistration :=
  ⟨str "app",[str "f",str "g",str "h"],
    [⟨.manyToOne,[str "f",str "g"],[str "h"],[]⟩,⟨.direct,[str "h"],[str "e"],[]⟩]⟩

/-- A coordinator that knows one worker. -/
def sampleCoordinator : CoordState :=
  ⟨∅,∅,∅,∅,∅,∅,UMap.set ∅ (str "10.0.0.1") ⟨1⟩,1⟩

/-- The message of the registration. -/
def sampleUpdate : UpdateCoordMsg :=
  ⟨str "10.0.0.9",0,str "app",[str "f",str "g",str "h"],[⟨.direct,[str "h"],[str "e"],[]⟩],
    [dependencyEntity (dependencyBucket (str "h"))
      (some (joinTrigger (str "h") [str "f",str "g"]))],0⟩

/-- Every function sends its name. -/
def sampleSend : Str → SchedLabel :=
  sendLabel sampleJoin (fun func => ⟨1,0,func,str "0123456789abcdef",0⟩) fun func => func

/-- An object under the same names from another session. -/
def sampleOther : SchedLabel :=
  .executor (objectMessage ⟨2,0,str "f",str "fedcba9876543210",0⟩ (str "b_h") (str "k_f") (str "h")
    (str "x|y"))

theorem sampleUpdate_sent : ∃ cst out,
    appRegisterHandler ⟨str "10.0.0.9",0⟩ 0 sampleCoordinator sampleRegistration=some (cst,out) ∧
      .update (str "10.0.0.1") sampleUpdate∈out := by
  have hupdate : (appRegisterHandler ⟨str "10.0.0.9",0⟩ 0 sampleCoordinator sampleRegistration).map
    (fun r => decide (CoordOut.update (str "10.0.0.1") sampleUpdate∈r.2))=some true := by decide +kernel
  obtain ⟨⟨cst,out⟩,hhandled,hmem⟩ := Option.map_eq_some_iff.mp hupdate
  exact ⟨cst,out,hhandled,of_decide_eq_true hmem⟩

theorem many_to_one_starts_once_twoSources : ∃ st1 st2,
    step sampleConfig (.start sampleConfig 1) (.update sampleUpdate)=some st1 ∧
    run (step sampleConfig) st1 [sampleSend (str "g"),sampleOther]=some st2 ∧
    startsOf sampleJoin (endState id (outcome sampleConfig st2 (sampleSend (str "f")))).trace=
      [⟨str "0123456789abcdef",str "app",str "h",[str "f",str "g"],0⟩] := by
  have hrun : (run (step sampleConfig) (.start sampleConfig 1)
    [.update sampleUpdate,sampleSend (str "g"),sampleOther]).isSome=true := by decide +kernel
  obtain ⟨st2,hst2⟩ := Option.isSome_iff_exists.mp hrun
  obtain ⟨st1,hst1,hr⟩ := run_cons_eq_some.mp hst2
  obtain ⟨cst,out,hhandled,hsent⟩ := sampleUpdate_sent
  have hj : sampleJoin.WellNamed := ⟨by decide,by decide,by decide,by decide⟩
  have hreg : SoleJoin sampleRegistration sampleJoin.target sampleJoin.srcs :=
    ⟨⟨⟨.manyToOne,[str "f",str "g"],[str "h"],[]⟩,by decide,rfl,rfl,rfl⟩,by decide⟩
  have hmain := many_to_one_starts_once sampleConfig 1 ⟨str "10.0.0.9",0⟩ 0 sampleCoordinator cst
    sampleRegistration out (str "10.0.0.1") sampleUpdate st1 sampleJoin
    (fun func => ⟨1,0,func,str "0123456789abcdef",0⟩) (fun func => func) [str "g",str "f"]
    hreg rfl hj ⟨by decide,by decide,by decide,by decide,by decide⟩ hhandled hsent hst1 (by decide)
  have hother := hmain.2.2.1 ⟨2,0,str "f",str "fedcba9876543210",0⟩ (str "b_h") (str "k_f") (str "h")
    (str "x|y") ⟨by decide,by decide,by decide,by decide,by decide⟩ (by decide) (by decide)
  have hwoven : Woven sampleJoin sampleSend [str "g"] [sampleSend (str "g"),sampleOther] :=
    .other hother (.own (str "g") .nil)
  exact ⟨st1,st2,hst1,hr,((hmain.2.2.2 [str "g"] (str "f") [] rfl _ st2 hwoven hr).2.2 rfl).1⟩

/-- An object of the empty session. Its key ends with the letters of the
joined session. -/
def sessionless : SchedLabel :=
  .executor (objectMessage ⟨2,0,str "x",[],0⟩ (str "b_h") (str "k_f0123456789abcdef") (str "h")
    (str "y"))

/-- The scheduler cuts the object of the empty session into the joined one:
the target starts in the empty session before the second source has sent, and
never in the joined one. -/
theorem sessionless_object_breaks_join : ∃ cst out st,
    appRegisterHandler ⟨str "10.0.0.9",0⟩ 0 sampleCoordinator sampleRegistration=some (cst,out) ∧
      .update (str "10.0.0.1") sampleUpdate∈out ∧
    run (step sampleConfig) (.start sampleConfig 1)
      [.update sampleUpdate,sampleSend (str "g"),sessionless,sampleSend (str "f")]=some st ∧
    .scheduled .trigger ⟨[],str "app",str "h",[str "y",str "g"],0⟩∈st.trace ∧
    startsOf sampleJoin st.trace=[] := by
  have hrun : (run (step sampleConfig) (.start sampleConfig 1)
    [.update sampleUpdate,sampleSend (str "g"),sessionless,sampleSend (str "f")]).map (fun st =>
      (decide (.scheduled .trigger ⟨[],str "app",str "h",[str "y",str "g"],0⟩∈st.trace),
        startsOf sampleJoin st.trace))=some (true,[]) := by decide +kernel
  obtain ⟨st,hst,hresult⟩ := Option.map_eq_some_iff.mp hrun
  obtain ⟨hearly,hstarts⟩ := Prod.mk.inj hresult
  obtain ⟨cst,out,hhandled,hsent⟩ := sampleUpdate_sent
  exact ⟨cst,out,st,hhandled,hsent,hst,of_decide_eq_true hearly,hstarts⟩

end Pheromone.ManyToOneJoin
