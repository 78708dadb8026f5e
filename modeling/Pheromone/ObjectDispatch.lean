import Pheromone.ObjectTransport
import Pheromone.RegistrationDelivery

/-!
# What an ephemeral object sets off

An object starts the direct targets of its sender or, if there are none, is
checked against triggers and reported. A value or a key may be taken for a
missing one when its message is read.
-/

namespace Pheromone.ObjectDispatch

open UnorderedContainers GuardedRuns FaultingRuns DelimitedText CommonNames
open TriggerPrimitives OperationMessages WorkerUpdates SchedulerState Scheduling
open SchedulerLoop SchedulingRules ObjectTransport CoordinatorNotify CoordinatorOps
open RegistrationDelivery

/-- What has been recorded between two states. -/
def since (st st' : SchedState) : List SchedEvent := st'.trace.drop st.trace.length

/-- The function that a trigger has started. -/
def triggered? : SchedEvent → Option Str
  | .scheduled .trigger call => some call.funcName
  | _ => none

/-- The notification of a coordinator. -/
def notification? : SchedEvent → Option (HandlerThread×KeyNotifyRequest)
  | .sent (.notify coord req) => some (coord,req)
  | _ => none

/-- The start of direct targets, here or elsewhere. -/
def DirectStart : SchedEvent → Prop
  | .scheduled .direct _ => True
  | .forwarding .batch _ => True
  | _ => False

instance : DecidablePred DirectStart := fun e => by
  unfold DirectStart
  split <;> infer_instance

/-- A trigger that has noted calls of source functions since. -/
def Noted (t t' : Trigger) : Prop :=
  ∃ calls : List (TriggerFunctionMetadata×Session),
    t'=calls.foldl (fun t c => t.notifySourceFunc c.1 c.2) t

theorem Noted.refl (t : Trigger) : Noted t t := ⟨[],rfl⟩

theorem Noted.trans {t t' t'' : Trigger} (h : Noted t t') (h' : Noted t' t'') : Noted t t'' := by
  obtain ⟨calls,rfl⟩ := h
  obtain ⟨calls',rfl⟩ := h'
  exact ⟨calls++calls',(List.foldl_append ..).symm⟩

/-- Triggers of a bucket that have only noted calls. -/
abbrev AllNoted (ts ts' : List Trigger) : Prop := List.Forall₂ Noted ts ts'

theorem AllNoted.refl (ts : List Trigger) : AllNoted ts ts :=
  List.forall₂_same.mpr fun t _ => Noted.refl t

theorem AllNoted.trans {a b c : List Trigger} (h : AllNoted a b) (h' : AllNoted b c) :
    AllNoted a c := by
  induction h generalizing c with
  | nil => exact h'
  | cons ht _ ih =>
    cases h' with
    | cons ht' hrest => exact List.Forall₂.cons (ht.trans ht') (ih hrest)

/-- What the triggers of a bucket make of an object that arrives now. -/
def results (cfg : SchedulerConfig) (st : SchedState) (bk : BucketKey) :
    List (Trigger×List TriggerAction) :=
  arrivals (cfg.clock st.tick) (st.tables.bucketTriggers bk.bucket) bk

/-- An object has been checked against the triggers of its bucket, and the
bucket's coordinator has been told of it exactly once. -/
structure Reaches (cfg : SchedulerConfig) (bk : BucketKey) (st st' : SchedState) : Prop where
  /-- Every trigger of the bucket has taken the object. -/
  taken : AllNoted ((results cfg st bk).map Prod.fst) (st'.tables.bucketTriggers bk.bucket)
  /-- What they ask for has been scheduled. -/
  fired : (since st st').filterMap triggered?=
    (results cfg st bk).flatMap fun r => r.2.map TriggerAction.function
  /-- There is one notification: of this object, with the triggers that fired. -/
  notified : ∃ coord client address payload,st.tables.bucketCoordMap.find? bk.bucket=some coord ∧
    (since st st').filterMap notification?=[(coord,⟨client,
      [⟨bk.bucket,bk.key,bk.session,[address],payload⟩],firedNames (results cfg st bk)⟩)]

/-- Part of a check: starts and notifications in order, no direct start,
triggers that have at most noted calls, and the same coordinators. -/
structure Adds (starts : List Str) (notes : List (HandlerThread×KeyNotifyRequest))
    (st st' : SchedState) : Prop where
  events : ∃ events,st'.trace=st.trace++events ∧ events.filterMap triggered?=starts ∧
    events.filterMap notification?=notes ∧ ∀ e∈events,¬DirectStart e
  triggers : ∀ bucket,AllNoted (st.tables.bucketTriggers bucket) (st'.tables.bucketTriggers bucket)
  coords : st'.tables.bucketCoordMap=st.tables.bucketCoordMap

variable {st st' st'' : SchedState}

theorem since_eq {events : List SchedEvent} (h : st'.trace=st.trace++events) :
    since st st'=events := by
  rw [since,h]
  exact List.drop_left

theorem adds_of_eq (htrace : st'.trace=st.trace)
    (htriggers : st'.tables.bucketTriggersMap=st.tables.bucketTriggersMap)
    (hcoords : st'.tables.bucketCoordMap=st.tables.bucketCoordMap) : Adds [] [] st st' := by
  refine ⟨⟨[],by simp [htrace],rfl,rfl,nofun⟩,fun bucket => ?_,hcoords⟩
  rw [WorkerTables.bucketTriggers,WorkerTables.bucketTriggers,htriggers]
  exact AllNoted.refl _

theorem Adds.trans {starts starts' : List Str} {notes notes' : List (HandlerThread×KeyNotifyRequest)}
    (h : Adds starts notes st st') (h' : Adds starts' notes' st' st'') :
    Adds (starts++starts') (notes++notes') st st'' := by
  obtain ⟨events,htrace,hstarts,hnotes,hdirect⟩ := h.events
  obtain ⟨events',htrace',hstarts',hnotes',hdirect'⟩ := h'.events
  refine ⟨⟨events++events',?_,?_,?_,?_⟩,fun bucket => (h.triggers bucket).trans (h'.triggers bucket),
    h'.coords.trans h.coords⟩
  · rw [htrace',htrace,List.append_assoc]
  · rw [List.filterMap_append,hstarts,hstarts']
  · rw [List.filterMap_append,hnotes,hnotes']
  · exact List.forall_mem_append.mpr ⟨hdirect,hdirect'⟩

theorem adds_log (st : SchedState) (e : SchedEvent) (hdirect : ¬DirectStart e) :
    Adds (triggered? e).toList (notification? e).toList st (st.log e) := by
  refine ⟨⟨[e],rfl,?_,?_,?_⟩,fun _ => AllNoted.refl _,rfl⟩
  · cases h : triggered? e <;> simp [h]
  · cases h : notification? e <;> simp [h]
  · intro e' he'
    rw [List.mem_singleton.mp he']
    exact hdirect

theorem notifyPointer_noted (call : Invocation) (id : ℕ) (w : WorkerTables) (bucket : Bucket) :
    AllNoted (w.bucketTriggers bucket) ((notifyPointer call id w).bucketTriggers bucket) := by
  rw [WorkerTables.bucketTriggers,WorkerTables.bucketTriggers,notifyPointer_bucket]
  induction w.bucketTriggersMap.getD bucket [] with
  | nil => exact List.Forall₂.nil
  | cons p ps ih =>
    refine List.Forall₂.cons ?_ ih
    unfold notePointer
    split
    · exact ⟨[(⟨call.funcName,call.funcArgs,call.argFlag⟩,call.sessionId)],rfl⟩
    · exact Noted.refl _

theorem adds_noteHints (call : Invocation) (time : ℤ) (st : SchedState) :
    Adds [] [] st (noteHints call time st) := by
  unfold noteHints
  refine List.foldlRecOn (motive:=Adds [] [] st) _ _ (adds_of_eq rfl rfl rfl) fun st1 h hint _ => ?_
  have hone : Adds [] [] st1 (noteHint call time st1 hint) :=
    ⟨⟨[],(List.append_nil _).symm,rfl,rfl,nofun⟩,notifyPointer_noted call hint.triggerPtr st1.tables,rfl⟩
  exact h.trans hone

/-- An event of neither kind. -/
structure Quiet (e : SchedEvent) : Prop where
  /-- No start by a trigger. -/
  triggered : triggered? e=none
  notification : notification? e=none
  /-- No start of direct targets. -/
  direct : ¬DirectStart e

theorem quiet_frame : ReadFrame Quiet (Adds [] []) :=
  .of_idle (fun _ _ h => adds_of_eq h.trace h.triggers.1 h.coords) (fun _ _ _ h h' => h.trans h')
    fun st e he => by
      have hadd := adds_log st e he.direct
      rwa [he.triggered,he.notification] at hadd

/-- Executing a scheduled call is quiet. -/
theorem quiet_of_callEvent {call : Invocation} {e : SchedEvent} (h : CallEvent call e) : Quiet e := by
  rcases h with ⟨executor,client,rfl⟩|⟨args,-,rfl|⟨coord,msg,rfl,-,-⟩⟩
  · exact ⟨rfl,rfl,id⟩
  · exact ⟨rfl,rfl,id⟩
  · exact ⟨rfl,rfl,id⟩

variable {cfg : SchedulerConfig}

variable {sessionId : Session}

variable {bucket : Bucket}

/-- A call of a trigger is one start. -/
theorem adds_scheduleTriggered {m : TriggerFunctionMetadata}
    (h : scheduleTriggered cfg bucket sessionId st m=.ok st') : Adds [m.funcName] [] st st' := by
  let st1 : SchedState := {st with
    tables := {st.tables with bucketAppMap := st.tables.bucketAppMap.touch bucket []}}
  let call : Invocation :=
    ⟨sessionId,st.tables.bucketAppMap.getD bucket [],m.funcName,m.funcArgs,m.argFlag⟩
  have hread : Adds [] [] st st1 := adds_of_eq rfl rfl rfl
  have hlog : Adds [m.funcName] [] st1 (st1.log (.scheduled .trigger call)) :=
    adds_log st1 (.scheduled .trigger call) id
  have hrun : Adds [] [] (st1.log (.scheduled .trigger call)) st' :=
    (quiet_frame.scheduleFuncCall (fun _ => quiet_of_callEvent) (fun _ _ => adds_of_eq rfl rfl rfl)
      (fun st time => adds_noteHints call time st) .trigger st1).ok h
  exact hread.trans (hlog.trans hrun)

theorem adds_scheduleAll {ms : List TriggerFunctionMetadata}
    (h : ms.foldlM (scheduleTriggered cfg bucket sessionId) st=.ok st') :
    Adds (ms.map TriggerFunctionMetadata.funcName) [] st st' := by
  induction ms generalizing st with
  | nil =>
    cases h
    exact adds_of_eq rfl rfl rfl
  | cons m ms ih =>
    rw [List.foldlM_cons] at h
    obtain ⟨st1,hm,hms⟩ := bind_eq_ok h
    exact (adds_scheduleTriggered hm).trans (ih hms)

/-- The triggers of the bucket after an object has arrived. -/
theorem arrivedAt_bucketTriggers (cfg : SchedulerConfig) (st : SchedState) (bk : BucketKey) :
    (arrivedAt cfg st bk).tables.bucketTriggers bk.bucket=(results cfg st bk).map Prod.fst := by
  have hset : (arrivedAt cfg st bk).tables.bucketTriggersMap.getD bk.bucket []=
      (st.tables.bucketTriggersMap.getD bk.bucket []).zipWith (fun p r => {p with trigger := r.1})
        (results cfg st bk) := UMap.getD_set_self _ _ _ _
  rw [WorkerTables.bucketTriggers,hset,results,WorkerTables.bucketTriggers]
  induction st.tables.bucketTriggersMap.getD bk.bucket [] with
  | nil => rfl
  | cons p ps ih => exact congrArg (List.cons _) ih

variable {bk : BucketKey}

/-- A check advances the triggers and starts what they ask for. -/
theorem checkTrigger_adds {names : List Str} (h : checkTrigger cfg st bk sessionId=.ok (names,st')) :
    names=firedNames (results cfg st bk) ∧
      Adds ((results cfg st bk).flatMap fun r => r.2.map TriggerAction.function) []
        (arrivedAt cfg st bk) st' := by
  unfold checkTrigger at h
  rw [checkObjectArrival_eq] at h
  obtain ⟨st1,hms,hr⟩ := bind_eq_ok h
  cases hr
  refine ⟨rfl,?_⟩
  have hargs : Adds [] [] (arrivedAt cfg st bk)
      (activeFuncMetadatas bk.bucket (results cfg st bk) (arrivedAt cfg st bk)).2 :=
    quiet_frame.activeFuncMetadatas bk.bucket _ _
  have hall := hargs.trans (adds_scheduleAll hms)
  rw [←activeFuncMetadatas_funcNames bk.bucket _ (arrivedAt cfg st bk)]
  exact hall

variable {isDataPacking : UInt8} {coord : HandlerThread}

/-- A known coordinator is told. -/
theorem notified_adds (cfg : SchedulerConfig) (info : ObjectInfo)
    (hpacking : isDataPacking=1 ∨ isDataPacking=2) (fired : List Str)
    (hcoord : st.tables.bucketCoordMap.find? bk.bucket=some coord) :
    ∃ client address payload,Adds [] [(coord,⟨client,
      [⟨bk.bucket,bk.key,bk.session,[address],payload⟩],fired⟩)] st
        (notified cfg bk isDataPacking info fired st) := by
  have hput : ∀ payload,∃ client address,Adds [] [(coord,⟨client,
      [⟨bk.bucket,bk.key,bk.session,[address],payload⟩],fired⟩)] st
        (notifyPut cfg (sessionClient st info.sessionId).2 bk fired
          (sessionClient st info.sessionId).1 payload) := by
    intro payload
    let r := getDataServerAddr cfg (sessionClient st info.sessionId).2 true
    have hread : Adds [] [] st r.2 := adds_of_eq rfl rfl rfl
    have hfind : (sessionClient st info.sessionId).2.tables.bucketCoordMap.find? bk.bucket=
        some coord := hcoord
    refine ⟨(sessionClient st info.sessionId).1,r.1,?_⟩
    rw [notifyPut,hfind]
    exact hread.trans (adds_log r.2 (.sent (.notify coord ⟨(sessionClient st info.sessionId).1,
      [⟨bk.bucket,bk.key,bk.session,[r.1],payload⟩],fired⟩)) id)
  rcases hpacking with rfl|rfl
  · obtain ⟨client,address,h⟩ := hput info.value
    exact ⟨client,address,info.value,h⟩
  · obtain ⟨client,address,h⟩ := hput []
    exact ⟨client,address,[],h⟩

variable {info : ObjectInfo}

/-- An object that is checked reaches the triggers, and starts no direct target. -/
theorem triggerCheck_reaches (hpacking : isDataPacking=1 ∨ isDataPacking=2)
    (hcoord : st.tables.bucketCoordMap.find? info.bucket=some coord)
    (h : triggerCheck cfg st isDataPacking info=.ok st') :
    Reaches cfg (BucketKey.ofSessionKey info.bucket info.sessionKey) st st' ∧
      ∀ e∈since st st',¬DirectStart e := by
  have hbucket := BucketKey.ofSessionKey_bucket info.bucket info.sessionKey
  generalize hbk : BucketKey.ofSessionKey info.bucket info.sessionKey=bk at hbucket ⊢
  rw [triggerCheck_eq,hbk] at h
  obtain ⟨⟨names,st1⟩,hcheck,hrest⟩ := bind_eq_ok h
  cases hrest
  obtain ⟨rfl,hadds⟩ := checkTrigger_adds hcheck
  have hcoord1 : st1.tables.bucketCoordMap.find? bk.bucket=some coord := by
    rw [hadds.coords,hbucket]
    exact hcoord
  obtain ⟨client,address,payload,hnote⟩ := notified_adds cfg info hpacking
    (firedNames (results cfg st bk)) hcoord1
  have hall := hadds.trans hnote
  obtain ⟨events,htrace,hstarts,hnotes,hdirect⟩ := hall.events
  have hsince : since st (notified cfg bk isDataPacking info (firedNames (results cfg st bk)) st1)=
      events := since_eq htrace
  refine ⟨⟨?_,?_,coord,client,address,payload,?_,?_⟩,?_⟩
  · rw [←arrivedAt_bucketTriggers]
    exact hall.triggers bk.bucket
  · exact (congrArg _ hsince).trans (hstarts.trans (List.append_nil _))
  · rw [hbucket]
    exact hcoord
  · exact (congrArg _ hsince).trans hnotes
  · exact fun e he => hdirect e (hsince ▸ he)

variable {appName : Str} {deps : USet Str}

/-- Starting direct targets tells no coordinator. -/
theorem directInvocation_unnotified
    (h : directInvocation cfg st appName deps isDataPacking info=.ok st') :
    (since st st').filterMap notification?=[] := by
  have hcalling : ∀ e,Calling e → notification? e=none := by
    intro e he
    cases e with
    | sent out =>
      cases out with
      | notify _ _ => cases he
      | _ => rfl
    | _ => rfl
  obtain ⟨events,htrace,hevents⟩ :=
    ((records_frame _).directInvocation hcalling (fun _ _ _ => rfl) st deps isDataPacking).ok h
  have hsince : since st st'=events := since_eq htrace
  rw [hsince,List.filterMap_eq_nil_iff]
  exact hevents

/-- An object addressed to a function that is no direct target starts nothing. -/
theorem directInvocation_other (hne : info.tgtFunction≠[]) (hm : info.tgtFunction∉deps)
    (h : directInvocation cfg st appName deps isDataPacking info=.ok st') : st'=st := by
  unfold directInvocation at h
  dsimp only at h
  rw [if_neg hne,if_neg hm] at h
  exact (Except.ok.inj h).symm

/-- The coordinator of every bucket with a trigger is known. -/
def Routed (w : WorkerTables) : Prop :=
  ∀ bucket,w.bucketTriggers bucket≠[] → ∃ coord,w.bucketCoordMap.find? bucket=some coord

variable {v w : WorkerTables}

/-- Triggers stay in their buckets. -/
theorem routed_of_noted (h : Routed w)
    (htriggers : ∀ bucket,AllNoted (w.bucketTriggers bucket) (v.bucketTriggers bucket))
    (hcoords : v.bucketCoordMap=w.bucketCoordMap) : Routed v := by
  intro bucket hne
  rw [hcoords]
  refine h bucket fun hnil => hne ?_
  have hall := htriggers bucket
  rw [hnil] at hall
  exact List.forall₂_nil_left_iff.mp hall

theorem arrivedAt_routed (cfg : SchedulerConfig) (st : SchedState) (bk : BucketKey)
    (h : Routed st.tables) : Routed (arrivedAt cfg st bk).tables := by
  intro bucket hne
  refine h bucket fun hnil => hne ?_
  by_cases hb : bucket=bk.bucket
  · rw [hb,arrivedAt_bucketTriggers,results,←hb,hnil]
    rfl
  · have hother : (arrivedAt cfg st bk).tables.bucketTriggersMap.getD bucket []=
        st.tables.bucketTriggersMap.getD bucket [] := (UMap.getD_set _ _ _ _ _).trans (if_neg hb)
    rw [WorkerTables.bucketTriggers,hother]
    exact hnil

theorem routed_frame : StepFrame (fun a b => Routed a.tables → Routed b.tables) where
  toReadFrame := .of_idle (fun _ _ hi h => routed_of_noted h
    (adds_of_eq hi.trace hi.triggers.1 hi.coords).triggers hi.coords)
    (fun _ _ _ h h' hr => h' (h hr)) fun _ _ _ h => h
  noteHints st call time h :=
    routed_of_noted h (adds_noteHints call time st).triggers (adds_noteHints call time st).coords
  delayCallQueue _ _ h := h
  rerunCheckQueue _ _ _ h := h
  numbers _ _ _ h := h
  inflight _ _ h := h
  awaited _ _ h := h
  puts _ _ h := h
  keyLenMap _ _ h := h
  keyValMap _ _ h := h
  gets _ _ h := h
  arrivedAt := arrivedAt_routed

variable {now : ℤ} {app : Str}

theorem addTrigger_routed (h : Routed w) (entity : TriggerEntity) :
    Routed (addTrigger now app coord w entity) := by
  have hcoords : (addTrigger now app coord w entity).bucketCoordMap=
      w.bucketCoordMap.set entity.bucketName coord := by
    unfold addTrigger
    dsimp only
    split <;> rfl
  intro bucket hne
  rw [hcoords,UMap.find?_set]
  by_cases hb : bucket=entity.bucketName
  · exact ⟨coord,if_pos hb⟩
  · rw [if_neg hb]
    rw [addTrigger_bucketTriggers,addedTo,if_neg (Ne.symm hb),List.append_nil] at hne
    exact h bucket hne

theorem clearEntity_routed (h : Routed w) (entity : TriggerEntity) :
    Routed (clearEntity w entity) := by
  intro bucket hne
  refine h bucket fun hnil => hne ?_
  rw [clearEntity_bucketTriggers,hnil]
  split <;> rfl

theorem deleteEntity_routed {entity : TriggerEntity} (h : Routed w)
    (hd : deleteEntity w entity=some v) : Routed v := by
  unfold deleteEntity at hd
  dsimp only at hd
  split at hd
  · cases hd
  · rw [←Option.some.inj hd]
    intro bucket hne
    refine h bucket fun hnil => hne ?_
    have hnone : w.bucketTriggersMap.getD bucket []=[] := List.map_eq_nil_iff.mp hnil
    refine List.map_eq_nil_iff.mpr ?_
    show (w.bucketTriggersMap.set entity.bucketName _).getD bucket []=[]
    rw [UMap.getD_set]
    split
    · rename_i hb
      rw [←hb,hnone]
      rfl
    · exact hnone

/-- Updates announce the coordinator together with the trigger. -/
theorem recvUpdate_routed {msg : UpdateCoordMsg} (h : Routed w) (hr : recvUpdate now w msg=some v) :
    Routed v := by
  refine recvUpdate_invariant (fun _ w v hw hadd => ?_) (fun w entity hw => clearEntity_routed hw entity)
    (fun w v entity hw hd => deleteEntity_routed hw hd) h hr
  exact addUpdate_invariant (I:=Routed) (fun _ _ _ hw => hw) (fun _ _ _ _ _ _ _ _ hw => hw)
    (fun _ entity _ hw => addTrigger_routed hw entity) hw hadd

theorem step_routed {l : SchedLabel} (h : Routed st.tables) (hs : step cfg st l=some st') :
    Routed st'.tables := by
  have hok := step_eq_some hs
  by_cases hl : ∀ msg,l≠.update msg
  · exact (routed_frame.outcome st hl).ok hok h
  · obtain ⟨msg,rfl⟩ := not_forall_not.mp hl
    obtain ⟨w,hw,rfl⟩ := map_eq_ok hok
    exact recvUpdate_routed h (orFault_eq_ok hw)

/-- In every state that a worker reaches, buckets with a trigger have a coordinator. -/
theorem reached_routed {seed : UInt32} {ls : List SchedLabel}
    (h : run (step cfg) (.start cfg seed) ls=some st) : Routed st.tables :=
  have hstep : ∀ st l st',Routed (SchedState.tables st) → step cfg st l=some st' → Routed st'.tables :=
    fun _ _ _ => step_routed
  run_invariant hstep (fun _ hne => absurd rfl hne) h

/-- A value that arrives: a large one always, a packed one unless it is empty
or begins with the end of a C string. -/
def Legible (value : Str) : Prop :=
  value.length≤ msgDataPackingThreshold → ∃ c rest,value=c::rest ∧ c≠nulChar

theorem terminated_ne_nil_iff {s : Str} :
    terminated nulChar s≠[] ↔ ∃ c rest,s=c::rest ∧ c≠nulChar := by
  cases s with
  | nil => exact ⟨fun h => absurd rfl h,fun ⟨_,_,h,_⟩ => absurd h (List.cons_ne_nil _ _).symm⟩
  | cons c rest =>
    by_cases hc : c=nulChar
    · simp [terminated,hc]
    · simp [terminated,hc]

/-- What is sent of a value can be read exactly when the value is legible. -/
theorem legible_iff {value : Str} : Legible value ↔ terminated nulChar (textOf value)≠[] := by
  by_cases hsmall : value.length≤ msgDataPackingThreshold
  · rw [textOf,if_pos hsmall,terminated_ne_nil_iff]
    exact ⟨fun h => h hsmall,fun h _ => h⟩
  · have hread : terminated nulChar (decimal value.length)≠[] := by
      rw [terminated_eq_self_iff.mpr (plain_decimal _).2]
      exact decimal_ne_nil _
    rw [textOf,if_neg hsmall]
    exact ⟨fun _ => hread,fun _ h => absurd h hsmall⟩

section Sent

variable {lib : UserLibrary} {bucket key target value : Str}

/-- What the scheduler reads of a sent object. -/
def readInfo (lib : UserLibrary) (bucket key target value : Str) : ObjectInfo :=
  sentInfo lib bucket key target (terminated kDelimiterChar (terminated nulChar (textOf value)))

theorem recvExecutor_legible (cfg : SchedulerConfig) (st : SchedState)
    (hnames : PlainNames lib bucket key target) (hvalue : Legible value) :
    recvExecutor cfg st (objectMessage lib bucket key target value)=
      recvEphemeral cfg st (packingOf value) (readInfo lib bucket key target value) := by
  have hinfo := objectInfo_fields hnames value (textOf value)
  rw [if_neg (legible_iff.mp hvalue)] at hinfo
  rw [objectMessage_eq,recvExecutor_object,recvObject,hinfo]
  rfl

/-- An illegible object is passed over. -/
theorem recvExecutor_illegible (cfg : SchedulerConfig) (st : SchedState)
    (hnames : PlainNames lib bucket key target) (hvalue : ¬Legible value) :
    recvExecutor cfg st (objectMessage lib bucket key target value)=.ok st := by
  have hinfo := objectInfo_fields hnames value (textOf value)
  rw [if_pos (not_not.mp fun h => hvalue (legible_iff.mpr h))] at hinfo
  rw [objectMessage_eq,recvExecutor_object,recvObject,hinfo]

theorem packingOf_cases (value : Str) : packingOf value=1 ∨ packingOf value=2 := by
  unfold packingOf
  split
  · exact Or.inl rfl
  · exact Or.inr rfl

/-- An object of a function with direct targets is not notified; addressed to
another function it starts nothing. -/
theorem sent_direct {deps : USet Str} (hdeps : directTargets st lib.function=some deps)
    (h : recvEphemeral cfg st (packingOf value) (readInfo lib bucket key target value)=.ok st') :
    (since st st').filterMap notification?=[] ∧ (target≠[] → target∉deps → since st st'=[]) := by
  rw [recvEphemeral_eq] at h
  obtain ⟨st1,hrec,hrest⟩ := bind_eq_ok h
  obtain ⟨lens,hst1,-⟩ := recordObject_ok hrec
  have hfound : directTargets st1 (readInfo lib bucket key target value).srcFunction=some deps := by
    rw [hst1]
    exact hdeps
  rw [hfound] at hrest
  subst hst1
  have hnote := directInvocation_unnotified hrest
  refine ⟨hnote,fun hne hm => ?_⟩
  rw [directInvocation_other hne hm hrest]
  exact since_eq (List.append_nil _).symm

/-- An object of another function reaches the triggers. -/
theorem sent_undirected (hdeps : directTargets st lib.function=none)
    (hbucket : bucket≠bucketNameDirectInvoc)
    (hcoord : st.tables.bucketCoordMap.find? bucket=some coord)
    (h : recvEphemeral cfg st (packingOf value) (readInfo lib bucket key target value)=.ok st') :
    Reaches cfg (BucketKey.ofSessionKey bucket (getKeySessionName key lib.sessionId)) st st' ∧
      ∀ e∈since st st',¬DirectStart e := by
  obtain ⟨st1,hrec,-⟩ := bind_eq_ok ((recvEphemeral_eq ..).symm.trans h)
  obtain ⟨lens,rfl,-⟩ := recordObject_ok hrec
  rw [recvEphemeral_check hrec hdeps hbucket] at h
  obtain ⟨hreach,hdirect⟩ := triggerCheck_reaches (packingOf_cases value) hcoord h
  exact ⟨⟨hreach.taken,hreach.fired,hreach.notified⟩,hdirect⟩

end Sent

theorem Reaches.notifications_ne_nil (h : Reaches cfg bk st st') :
    (since st st').filterMap notification?≠[] := by
  obtain ⟨coord,client,address,payload,-,hnote⟩ := h.notified
  rw [hnote]
  exact List.cons_ne_nil _ _

/-- An object reaches one pair of key and session only. -/
theorem Reaches.session_eq {bk' : BucketKey} (h : Reaches cfg bk st st')
    (h' : Reaches cfg bk' st st') : bk.session=bk'.session := by
  obtain ⟨coord,client,address,payload,-,hnote⟩ := h.notified
  obtain ⟨coord',client',address',payload',-,hnote'⟩ := h'.notified
  have heq := hnote.symm.trans hnote'
  simp only [List.cons.injEq,Prod.mk.injEq,KeyNotifyRequest.mk.injEq,BucketKeyAddress.mk.injEq] at heq
  exact heq.1.2.2.1.1.2.2.1

/-- A function sends an ephemeral object into a bucket with a trigger or with
a coordinator, in any state that the worker reaches: the object is checked
against the triggers and notified once, and starts no direct target unless it
is addressed to one, exactly when the function has no direct target, the key
is not empty and the value is legible. -/
theorem object_reaches_triggers_iff (cfg : SchedulerConfig) (seed : UInt32) (ls : List SchedLabel)
    (st st' : SchedState) (lib : UserLibrary) (bucket key target value : Str)
    (hrun : run (step cfg) (.start cfg seed) ls=some st)
    (hnames : PlainNames lib bucket key target) (hsession : lib.sessionId.length=16)
    (hbucket : bucket≠bucketNameDirectInvoc)
    (hknown : st.tables.bucketTriggers bucket≠[] ∨
      ∃ coord,st.tables.bucketCoordMap.find? bucket=some coord)
    (hstep : step cfg st (.executor (objectMessage lib bucket key target value))=some st') :
    (Reaches cfg ⟨bucket,key,lib.sessionId⟩ st st' ∧
        (target≠[] → (∀ deps,directTargets st lib.function=some deps → target∉deps) →
          ∀ e∈since st st',¬DirectStart e)) ↔
      directTargets st lib.function=none ∧ key≠[] ∧ Legible value := by
  have hok : recvExecutor cfg st (objectMessage lib bucket key target value)=.ok st' :=
    step_eq_some hstep
  obtain ⟨coord,hcoord⟩ : ∃ coord,st.tables.bucketCoordMap.find? bucket=some coord :=
    hknown.elim (reached_routed hrun bucket) id
  by_cases hvalue : Legible value
  · rw [recvExecutor_legible cfg st hnames hvalue] at hok
    cases hdeps : directTargets st lib.function with
    | some deps =>
      refine ⟨fun h => ?_,fun h => nomatch h.1⟩
      exact absurd (sent_direct hdeps hok).1 h.1.notifications_ne_nil
    | none =>
      obtain ⟨hreach,hdirect⟩ := sent_undirected hdeps hbucket hcoord hok
      constructor
      · rintro ⟨hown,-⟩
        refine ⟨rfl,fun hkey => ?_,hvalue⟩
        have hshort : ¬(getKeySessionName key lib.sessionId).length>16 := by
          rw [getKeySessionName,hkey,List.nil_append,hsession]
          omega
        rw [BucketKey.ofSessionKey,if_neg hshort] at hreach
        have hempty : lib.sessionId=[] := hown.session_eq hreach
        rw [hempty] at hsession
        cases hsession
      · rintro ⟨-,hkey,-⟩
        rw [BucketKey.ofSessionKey_append hkey hsession] at hreach
        exact ⟨hreach,fun _ _ => hdirect⟩
  · rw [recvExecutor_illegible cfg st hnames hvalue] at hok
    cases hok
    refine ⟨fun h => ?_,fun h => absurd h.2.2 hvalue⟩
    have hnone : since st st=[] := since_eq (List.append_nil _).symm
    exact absurd (congrArg (List.filterMap notification?) hnone) h.1.notifications_ne_nil

/-- An application whose first function is a source of a join, besides
further dependencies. -/
def joinedWith (deps : List DataDependency) : AppRegistration :=
  ⟨str "app",[str "f",str "g",str "h"],⟨.manyToOne,[str "f"],[str "h"],[]⟩::deps⟩

/-- What a worker is told of it, where the further dependencies are direct. -/
def joinedUpdate (deps : List DataDependency) : UpdateCoordMsg :=
  ⟨str "10.0.0.9",0,str "app",[str "f",str "g",str "h"],deps,
    [dependencyEntity (dependencyBucket (str "h")) (some (joinTrigger (str "h") [str "f"]))],0⟩

/-- The object of the source for the join. -/
def joinedObject : SchedLabel :=
  .executor (objectMessage sampleLibrary (str "b_h") (str "k_f") (str "h") (str "v"))

theorem object_reaches_triggers_iff_joined : ∃ st st',
    run (step sampleConfig) (.start sampleConfig 1) [.update (joinedUpdate [])]=some st ∧
    step sampleConfig st joinedObject=some st' ∧
    Reaches sampleConfig ⟨str "b_h",str "k_f",sampleLibrary.sessionId⟩ st st' := by
  have hcomputed : ((run (step sampleConfig) (.start sampleConfig 1)
      [.update (joinedUpdate [])]).bind fun st => (step sampleConfig st joinedObject).map fun _ =>
        decide (st.tables.bucketTriggers (str "b_h")≠[] ∧ directTargets st (str "f")=none))=
      some true := by decide +kernel
  obtain ⟨st,hrun,hrest⟩ := Option.bind_eq_some_iff.mp hcomputed
  obtain ⟨st',hstep,hdecided⟩ := Option.map_eq_some_iff.mp hrest
  obtain ⟨htriggers,hnone⟩ := of_decide_eq_true hdecided
  have hlegible : Legible (str "v") := fun _ => ⟨118,[],rfl,by decide⟩
  exact ⟨st,st',hrun,hstep,((object_reaches_triggers_iff sampleConfig 1 [.update (joinedUpdate [])]
    st st' sampleLibrary (str "b_h") (str "k_f") (str "h") (str "v") hrun
    ⟨by decide,by decide,by decide,by decide,by decide⟩ (by decide) (by decide) (Or.inl htriggers)
    hstep).mpr ⟨hnone,by decide,hlegible⟩).1⟩

/-- With a direct target the same source's object for the join is recorded
and then dropped: no trigger takes it and no coordinator is told. -/
theorem mixed_dependencies_miss_triggers :
    ((appRegisterHandler ⟨str "10.0.0.9",0⟩ 0 ⟨∅,∅,∅,∅,∅,∅,UMap.set ∅ (str "10.0.0.1") ⟨1⟩,1⟩
        (joinedWith [⟨.direct,[str "f"],[str "g"],[]⟩])).map fun r => decide
          (CoordOut.update (str "10.0.0.1") (joinedUpdate [⟨.direct,[str "f"],[str "g"],[]⟩])∈r.2))=
      some true ∧
    ∃ st st',run (step sampleConfig) (.start sampleConfig 1)
        [.update (joinedUpdate [⟨.direct,[str "f"],[str "g"],[]⟩])]=some st ∧
      step sampleConfig st joinedObject=some st' ∧ st.tables.bucketTriggers (str "b_h")≠[] ∧
      st'.tables.bucketTriggers (str "b_h")=st.tables.bucketTriggers (str "b_h") ∧
      since st st'=[] ∧
      ¬Reaches sampleConfig ⟨str "b_h",str "k_f",sampleLibrary.sessionId⟩ st st' := by
  refine ⟨by decide +kernel,?_⟩
  have hcomputed : ((run (step sampleConfig) (.start sampleConfig 1)
      [.update (joinedUpdate [⟨.direct,[str "f"],[str "g"],[]⟩])]).bind fun st =>
        (step sampleConfig st joinedObject).map fun st' =>
          decide (st.tables.bucketTriggers (str "b_h")≠[] ∧
            st'.tables.bucketTriggers (str "b_h")=st.tables.bucketTriggers (str "b_h") ∧
            since st st'=[]))=some true := by decide +kernel
  obtain ⟨st,hrun,hrest⟩ := Option.bind_eq_some_iff.mp hcomputed
  obtain ⟨st',hstep,hdecided⟩ := Option.map_eq_some_iff.mp hrest
  obtain ⟨htriggers,hsame,hnone⟩ := of_decide_eq_true hdecided
  refine ⟨st,st',hrun,hstep,htriggers,hsame,hnone,fun h => h.notifications_ne_nil ?_⟩
  rw [hnone]
  rfl

end Pheromone.ObjectDispatch
