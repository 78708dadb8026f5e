import Pheromone.CallRules
import Pheromone.ObjectDispatch
import Pheromone.TriggerCaches

/-!
# The application of a call

A call names its application, but the scheduler reads it again from tables.
The two agree unless applications share a function name or a bucket.
-/

namespace Pheromone.CallAttribution

open UnorderedContainers GuardedRuns FaultingRuns CommonNames TriggerPrimitives
open OperationMessages WorkerUpdates SchedulerState Scheduling SchedulerLoop SchedulingRules
open CallRules TriggerCaches ObjectTransport ObjectDispatch

/-- The application of every session, as its call messages name it, and an
application for every function name and every bucket. -/
structure Attribution where
  /-- Application of a session. -/
  appOf : Session → Str
  /-- Application of a function name. -/
  owner : Str → Str
  /-- Application of a bucket. -/
  bucketOwner : Bucket → Str
  /-- The empty session is nobody's. -/
  appOf_nil : appOf []=[]
  /-- The empty name is no function. -/
  owner_nil : owner []=[]

variable {a : Attribution}

/-- An event names the application of its session. -/
def NamesApp (a : Attribution) : SchedEvent → Prop
  | .scheduled _ call => call.appName=a.appOf call.sessionId
  | .forwarding _ call => call.appName=a.appOf call.sessionId
  | .sent (.forward _ msg) => msg.appName=a.appOf msg.sessionId
  | _ => True

/-- A function of a session has been scheduled here. -/
def Scheduled (st : SchedState) (session : Session) (func : Str) : Prop :=
  ∃ origin call,.scheduled origin call∈st.trace ∧ call.sessionId=session ∧ call.funcName=func

/-- Calls are attributed to the application of their session. -/
structure Attributed (a : Attribution) (st : SchedState) : Prop where
  events : ∀ e∈st.trace,NamesApp a e
  delayed : ∀ call∈st.delayCallQueue,call.appName=a.appOf call.sessionId
  /-- For the objects of a call, the direct dependencies of its application
  are consulted. -/
  consulted : ∀ session func,Scheduled st session func → consultedApp st func=a.appOf session

/-- A function name is registered for its application. -/
def Registered (a : Attribution) (w : WorkerTables) (func : Str) : Prop :=
  w.funcAppMap.getD func []=a.owner func

/-- A registration names functions and buckets of its own application; the
targets it names are functions of the same registration or of an earlier one. -/
structure OwnNames (a : Attribution) (w : WorkerTables) (msg : UpdateCoordMsg) : Prop where
  functions : ∀ func∈msg.functions,a.owner func=msg.appName
  targets : ∀ dep∈msg.dependencies,∀ tgt∈dep.tgtFunctions,a.owner tgt=msg.appName ∧
    (tgt∈msg.functions ∨ Registered a w tgt)
  buckets : ∀ entity∈msg.triggers,a.bucketOwner entity.bucketName=msg.appName
  triggered : ∀ entity∈msg.triggers,a.owner entity.primitive.function=msg.appName ∧
    (entity.primitive.function∈msg.functions ∨ Registered a w entity.primitive.function)
  /-- Sources that are watched for re-execution. -/
  hints : ∀ entity∈msg.triggers,∀ hint∈entity.hints,a.owner hint.sourceFunction=msg.appName

/-- Registrations, calls and objects keep to the applications: a call names
the application of its session and registered functions of it; an object is
sent by a call that has been scheduled, into a bucket of its application. -/
def Separate (a : Attribution) (st : SchedState) : SchedLabel → Prop
  | .update msg => msg.msgType=0 → OwnNames a st.tables msg
  | .call msg => msg.appName=a.appOf msg.sessionId ∧
      ∀ req∈msg.requests,a.owner req.name=msg.appName ∧ Registered a st.tables req.name
  | .executor msg => (msg++[nulChar])[1]?=some 2 → ∀ info,objectInfo (cString msg 4)=some info →
      Scheduled st info.sessionId info.srcFunction ∧ a.bucketOwner info.bucket=a.appOf info.sessionId
  | _ => True

/-- What the tables say of applications, and the application of every
trigger by its identity. -/
structure Reading where
  /-- Application of a function. -/
  apps : Str → Str
  /-- Application of a bucket. -/
  buckets : Bucket → Str
  /-- Application of a trigger. -/
  home : ℕ → Str

variable {r : Reading}

/-- A call of its session's application, which its function belongs to. -/
structure Owned (a : Attribution) (r : Reading) (call : Invocation) : Prop where
  /-- The call names the application of its session. -/
  app : call.appName=a.appOf call.sessionId
  /-- Its function belongs to that application. -/
  owner : a.owner call.funcName=call.appName
  /-- Its function is registered for that application. -/
  registered : r.apps call.funcName=call.appName

/-- A request that waits for keys, of the application of its session. -/
structure OwnedRequest (a : Attribution) (r : Reading) (args : InflightFuncArgs) : Prop where
  /-- The function belongs to the application of the session. -/
  owner : a.owner args.funcName=a.appOf args.sessionId
  /-- The function is registered for that application. -/
  registered : r.apps args.funcName=a.appOf args.sessionId

/-- A remembered call of an application. -/
structure OwnedBy (a : Attribution) (r : Reading) (app : Str) (m : TriggerFunctionMetadata) : Prop where
  /-- The function belongs to the application. -/
  owner : a.owner m.funcName=app
  /-- The function is registered for the application. -/
  registered : r.apps m.funcName=app

/-- A trigger starts and remembers functions of its application. -/
structure AtHome (a : Attribution) (r : Reading) (nextId : ℕ) (p : TriggerPointer) : Prop where
  /-- The identity is in use. -/
  used : p.id<nextId
  target : OwnedBy a r (r.home p.id) ⟨p.trigger.targetFunction,[],0⟩
  remembers : Remembers (OwnedBy a r (r.home p.id)) p.trigger

/-- The tables and the pending checks keep to the applications. -/
structure OwnedTables (a : Attribution) (r : Reading) (w : WorkerTables)
    (queue : List RerunCheckQueueItem) : Prop where
  /-- The reading of functions is the worker's table. -/
  apps : ∀ func,w.funcAppMap.getD func []=r.apps func
  /-- The reading of buckets is the worker's table. -/
  buckets : ∀ bucket,w.bucketAppMap.getD bucket []=r.buckets bucket
  /-- The empty name is not registered. -/
  unnamed : r.apps []=[]
  /-- Direct targets belong to the application. -/
  targets : ∀ app src deps,(w.appInfoMap.getD app .unset).directDeps.find? src=some deps →
    ∀ tgt∈deps.elems,a.owner tgt=app ∧ r.apps tgt=app
  /-- Triggers belong to the application of their bucket. -/
  listed : ∀ bucket,∀ p∈w.bucketTriggersMap.getD bucket [],AtHome a r w.nextId p ∧
    r.home p.id=r.buckets bucket ∧ r.buckets bucket=a.bucketOwner bucket
  /-- Deleted triggers keep their application. -/
  removed : ∀ p∈w.removed,AtHome a r w.nextId p
  /-- Watched functions belong to the application of the trigger. -/
  hinted : ∀ func,∀ hint∈w.funcTriggerTimeoutMap.getD func [],
    a.owner func=r.home hint.triggerPtr ∧ hint.triggerPtr<w.nextId
  /-- Sessions of pending checks belong to the application of the trigger. -/
  queued : ∀ item∈queue,a.appOf item.session=r.home item.triggerPtr ∧ item.triggerPtr<w.nextId

/-- An event about calls of an application. -/
def OwnedEvent (a : Attribution) (r : Reading) : SchedEvent → Prop
  | .scheduled _ call => Owned a r call
  | e => NamesApp a e

/-- All calls keep to the applications, wherever they wait. -/
structure Kept (a : Attribution) (r : Reading) (w : WorkerTables) (queue : List RerunCheckQueueItem)
    (trace : List SchedEvent) (delayed : List DelayFunctionCall)
    (inflight : UMap UInt32 InflightFuncArgs) : Prop where
  tables : OwnedTables a r w queue
  events : ∀ e∈trace,OwnedEvent a r e
  delayed : ∀ call∈delayed,Owned a r call.toInvocation
  waiting : inflight.All (OwnedRequest a r)

/-- All calls that a worker's state holds keep to the applications. -/
def KeptIn (a : Attribution) (r : Reading) (st : SchedState) : Prop :=
  Kept a r st.tables st.rerunCheckQueue st.trace st.delayCallQueue st.callIdInflightArgsMap

variable {st : SchedState}

/-- Calls that keep to the applications are attributed to them. -/
theorem KeptIn.attributed (h : KeptIn a r st) : Attributed a st := by
  refine ⟨fun e he => ?_,fun call hc => (h.delayed call hc).app,?_⟩
  · have howned := h.events e he
    cases e with
    | scheduled origin call => exact howned.app
    | _ => exact howned
  · rintro session func ⟨origin,call,hm,rfl,rfl⟩
    have howned : Owned a r call := h.events _ hm
    rw [consultedApp,h.tables.apps,howned.registered,howned.app]

variable {nextId : ℕ} {t : Trigger}

variable {p : TriggerPointer}

theorem AtHome.of_trigger (h : AtHome a r nextId p)
    (htarget : t.targetFunction=p.trigger.targetFunction)
    (hremembers : Remembers (OwnedBy a r (r.home p.id)) t) :
    AtHome a r nextId {p with trigger := t} :=
  ⟨h.used,⟨by rw [htarget]; exact h.target.owner,by rw [htarget]; exact h.target.registered⟩,hremembers⟩

theorem groupAction_function (target : Str) (t : DynamicGroupTrigger) (bk : BucketKey) :
    ∀ action∈(t.actionForNewObject target bk).2,action.function=target := by
  intro action hm
  unfold DynamicGroupTrigger.actionForNewObject at hm
  dsimp only at hm
  split at hm
  · generalize (if bk.key∈t.controlGroup then t.curControlKeys.insert bk.key
      else t.curControlKeys)=control at hm
    split at hm
    · obtain ⟨group,-,rfl⟩ := List.mem_map.mp hm
      rfl
    · cases hm
  · cases hm

theorem actionForNewObject_function (t : Trigger) (now : ℤ) (bk : BucketKey) :
    ∀ action∈(t.actionForNewObject now bk).2,action.function=t.targetFunction := by
  intro action hm
  unfold Trigger.actionForNewObject TriggerState.actionForNewObject at hm
  dsimp only at hm
  split at hm
  · simp only [ImmediateTrigger.actionForNewObject,List.mem_singleton] at hm
    rw [hm]
  · simp only [ByNameTrigger.actionForNewObject] at hm
    split at hm
    · rw [List.mem_singleton.mp hm]
    · cases hm
  · simp only [ByBatchSizeTrigger.actionForNewObject] at hm
    split at hm
    · rw [List.mem_singleton.mp hm]
    · cases hm
  · simp only [BySetTrigger.actionForNewObject] at hm
    split at hm
    · split at hm
      · rw [List.mem_singleton.mp hm]
      · cases hm
    · cases hm
  · exact groupAction_function _ _ bk action hm
  · simp only [RedundantTrigger.actionForNewObject] at hm
    split at hm
    · split at hm
      · rw [List.mem_singleton.mp hm]
      · cases hm
    · split at hm <;> cases hm
  · simp only [ByTimeTrigger.actionForNewObject] at hm
    split at hm
    · rw [List.mem_singleton.mp hm]
    · cases hm

variable {w : WorkerTables} {queue : List RerunCheckQueueItem}

variable {call : Invocation} {hint : RerunTriggerTimeout}

/-- A call of the application is noted by the triggers of its hints. -/
theorem OwnedTables.note (h : OwnedTables a r w queue) (hcall : Owned a r call) (time : ℤ)
    (hhint : a.owner call.funcName=r.home hint.triggerPtr ∧ hint.triggerPtr<w.nextId) :
    OwnedTables a r (notifyPointer call hint.triggerPtr w)
      (queue++[⟨time,call.sessionId,hint.triggerPtr⟩]) := by
  have hnote : ∀ p,AtHome a r w.nextId p → AtHome a r w.nextId (notePointer call hint.triggerPtr p) := by
    intro p hp
    unfold notePointer
    split
    · rename_i hid
      have howned : OwnedBy a r (r.home p.id) ⟨call.funcName,call.funcArgs,call.argFlag⟩ := by
        rw [hid,←hhint.1]
        exact ⟨rfl,hcall.registered.trans hcall.owner.symm⟩
      exact hp.of_trigger rfl (remembers_notifySourceFunc hp.remembers howned _)
    · exact hp
  refine ⟨h.apps,h.buckets,h.unnamed,h.targets,fun bucket p hp => ?_,fun p hp => ?_,h.hinted,?_⟩
  · rw [notifyPointer_bucket] at hp
    obtain ⟨q,hq,rfl⟩ := List.mem_map.mp hp
    obtain ⟨hhome,hbucket⟩ := h.listed bucket q hq
    rw [notePointer_id]
    exact ⟨hnote q hhome,hbucket⟩
  · rw [notifyPointer_removed] at hp
    obtain ⟨q,hq,rfl⟩ := List.mem_map.mp hp
    exact hnote q (h.removed q hq)
  · refine List.forall_mem_append.mpr ⟨h.queued,List.forall_mem_singleton.mpr ⟨?_,hhint.2⟩⟩
    rw [←hhint.1,hcall.owner,hcall.app]

theorem keptIn_noteHints (hcall : Owned a r call) (time : ℤ) (h : KeptIn a r st) :
    KeptIn a r (noteHints call time st) := by
  let st1 : SchedState := {st with
    tables := {st.tables with
      funcTriggerTimeoutMap := st.tables.funcTriggerTimeoutMap.touch call.funcName []}}
  have hhints : ∀ u : SchedState,u.tables.funcTriggerTimeoutMap=st1.tables.funcTriggerTimeoutMap →
      ∀ hint∈st.tables.funcTriggerTimeoutMap.getD call.funcName [],
        hint∈u.tables.funcTriggerTimeoutMap.getD call.funcName [] := by
    intro u hu hint hm
    rw [hu]
    show hint∈(st.tables.funcTriggerTimeoutMap.touch call.funcName []).getD call.funcName []
    rw [UMap.getD_touch]
    exact hm
  have hread : KeptIn a r st1 := by
    have ht := h.tables
    refine ⟨⟨ht.apps,ht.buckets,ht.unnamed,ht.targets,ht.listed,ht.removed,fun func hint hm => ?_,
      ht.queued⟩,h.events,h.delayed,h.waiting⟩
    have hm' : hint∈(st.tables.funcTriggerTimeoutMap.touch call.funcName []).getD func [] := hm
    rw [UMap.getD_touch] at hm'
    exact ht.hinted func hint hm'
  have hall := List.foldlRecOn
    (motive:=fun u : SchedState => KeptIn a r u ∧
      u.tables.funcTriggerTimeoutMap=st1.tables.funcTriggerTimeoutMap)
    (st.tables.funcTriggerTimeoutMap.getD call.funcName []) (noteHint call time) ⟨hread,rfl⟩
    fun u hu hint hm => by
      have hhint := hu.1.tables.hinted call.funcName hint (hhints u hu.2 hint hm)
      exact ⟨⟨hu.1.tables.note hcall _ hhint,hu.1.events,hu.1.delayed,hu.1.waiting⟩,hu.2⟩
  exact hall.1

theorem owned_unset (h : r.apps []=[]) : OwnedRequest a r .unset :=
  ⟨a.owner_nil.trans a.appOf_nil.symm,h.trans a.appOf_nil.symm⟩

theorem OwnedTables.arrive (h : OwnedTables a r w queue) (now : ℤ) (bk : BucketKey) :
    OwnedTables a r {w with
      bucketTriggersMap := w.bucketTriggersMap.set bk.bucket
        ((w.bucketTriggersMap.getD bk.bucket []).zipWith (fun p r => {p with trigger := r.1})
          (arrivals now ((w.bucketTriggersMap.getD bk.bucket []).map TriggerPointer.trigger) bk))}
      queue := by
  refine ⟨h.apps,h.buckets,h.unnamed,h.targets,fun bucket p hp => ?_,h.removed,h.hinted,h.queued⟩
  have hp' : p∈(w.bucketTriggersMap.set bk.bucket _).getD bucket [] := hp
  rw [UMap.getD_set] at hp'
  split at hp'
  · rename_i hb
    rw [hb]
    refine forall_arrivals (fun p hp => ?_) (h.listed bk.bucket) p hp'
    exact ⟨hp.1.of_trigger rfl (remembers_actionForNewObject hp.1.remembers now bk),hp.2⟩
  · exact h.listed bucket p hp'

variable {m : TriggerFunctionMetadata}

/-- What is remembered for a pending check belongs to its session. -/
theorem OwnedTables.rerun (h : OwnedTables a r w queue) {item : RerunCheckQueueItem}
    (hitem : item∈queue) (ht : pointerTrigger w item.triggerPtr=some t)
    (hm : m∈t.actionForRerun item.session) : OwnedBy a r (a.appOf item.session) m := by
  obtain ⟨p,hp,rfl⟩ := Option.map_eq_some_iff.mp ht
  have hfound := List.find?_some hp
  have hid : p.id=item.triggerPtr := of_decide_eq_true hfound
  have hhome : AtHome a r w.nextId p := by
    rcases List.mem_append.mp (List.mem_of_find?_eq_some hp) with hlisted|hremoved
    · obtain ⟨e,he,hpe⟩ := List.mem_flatMap.mp hlisted
      have hget : w.bucketTriggersMap.getD e.1 []=e.2 := by
        rw [UMap.getD,UMap.find?_eq_some_iff.mpr he]
        rfl
      exact (h.listed e.1 p (hget ▸ hpe)).1
    · exact h.removed p hremoved
  rw [(h.queued item hitem).1,←hid]
  exact remembers_actionForRerun hhome.remembers hm

/-- The applications as an invariant about calls. -/
theorem kept_rules (a : Attribution) (r : Reading) :
    CallInvariant (Owned a r) (OwnedRequest a r) (OwnedEvent a r) (KeptIn a r) where
  toReadFrame := .of_idle (fun _ _ hi h => by
      refine ⟨⟨fun f => (hi.funcApps f).trans (h.tables.apps f),
        fun b => (hi.bucketApps b).trans (h.tables.buckets b),h.tables.unnamed,?_,?_,?_,?_,?_⟩,
        hi.trace ▸ h.events,hi.delayCallQueue ▸ h.delayed,hi.waiting.1 ▸ h.waiting⟩
      · intro app
        rw [hi.appInfos]
        exact h.tables.targets app
      · rw [hi.triggers.1,hi.triggers.2.2]
        exact h.tables.listed
      · rw [hi.triggers.2.1,hi.triggers.2.2]
        exact h.tables.removed
      · rw [hi.hints,hi.triggers.2.2]
        exact h.tables.hinted
      · rw [hi.rerunCheckQueue,hi.triggers.2.2]
        exact h.tables.queued)
    (fun _ _ _ h h' hk => h' (h hk)) fun _ _ he h => ⟨h.tables,List.forall_mem_append.mpr
      ⟨h.events,List.forall_mem_singleton.mpr he⟩,h.delayed,h.waiting⟩
  numbers _ _ _ h := h
  awaited _ _ h := h
  puts _ _ h := h
  requested _ _ := trivial
  scheduled _ _ h := h
  sent out hout := by
    cases out with
    | forward coord msg => exact absurd rfl (hout coord msg)
    | _ => trivial
  forwarded call coord msg hcall happ hsession :=
    show msg.appName=a.appOf msg.sessionId by rw [happ,hsession,hcall.app]
  overflow st origin call args hcall _ _ h :=
    ⟨h.tables,List.forall_mem_append.mpr ⟨h.events,List.forall_mem_singleton.mpr hcall.app⟩,
      h.delayed,h.waiting⟩
  passed st site call _ hcall h := by
    obtain ⟨original,howned,hsession,happ⟩ := hcall.exists
    have hevent : call.appName=a.appOf call.sessionId := by rw [←happ,←hsession,howned.app]
    exact ⟨h.tables,List.forall_mem_append.mpr ⟨h.events,List.forall_mem_singleton.mpr hevent⟩,
      h.delayed,h.waiting⟩
  delayed _ h := h.delayed
  delay _ _ hcalls h := ⟨h.tables,h.events,hcalls,h.waiting⟩
  waiting st h callId := by
    rw [UMap.getD]
    cases hf : st.callIdInflightArgsMap.find? callId with
    | none => exact owned_unset h.tables.unnamed
    | some args => exact h.waiting callId args hf
  wait _ callId _ hargs h := ⟨h.tables,h.events,h.delayed,h.waiting.set callId hargs⟩
  settle _ callId h := ⟨h.tables,h.events,h.delayed,h.waiting.erase callId⟩
  arrive _ _ h := ⟨h.owner,h.registered⟩
  complete st args h hargs _ := by
    have hread : st.tables.funcAppMap.getD args.funcName []=a.appOf args.sessionId :=
      (h.tables.apps args.funcName).trans hargs.registered
    exact ⟨hread,hargs.owner.trans hread.symm,hargs.registered.trans hread.symm⟩
  noteHints _ _ time hcall h := keptIn_noteHints hcall time h
  rerunCheckQueue _ _ hsub h := ⟨⟨h.tables.apps,h.tables.buckets,h.tables.unnamed,h.tables.targets,
    h.tables.listed,h.tables.removed,h.tables.hinted,fun item hi => h.tables.queued item (hsub item hi)⟩,
    h.events,h.delayed,h.waiting⟩
  rerun st item t m h hitem ht hm u hu := by
    have howned := h.tables.rerun hitem ht hm
    have hread : u.tables.funcAppMap.getD m.funcName []=a.appOf item.session :=
      (hu.tables.apps m.funcName).trans howned.registered
    exact ⟨hread,howned.owner.trans hread.symm,howned.registered.trans hread.symm⟩
  keyLenMap _ _ h := h
  keyValMap _ _ h := h
  gets _ _ h := h
  arrivedAt cfg st bk h := ⟨h.tables.arrive (cfg.clock st.tick) bk,h.events,h.delayed,h.waiting⟩

variable {cfg : SchedulerConfig}

/-- A call that an object's triggers ask for belongs to the bucket's application. -/
theorem KeptIn.triggered (h : KeptIn a r st) {bk : BucketKey}
    (hm : m∈(checkObjectArrival cfg st bk).2.1) :
    OwnedBy a r (a.bucketOwner bk.bucket) m ∧ r.buckets bk.bucket=a.bucketOwner bk.bucket := by
  have hname : m.funcName∈(results cfg st bk).flatMap fun r => r.2.map TriggerAction.function := by
    rw [←activeFuncMetadatas_funcNames bk.bucket _ (arrivedAt cfg st bk)]
    exact List.mem_map_of_mem hm
  obtain ⟨result,hresult,hfunc⟩ := List.mem_flatMap.mp hname
  obtain ⟨action,haction,hfunction⟩ := List.mem_map.mp hfunc
  obtain ⟨t,ht,rfl⟩ := List.mem_map.mp hresult
  obtain ⟨p,hp,rfl⟩ := List.mem_map.mp ht
  obtain ⟨hhome,hbucket,howner⟩ := h.tables.listed bk.bucket p hp
  have htarget := actionForNewObject_function p.trigger _ bk action haction
  have hsame : r.home p.id=a.bucketOwner bk.bucket := hbucket.trans howner
  rw [←hsame]
  refine ⟨⟨?_,?_⟩,hbucket.symm⟩
  · rw [←hfunction,htarget]
    exact hhome.target.owner
  · rw [←hfunction,htarget]
    exact hhome.target.registered

variable {l : SchedLabel}

/-- Steps that keep to the applications bring in such calls only. -/
theorem sound_of_separate (h : KeptIn a r st) (hl : Separate a st l) (hu : ∀ msg,l≠.update msg) :
    Sound (Owned a r) (OwnedRequest a r) (KeptIn a r) cfg l := by
  cases l with
  | executor msg =>
    intro hk isDataPacking info hinfo
    obtain ⟨⟨origin,call,hcall,hsession,hfunc⟩,hbucket⟩ := hl hk info hinfo
    have howned : Owned a r call := h.events _ hcall
    have happ : r.apps info.srcFunction=a.appOf info.sessionId := by
      rw [←hfunc,←hsession,howned.registered,howned.app]
    refine ⟨fun u u1 hkept hrec deps hdeps func hf => ?_,fun u hkept m hm v hv => ?_⟩
    · obtain ⟨lens,rfl,-⟩ := recordObject_ok hrec
      have hread : u.tables.funcAppMap.getD info.srcFunction []=a.appOf info.sessionId :=
        (hkept.tables.apps info.srcFunction).trans happ
      obtain ⟨howner,hreg⟩ := hkept.tables.targets _ _ deps hdeps func hf
      exact ⟨hread,howner,hreg⟩
    · obtain ⟨hby,hread⟩ := hkept.triggered hm
      rw [BucketKey.ofSessionKey_bucket] at hby hread
      have hown : v.tables.bucketAppMap.getD info.bucket []=a.bucketOwner info.bucket :=
        (hv.tables.buckets info.bucket).trans hread
      rw [BucketKey.ofSessionKey_bucket,hown]
      exact ⟨hbucket,hby.owner,hby.registered⟩
  | update msg => exact absurd rfl (hu msg)
  | call msg =>
    intro req hr
    obtain ⟨happ,hreqs⟩ := hl
    obtain ⟨howner,hregistered⟩ := hreqs req hr
    have hreg : r.apps req.name=msg.appName := by
      rw [←h.tables.apps,hregistered,howner]
    exact ⟨fun _ => ⟨happ,howner,hreg⟩,fun _ _ => ⟨happ,howner,hreg⟩,
      fun _ _ => ⟨howner.trans happ,hreg.trans happ⟩⟩
  | _ => trivial

/-- Registered functions stay registered. -/
def Extends (a : Attribution) (r r' : Reading) : Prop :=
  ∀ func app,a.owner func=app → r.apps func=app → r'.apps func=app

variable {r' : Reading}

variable {app : Str}

theorem OwnedBy.extend (h : OwnedBy a r app m) (hr : Extends a r r') :
    OwnedBy a r' app m := ⟨h.owner,hr _ _ h.owner h.registered⟩

theorem AtHome.extend {nextId' : ℕ} (h : AtHome a r nextId p) (hr : Extends a r r')
    (hnext : nextId≤nextId') (hhome : r'.home p.id=r.home p.id) : AtHome a r' nextId' p := by
  refine ⟨h.used.trans_le hnext,?_,?_⟩
  · rw [hhome]
    exact h.target.extend hr
  · rw [hhome]
    exact h.remembers.imp fun m hm => hm.extend hr

theorem OwnedTables.extend (h : OwnedTables a r w queue) {funcs : UMap Str Str}
    {infos : UMap Str AppInfo} {apps : Str → Str} (hr : Extends a r {r with apps := apps})
    (happs : ∀ func,funcs.getD func []=apps func) (hunnamed : apps []=[])
    (hinfos : ∀ app,(infos.getD app .unset).directDeps=(w.appInfoMap.getD app .unset).directDeps) :
    OwnedTables a {r with apps := apps} {w with funcAppMap := funcs,appInfoMap := infos} queue := by
  refine ⟨happs,h.buckets,hunnamed,fun app src deps hdeps tgt ht => ?_,fun bucket p hp => ?_,
    fun p hp => ?_,h.hinted,h.queued⟩
  · have hdeps' : (infos.getD app .unset).directDeps.find? src=some deps := hdeps
    rw [hinfos] at hdeps'
    obtain ⟨howner,hreg⟩ := h.targets app src deps hdeps' tgt ht
    exact ⟨howner,hr tgt app howner hreg⟩
  · obtain ⟨hhome,hbucket⟩ := h.listed bucket p hp
    exact ⟨hhome.extend hr le_rfl rfl,hbucket⟩
  · exact (h.removed p hp).extend hr le_rfl rfl

theorem foldl_addFunction_tables (app : Str) (funcs : List Str) (w : WorkerTables) :
    ∃ apps infos,funcs.foldl (addFunction app) w={w with funcAppMap := apps,appInfoMap := infos} ∧
      (∀ func,apps.getD func []=if func∈funcs then app else w.funcAppMap.getD func []) ∧
      ∀ app',(infos.getD app' .unset).directDeps=(w.appInfoMap.getD app' .unset).directDeps := by
  induction funcs generalizing w with
  | nil => exact ⟨_,_,rfl,fun _ => rfl,fun _ => rfl⟩
  | cons func funcs ih =>
    obtain ⟨apps,infos,heq,happs,hinfos⟩ := ih (addFunction app w func)
    refine ⟨apps,infos,heq,fun f => ?_,fun app' => ?_⟩
    · rw [happs f]
      show (if f∈funcs then app else (w.funcAppMap.set func app).getD f [])=_
      rw [UMap.getD_set]
      by_cases hf : f=func
      · simp [hf]
      · simp [hf]
    · rw [hinfos app']
      show ((w.appInfoMap.set app _).getD app' .unset).directDeps=_
      rw [UMap.getD_set]
      split
      · rename_i happ
        rw [happ]
      · rfl

/-- The functions of a registration belong to its application. -/
theorem OwnedTables.functions (h : OwnedTables a r w queue) {funcs : List Str}
    (hfuncs : ∀ func∈funcs,a.owner func=app) :
    ∃ r',Extends a r r' ∧ (∀ func∈funcs,r'.apps func=app) ∧
      OwnedTables a r' (funcs.foldl (addFunction app) w) queue := by
  obtain ⟨apps,infos,heq,happs,hinfos⟩ := foldl_addFunction_tables app funcs w
  let read : Str → Str := fun func => if func∈funcs then app else r.apps func
  have hr : Extends a r {r with apps := read} := by
    intro func app' howner hreg
    show (if func∈funcs then app else r.apps func)=app'
    split
    · rename_i hm
      rw [←hfuncs func hm,howner]
    · exact hreg
  refine ⟨{r with apps := read},hr,fun func hm => if_pos hm,?_⟩
  rw [heq]
  refine h.extend hr (fun func => ?_) (hr [] [] a.owner_nil h.unnamed) hinfos
  rw [happs,h.apps]

/-- A direct target of the application is recorded. -/
theorem OwnedTables.addTarget (h : OwnedTables a r w queue) {tgt : Str} (howner : a.owner tgt=app)
    (hreg : r.apps tgt=app) (src : Str) : OwnedTables a r (addTarget app src w tgt) queue := by
  refine ⟨h.apps,h.buckets,h.unnamed,fun app' src' deps hdeps t ht => ?_,h.listed,h.removed,h.hinted,
    h.queued⟩
  have hdeps' : ((w.appInfoMap.set app _).getD app' .unset).directDeps.find? src'=some deps := hdeps
  rw [UMap.getD_set] at hdeps'
  split at hdeps'
  · rename_i happ
    have hset : ((w.appInfoMap.getD app .unset).directDeps.set src
        (((w.appInfoMap.getD app .unset).directDeps.getD src ∅).insert tgt)).find? src'=some deps := hdeps'
    rw [UMap.find?_set] at hset
    split at hset
    · rename_i hsrc
      cases hset
      rcases USet.mem_insert.mp (USet.mem_def.mpr ht) with rfl|hold
      · exact happ ▸ ⟨howner,hreg⟩
      · rw [UMap.getD] at hold
        cases hf : (w.appInfoMap.getD app .unset).directDeps.find? src with
        | none =>
          rw [hf] at hold
          exact absurd hold (USet.not_mem_empty t)
        | some deps =>
          rw [hf] at hold
          rw [happ]
          exact h.targets app src deps hf t hold
    · rw [happ]
      exact h.targets app src' deps hset t ht
  · exact h.targets app' src' deps hdeps' t ht

variable {v : WorkerTables}

variable {now : ℤ} {entity : TriggerEntity}

theorem entityTrigger_target (h : entityTrigger now entity=some t) :
    t.targetFunction=entity.primitive.function := by
  unfold entityTrigger at h
  split at h
  · cases h
  · obtain ⟨u,hu,rfl⟩ := Option.map_eq_some_iff.mp h
    obtain ⟨s,-,rfl⟩ := Option.map_eq_some_iff.mp hu
    cases s <;> rfl

variable {hints : List RerunHint}

theorem foldl_addHint_mem {id : ℕ} {m : UMap Str (List RerunTriggerTimeout)} {func : Str}
    (h : hint∈(hints.foldl (addHint id) m).getD func []) :
    hint∈m.getD func [] ∨ hint.triggerPtr=id ∧ ∃ given∈hints,given.sourceFunction=func := by
  induction hints generalizing m with
  | nil => exact Or.inl h
  | cons given hints ih =>
    rcases ih h with hold|⟨hid,other,hm,hfunc⟩
    · have hold' : hint∈(m.set given.sourceFunction
          (m.getD given.sourceFunction []++[⟨id,given.timeout⟩])).getD func [] := hold
      rw [UMap.getD_set] at hold'
      split at hold'
      · rename_i hf
        rcases List.mem_append.mp hold' with hm|hm
        · exact Or.inl (hf ▸ hm)
        · rw [List.mem_singleton.mp hm]
          exact Or.inr ⟨rfl,given,List.mem_cons_self,hf.symm⟩
      · exact Or.inl hold'
    · exact Or.inr ⟨hid,other,List.mem_cons_of_mem _ hm,hfunc⟩

variable {bucket : Bucket}

theorem OwnedTables.assign (h : OwnedTables a r w queue) (hbucket : a.bucketOwner bucket=app)
    (coord : HandlerThread) (buckets : List Bucket) :
    OwnedTables a {r with buckets := Function.update r.buckets bucket app} {w with
      bucketCoordMap := w.bucketCoordMap.set bucket coord
      appInfoMap := w.appInfoMap.set app {w.appInfoMap.getD app .unset with buckets := buckets}
      bucketAppMap := w.bucketAppMap.set bucket app} queue := by
  refine ⟨h.apps,fun b => ?_,h.unnamed,fun app' src deps hdeps => ?_,fun b p hp => ?_,?_,
    h.hinted,h.queued⟩
  · show (w.bucketAppMap.set bucket app).getD b []=Function.update r.buckets bucket app b
    rw [UMap.getD_set,Function.update_apply,h.buckets]
  · have hdeps' : ((w.appInfoMap.set app _).getD app' .unset).directDeps.find? src=some deps := hdeps
    rw [UMap.getD_set] at hdeps'
    split at hdeps'
    · rename_i happ
      rw [happ]
      exact h.targets app src deps hdeps'
    · exact h.targets app' src deps hdeps'
  · obtain ⟨hhome,hread,howner⟩ := h.listed b p hp
    refine ⟨⟨hhome.used,⟨hhome.target.owner,hhome.target.registered⟩,
      hhome.remembers.imp fun m hm => ⟨hm.owner,hm.registered⟩⟩,?_⟩
    show r.home p.id=Function.update r.buckets bucket app b ∧
      Function.update r.buckets bucket app b=a.bucketOwner b
    rw [Function.update_apply]
    split
    · rename_i hb
      rw [hread,howner,hb,hbucket]
      exact ⟨rfl,rfl⟩
    · exact ⟨hread,howner⟩
  · intro p hp
    have hhome := h.removed p hp
    exact ⟨hhome.used,⟨hhome.target.owner,hhome.target.registered⟩,
      hhome.remembers.imp fun m hm => ⟨hm.owner,hm.registered⟩⟩

/-- A new trigger gets the application of its bucket. -/
theorem OwnedTables.create (h : OwnedTables a r w queue) (hread : r.buckets bucket=app)
    (hbucket : a.bucketOwner bucket=app) (howner : a.owner t.targetFunction=app)
    (hreg : r.apps t.targetFunction=app) (hnew : ∀ S,Remembers S t)
    (hhints : ∀ hint∈hints,a.owner hint.sourceFunction=app) :
    OwnedTables a {r with home := Function.update r.home w.nextId app} {w with
      bucketTriggersMap := w.bucketTriggersMap.set bucket
        (w.bucketTriggersMap.getD bucket []++[⟨w.nextId,t⟩])
      nextId := w.nextId+1
      funcTriggerTimeoutMap := hints.foldl (addHint w.nextId) w.funcTriggerTimeoutMap} queue := by
  have hkeep : ∀ id<w.nextId,Function.update r.home w.nextId app id=r.home id :=
    fun id hid => Function.update_of_ne (Nat.ne_of_lt hid) _ _
  have hext : Extends a r {r with home := Function.update r.home w.nextId app} := fun _ _ _ hreg => hreg
  have hold : ∀ p,AtHome a r w.nextId p →
      AtHome a {r with home := Function.update r.home w.nextId app} (w.nextId+1) p := fun p hp =>
    hp.extend hext (Nat.le_succ _) (hkeep p.id hp.used)
  refine ⟨h.apps,h.buckets,h.unnamed,h.targets,fun b p hp => ?_,fun p hp => hold p (h.removed p hp),
    fun func hint hm => ?_,fun item hi => ?_⟩
  · have hlisted : ∀ b,∀ p∈w.bucketTriggersMap.getD b [],
        AtHome a {r with home := Function.update r.home w.nextId app} (w.nextId+1) p ∧
          Function.update r.home w.nextId app p.id=r.buckets b ∧ r.buckets b=a.bucketOwner b := by
      intro b p hp
      obtain ⟨hhome,hbucket⟩ := h.listed b p hp
      exact ⟨hold p hhome,by rw [hkeep p.id hhome.used]; exact hbucket⟩
    have hp' : p∈(w.bucketTriggersMap.set bucket
      (w.bucketTriggersMap.getD bucket []++[⟨w.nextId,t⟩])).getD b [] := hp
    rw [UMap.getD_set] at hp'
    split at hp'
    · rename_i hb
      rcases List.mem_append.mp hp' with hm|hm
      · exact hb ▸ hlisted bucket p hm
      · rw [List.mem_singleton.mp hm]
        have hself : Function.update r.home w.nextId app w.nextId=app := Function.update_self _ _ _
        refine ⟨⟨Nat.lt_succ_self _,?_,hnew _⟩,?_⟩
        · show OwnedBy a _ (Function.update r.home w.nextId app w.nextId) _
          rw [hself]
          exact ⟨howner,hreg⟩
        · show Function.update r.home w.nextId app w.nextId=r.buckets b ∧ _
          rw [hself,hb,hread,hbucket]
          exact ⟨rfl,rfl⟩
    · exact hlisted b p hp'
  · show a.owner func=Function.update r.home w.nextId app hint.triggerPtr ∧ hint.triggerPtr<w.nextId+1
    rcases foldl_addHint_mem hm with hm|⟨hid,given,hgiven,hfunc⟩
    · obtain ⟨hown,hused⟩ := h.hinted func hint hm
      rw [hkeep _ hused]
      exact ⟨hown,Nat.lt_succ_of_lt hused⟩
    · rw [hid,Function.update_self,←hfunc]
      exact ⟨hhints given hgiven,Nat.lt_succ_self _⟩
  · show a.appOf item.session=Function.update r.home w.nextId app item.triggerPtr ∧ _<w.nextId+1
    obtain ⟨hown,hused⟩ := h.queued item hi
    rw [hkeep _ hused]
    exact ⟨hown,Nat.lt_succ_of_lt hused⟩

theorem OwnedTables.addTrigger {coord : HandlerThread} (h : OwnedTables a r w queue)
    (hbucket : a.bucketOwner entity.bucketName=app) (howner : a.owner entity.primitive.function=app)
    (hreg : r.apps entity.primitive.function=app)
    (hhints : ∀ hint∈entity.hints,a.owner hint.sourceFunction=app) :
    ∃ r',r'.apps=r.apps ∧ OwnedTables a r' (addTrigger now app coord w entity) queue := by
  have hassigned := h.assign hbucket coord
    ((w.appInfoMap.getD app .unset).buckets++[entity.bucketName])
  unfold WorkerUpdates.addTrigger
  dsimp only
  split
  · exact ⟨{r with buckets := Function.update r.buckets entity.bucketName app},rfl,hassigned⟩
  · rename_i t ht
    have htarget := entityTrigger_target ht
    refine ⟨⟨r.apps,Function.update r.buckets entity.bucketName app,Function.update r.home w.nextId app⟩,
      rfl,hassigned.create (Function.update_self _ _ _) hbucket ?_ ?_
      (fun S => remembers_entityTrigger ht) hhints⟩
    · rw [htarget]
      exact howner
    · rw [htarget]
      exact hreg

variable {msg : UpdateCoordMsg}

/-- A registration that keeps to its application. -/
theorem OwnedTables.addUpdate (h : OwnedTables a r w queue) (hmsg : OwnNames a w msg)
    (hr : addUpdate now w msg=some v) : ∃ r',Extends a r r' ∧ OwnedTables a r' v queue := by
  obtain ⟨u,hu,hv⟩ := Option.bind_eq_some_iff.mp hr
  have hcoord : OwnedTables a r {w with
      appCoordMap := w.appCoordMap.set msg.appName ⟨msg.ip,msg.threadId⟩} queue :=
    ⟨h.apps,h.buckets,h.unnamed,h.targets,h.listed,h.removed,h.hinted,h.queued⟩
  obtain ⟨r1,hext,hnew,hfuncs⟩ := hcoord.functions hmsg.functions
  have hknown : ∀ func,a.owner func=msg.appName → func∈msg.functions ∨ Registered a w func →
      r1.apps func=msg.appName := by
    intro func howner hcase
    rcases hcase with hm|hreg
    · exact hnew func hm
    · exact hext func _ howner (by rw [←h.apps,hreg,howner])
  have hdeps : OwnedTables a r1 u queue := by
    refine addDependencies_invariant (I:=fun x => OwnedTables a r1 x queue)
      (fun x dep hdep _ src _ tgt ht hx => ?_) hfuncs hu
    obtain ⟨howner,hcase⟩ := hmsg.targets dep hdep tgt ht
    exact hx.addTarget howner (hknown tgt howner hcase) src
  rw [←Option.some.inj hv]
  obtain ⟨r2,hsame,htables⟩ := List.foldlRecOn
    (motive:=fun x => ∃ r2 : Reading,r2.apps=r1.apps ∧ OwnedTables a r2 x queue) msg.triggers
    (WorkerUpdates.addTrigger now msg.appName ⟨msg.ip,msg.threadId⟩) ⟨r1,rfl,hdeps⟩
    fun x hx entity he => by
      obtain ⟨r2,hsame,hx⟩ := hx
      obtain ⟨howner,hcase⟩ := hmsg.triggered entity he
      have hreg : r2.apps entity.primitive.function=msg.appName := by
        rw [hsame]
        exact hknown _ howner hcase
      obtain ⟨r3,hsame3,hx3⟩ := hx.addTrigger (hmsg.buckets entity he) howner hreg (hmsg.hints entity he)
      exact ⟨r3,hsame3.trans hsame,hx3⟩
  refine ⟨r2,fun func app howner hreg => ?_,htables⟩
  rw [hsame]
  exact hext func app howner hreg

theorem OwnedTables.clearEntity (h : OwnedTables a r w queue) (entity : TriggerEntity) :
    OwnedTables a r (clearEntity w entity) queue := by
  refine ⟨h.apps,h.buckets,h.unnamed,h.targets,fun bucket p hp => ?_,h.removed,h.hinted,h.queued⟩
  have hp' : p∈(w.bucketTriggersMap.set entity.bucketName _).getD bucket [] := hp
  rw [UMap.getD_set] at hp'
  split at hp'
  · rename_i hb
    obtain ⟨q,hq,rfl⟩ := List.mem_map.mp hp'
    obtain ⟨hhome,hbucket⟩ := h.listed entity.bucketName q hq
    rw [hb]
    refine ⟨?_,hbucket⟩
    dsimp only
    split
    · exact hhome.of_trigger rfl (remembers_clear hhome.remembers _)
    · exact hhome
  · exact h.listed bucket p hp'

theorem OwnedTables.deleteEntity (h : OwnedTables a r w queue) (hd : deleteEntity w entity=some v) :
    OwnedTables a r v queue := by
  unfold WorkerUpdates.deleteEntity at hd
  dsimp only at hd
  split at hd
  · cases hd
  · rename_i found hfound
    rw [←Option.some.inj hd]
    have hlist := h.listed entity.bucketName
    refine ⟨h.apps,h.buckets,h.unnamed,h.targets,fun bucket p hp => ?_,?_,h.hinted,h.queued⟩
    · have hp' : p∈(w.bucketTriggersMap.set entity.bucketName _).getD bucket [] := hp
      rw [UMap.getD_set] at hp'
      split at hp'
      · rename_i hb
        rw [hb]
        exact hlist p (List.mem_of_mem_eraseP hp')
      · exact h.listed bucket p hp'
    · refine List.forall_mem_append.mpr ⟨h.removed,List.forall_mem_singleton.mpr ?_⟩
      exact (hlist found (List.mem_of_find?_eq_some hfound)).1

theorem OwnedTables.recvUpdate (h : OwnedTables a r w queue)
    (hmsg : msg.msgType=0 → OwnNames a w msg) (hr : recvUpdate now w msg=some v) :
    ∃ r',Extends a r r' ∧ OwnedTables a r' v queue := by
  by_cases hzero : msg.msgType=0
  · rw [WorkerUpdates.recvUpdate,if_pos hzero] at hr
    exact h.addUpdate (hmsg hzero) hr
  · have hclear : ∀ x entity,OwnedTables a r x queue →
        OwnedTables a r (WorkerUpdates.clearEntity x entity) queue :=
      fun _ entity hx => hx.clearEntity entity
    have hdelete : ∀ x y entity,OwnedTables a r x queue →
        WorkerUpdates.deleteEntity x entity=some y → OwnedTables a r y queue :=
      fun _ _ _ hx hd => hx.deleteEntity hd
    refine ⟨r,fun _ _ _ hreg => hreg,?_⟩
    exact recvUpdate_invariant (fun ht => absurd ht hzero) hclear hdelete h hr

/-- One step that keeps to the applications. -/
theorem kept_step {st' : SchedState} (h : ∃ r,KeptIn a r st) (hl : Separate a st l)
    (hs : step cfg st l=some st') : ∃ r,KeptIn a r st' := by
  obtain ⟨r,hkept⟩ := h
  have hok := step_eq_some hs
  by_cases hu : ∀ msg,l≠.update msg
  · have hsound : Sound (Owned a r) (OwnedRequest a r) (KeptIn a r) cfg l :=
      sound_of_separate hkept hl hu
    have hend := (kept_rules a r).outcome hsound hkept
    rw [hok] at hend
    exact ⟨r,hend⟩
  · obtain ⟨msg,rfl⟩ := not_forall_not.mp hu
    obtain ⟨w,hw,rfl⟩ := map_eq_ok hok
    obtain ⟨r',hext,htables⟩ := hkept.tables.recvUpdate hl (orFault_eq_ok hw)
    have hcall : ∀ call,Owned a r call → Owned a r' call := fun call hc =>
      ⟨hc.app,hc.owner,hext _ _ hc.owner hc.registered⟩
    refine ⟨r',htables,fun e he => ?_,fun call hc => hcall _ (hkept.delayed call hc),fun k args hf => ?_⟩
    · have hold := hkept.events e he
      cases e with
      | scheduled origin call => exact hcall call hold
      | _ => exact hold
    · have hold := hkept.waiting k args hf
      exact ⟨hold.owner,hext _ _ hold.owner hold.registered⟩

theorem kept_start (a : Attribution) (cfg : SchedulerConfig) (seed : UInt32) :
    KeptIn a ⟨fun _ => [],fun _ => [],fun _ => []⟩ (.start cfg seed) :=
  ⟨⟨fun _ => rfl,fun _ => rfl,rfl,nofun,nofun,nofun,nofun,nofun⟩,nofun,nofun,UMap.all_empty _⟩

/-- In every run in which registrations, calls and objects keep to the
applications, every call is attributed to the application of its session,
wherever it comes from. -/
theorem calls_keep_application (a : Attribution) (cfg : SchedulerConfig) (seed : UInt32)
    (ls : List SchedLabel) (st : SchedState)
    (hsep : StepsMeet (step cfg) (Separate a) (.start cfg seed) ls)
    (hrun : run (step cfg) (.start cfg seed) ls=some st) : Attributed a st := by
  have hstep : ∀ st l st',(∃ r,KeptIn a r st) → Separate a st l → step cfg st l=some st' →
      ∃ r,KeptIn a r st' := fun _ _ _ h hl hs => kept_step h hl hs
  obtain ⟨r,hkept⟩ := run_invariant_of_steps hstep ⟨_,kept_start a cfg seed⟩ hsep hrun
  exact hkept.attributed

/-- An application registers functions, the first of which starts the others. -/
def registers (app : Str) (func : Str) (tgts : List Str) : SchedLabel :=
  .update ⟨str "10.0.0.9",0,app,func::tgts,[⟨.direct,[func],tgts,[]⟩],[],0⟩

/-- A call of the function f for an application, with one object. -/
def callsFor (app : Str) : SchedLabel :=
  .call ⟨app,[⟨str "f",[⟨str "b|k_s",1,str "tcp://10.0.0.2:4400"⟩]⟩],[],[],[],str "s",false⟩

/-- The object of that call arrives. -/
def objectArrives : SchedLabel := .data (5::str "b|k_s"++str "abc")

/-- Function f belongs to the first application, function h to the second. -/
def apart : Attribution where
  appOf session := if session=str "s" then str "A" else []
  owner func := if func=str "f" ∨ func=str "g" then str "A" else if func=str "h" then str "B" else []
  bucketOwner _ := []
  appOf_nil := by decide
  owner_nil := by decide

theorem separate_registers (st : SchedState) (app func : Str) (tgts : List Str)
    (h : ∀ f∈func::tgts,apart.owner f=app) : Separate apart st (registers app func tgts) := by
  intro _
  refine ⟨h,?_,nofun,nofun,nofun⟩
  refine List.forall_mem_singleton.mpr fun tgt ht => ?_
  exact ⟨h tgt (List.mem_cons_of_mem _ ht),Or.inl (List.mem_cons_of_mem _ ht)⟩

theorem calls_keep_application_apart : ∃ st,
    run (step sampleConfig) (.start sampleConfig 1) [registers (str "A") (str "f") [str "g"],
      registers (str "B") (str "h") [],callsFor (str "A"),objectArrives]=some st ∧
    Attributed apart st := by
  have hcomputed : ((run (step sampleConfig) (.start sampleConfig 1)
      [registers (str "A") (str "f") [str "g"],registers (str "B") (str "h") []]).bind fun st =>
        (run (step sampleConfig) st [callsFor (str "A"),objectArrives]).map fun _ =>
          decide (st.tables.funcAppMap.getD (str "f") []=str "A"))=some true := by decide +kernel
  obtain ⟨st2,hst2,hrest⟩ := Option.bind_eq_some_iff.mp hcomputed
  obtain ⟨st,hst,hdecided⟩ := Option.map_eq_some_iff.mp hrest
  obtain ⟨st1,hstep1,hrun1⟩ := run_cons_eq_some.mp hst2
  obtain ⟨st2',hstep2,hnil⟩ := run_cons_eq_some.mp hrun1
  cases hnil
  obtain ⟨st3,hstep3,hrun3⟩ := run_cons_eq_some.mp hst
  have hrun : run (step sampleConfig) (.start sampleConfig 1) [registers (str "A") (str "f") [str "g"],
      registers (str "B") (str "h") [],callsFor (str "A"),objectArrives]=some st :=
    run_append_eq_some.mpr ⟨st2,hst2,hst⟩
  have hregistered : st2.tables.funcAppMap.getD (str "f") []=str "A" := of_decide_eq_true hdecided
  have hcall : Separate apart st2 (callsFor (str "A")) :=
    ⟨by decide,List.forall_mem_singleton.mpr ⟨by decide,hregistered.trans (by decide)⟩⟩
  have hmeet : StepsMeet (step sampleConfig) (Separate apart) (.start sampleConfig 1)
      [registers (str "A") (str "f") [str "g"],registers (str "B") (str "h") [],callsFor (str "A"),
        objectArrives] :=
    stepsMeet_cons (separate_registers _ _ _ _ (by decide)) hstep1 <|
      stepsMeet_cons (separate_registers _ _ _ _ (by decide)) hstep2 <|
        stepsMeet_cons hcall hstep3 ⟨trivial,fun _ _ => trivial⟩
  exact ⟨st,hrun,calls_keep_application apart sampleConfig 1 _ st hmeet hrun⟩

/-- Two applications register the same function. A call of the first is
scheduled for it if its object is local; if the object has to be fetched, it
is scheduled, and forwarded, for the second. In both cases the dependencies
of the second are consulted for its objects. -/
theorem shared_function_misattributed :
    (∃ st,run (step sampleConfig) (.start sampleConfig 1) [registers (str "A") (str "f") [],
        registers (str "B") (str "f") [],objectArrives,callsFor (str "A")]=some st ∧
      .scheduled (.request 0) ⟨str "s",str "A",str "f",[str "b|k_s",str "3"],1⟩∈st.trace ∧
      consultedApp st (str "f")=str "B") ∧
    ∃ st,run (step sampleConfig) (.start sampleConfig 1) [registers (str "A") (str "f") [],
        registers (str "B") (str "f") [],callsFor (str "A"),objectArrives]=some st ∧
      .scheduled (.request 0) ⟨str "s",str "B",str "f",[str "b|k_s",str "3"],1⟩∈st.trace ∧
      ∀ a : Attribution,a.appOf (str "s")=str "A" → ¬Attributed a st := by
  have hlocal : ((run (step sampleConfig) (.start sampleConfig 1) [registers (str "A") (str "f") [],
      registers (str "B") (str "f") [],objectArrives,callsFor (str "A")]).map fun st => decide
        (.scheduled (.request 0) ⟨str "s",str "A",str "f",[str "b|k_s",str "3"],1⟩∈st.trace ∧
          consultedApp st (str "f")=str "B"))=some true := by decide +kernel
  have hremote : ((run (step sampleConfig) (.start sampleConfig 1) [registers (str "A") (str "f") [],
      registers (str "B") (str "f") [],callsFor (str "A"),objectArrives]).map fun st => decide
        (.scheduled (.request 0) ⟨str "s",str "B",str "f",[str "b|k_s",str "3"],1⟩∈st.trace))=
      some true := by decide +kernel
  obtain ⟨st,hst,hdecided⟩ := Option.map_eq_some_iff.mp hlocal
  obtain ⟨st',hst',hdecided'⟩ := Option.map_eq_some_iff.mp hremote
  have hscheduled := of_decide_eq_true hdecided'
  refine ⟨⟨st,hst,of_decide_eq_true hdecided⟩,st',hst',hscheduled,fun a ha hattr => ?_⟩
  have hnames : str "B"=a.appOf (str "s") := hattr.events _ hscheduled
  rw [ha] at hnames
  revert hnames
  decide

end Pheromone.CallAttribution
