import Pheromone.GuardedRuns
import Pheromone.OperationMessages

/-!
# Trigger updates at a worker

An update adds triggers with functions and direct dependencies, clears
triggers for a session, or deletes one. The source shares triggers by pointer
with re-execution hints, so copies carry an identity. Deleting a name that is
not in the list runs past its end; the update then has no result.
-/

namespace Pheromone.WorkerUpdates

open UnorderedContainers GuardedRuns CommonNames TriggerPrimitives OperationMessages

/-- A shared trigger. -/
structure TriggerPointer where
  /-- Identity of the pointer. -/
  id : ℕ
  /-- The trigger it points to. -/
  trigger : Trigger
  deriving DecidableEq

/-- A re-execution hint: the trigger to consult and the time to wait. -/
structure RerunTriggerTimeout where
  /-- Identity of the trigger. -/
  triggerPtr : ℕ
  /-- Milliseconds to wait. -/
  timeout : UInt32
  deriving DecidableEq

/-- What a worker knows of an application. -/
structure AppInfo where
  /-- Functions of the application. -/
  functions : USet Str
  /-- Functions started directly by the output of a function. -/
  directDeps : UMap Str (USet Str)
  /-- Buckets of the application, once per added trigger. -/
  buckets : List Bucket
  deriving DecidableEq

/-- The entry that reading an unknown application creates. -/
def AppInfo.unset : AppInfo := ⟨∅,∅,[]⟩

/-- A coordinator thread. -/
structure HandlerThread where
  ip : Address
  /-- Number of the thread. -/
  tid : UInt32
  deriving DecidableEq

/-- The tables of a worker that update messages change. -/
structure WorkerTables where
  bucketTriggersMap : UMap Bucket (List TriggerPointer)
  /-- Deleted triggers that hints may still refer to. -/
  removed : List TriggerPointer
  /-- Identity of the next trigger. -/
  nextId : ℕ
  /-- Known applications. -/
  appInfoMap : UMap Str AppInfo
  /-- Application of every function. -/
  funcAppMap : UMap Str Str
  /-- Application of every bucket. -/
  bucketAppMap : UMap Bucket Str
  /-- Hints of every source function. -/
  funcTriggerTimeoutMap : UMap Str (List RerunTriggerTimeout)
  /-- Coordinator of every application. -/
  appCoordMap : UMap Str HandlerThread
  bucketCoordMap : UMap Bucket HandlerThread
  deriving DecidableEq

/-- A worker before its first update. -/
def WorkerTables.start : WorkerTables := ⟨∅,[],0,∅,∅,∅,∅,∅,∅⟩

/-- The triggers of a bucket. -/
def WorkerTables.bucketTriggers (w : WorkerTables) (bucket : Bucket) : List Trigger :=
  (w.bucketTriggersMap.getD bucket []).map TriggerPointer.trigger

/-- Record one function of an application. -/
def addFunction (app : Str) (w : WorkerTables) (func : Str) : WorkerTables :=
  let info := w.appInfoMap.getD app .unset
  {w with
    appInfoMap := w.appInfoMap.set app {info with functions := info.functions.insert func}
    funcAppMap := w.funcAppMap.set func app}

/-- Record one target of a direct dependency. -/
def addTarget (app src : Str) (w : WorkerTables) (tgt : Str) : WorkerTables :=
  let info := w.appInfoMap.getD app .unset
  {w with
    appInfoMap := w.appInfoMap.set app {info with
      directDeps := info.directDeps.set src ((info.directDeps.getD src ∅).insert tgt)}}

/-- Record a direct dependency; others are passed over. -/
def addDependency (app : Str) (w : WorkerTables) (dep : DataDependency) : Option WorkerTables :=
  if dep.type≠.direct then some w
  else do
    let src ← dep.srcFunctions.head?
    some (dep.tgtFunctions.foldl (addTarget app src) w)

/-- Record one hint for the trigger of an identity. -/
def addHint (id : ℕ) (m : UMap Str (List RerunTriggerTimeout)) (hint : RerunHint) :
    UMap Str (List RerunTriggerTimeout) :=
  m.set hint.sourceFunction (m.getD hint.sourceFunction []++[⟨id,hint.timeout⟩])

/-- The hints as the trigger keeps them. -/
def rerunMetadata (hints : List RerunHint) : List RerunMetadata :=
  hints.map fun hint => ⟨hint.sourceFunction,hint.sourceKey,hint.timeout⟩

/-- The worker's copy of a trigger; none for a nameless entity or an
unrecognized type. -/
def entityTrigger (now : ℤ) (entity : TriggerEntity) : Option Trigger :=
  if entity.triggerName=[] then none
  else (genTriggerPointer entity.primitiveType entity.triggerName entity.primitive now).map
    fun t => (t.setTriggerOption entity.triggerOption.toInt32.toInt).setRerunMetadata
      (rerunMetadata entity.hints)

/-- Add the trigger of an entity and the route of its bucket. -/
def addTrigger (now : ℤ) (app : Str) (coord : HandlerThread) (w : WorkerTables)
    (entity : TriggerEntity) : WorkerTables :=
  let bucket := entity.bucketName
  let info := w.appInfoMap.getD app .unset
  let w := {w with
    bucketCoordMap := w.bucketCoordMap.set bucket coord
    appInfoMap := w.appInfoMap.set app {info with buckets := info.buckets++[bucket]}
    bucketAppMap := w.bucketAppMap.set bucket app}
  match entityTrigger now entity with
  | none => w
  | some t => {w with
      bucketTriggersMap := w.bucketTriggersMap.set bucket
        (w.bucketTriggersMap.getD bucket []++[⟨w.nextId,t⟩])
      nextId := w.nextId+1
      funcTriggerTimeoutMap := entity.hints.foldl (addHint w.nextId) w.funcTriggerTimeoutMap}

/-- An update of type zero. -/
def addUpdate (now : ℤ) (w : WorkerTables) (msg : UpdateCoordMsg) : Option WorkerTables := do
  let coord : HandlerThread := ⟨msg.ip,msg.threadId⟩
  let w := {w with appCoordMap := w.appCoordMap.set msg.appName coord}
  let w := msg.functions.foldl (addFunction msg.appName) w
  let w ← msg.dependencies.foldlM (addDependency msg.appName) w
  some (msg.triggers.foldl (addTrigger now msg.appName coord) w)

variable {I : WorkerTables → Prop} {now : ℤ} {msg : UpdateCoordMsg} {v w : WorkerTables}

/-- What recording a direct target preserves, all dependencies preserve. -/
theorem addDependencies_invariant {app : Str} {deps : List DataDependency}
    (htarget : ∀ w,∀ dep∈deps,dep.type=.direct → ∀ src∈dep.srcFunctions.head?,
      ∀ tgt∈dep.tgtFunctions,I w → I (addTarget app src w tgt))
    (hw : I w) (h : deps.foldlM (addDependency app) w=some v) : I v := by
  have hdep : ∀ w v,∀ dep∈deps,I w → addDependency app w dep=some v → I v := by
    intro w v dep hd hw hv
    unfold addDependency at hv
    split at hv
    · exact Option.some.inj hv ▸ hw
    · rename_i hdirect
      obtain ⟨src,hsrc,hv⟩ := Option.bind_eq_some_iff.mp hv
      rw [←Option.some.inj hv]
      exact List.foldlRecOn (motive:=I) dep.tgtFunctions _ hw
        fun w hw tgt ht => htarget w dep hd (not_not.mp hdirect) src hsrc tgt ht hw
  exact foldlM_invariant hdep hw h

/-- What the parts of an adding message preserve, the message preserves. -/
theorem addUpdate_invariant
    (hfunc : ∀ w,∀ func∈msg.functions,I w → I (addFunction msg.appName w func))
    (htarget : ∀ w,∀ dep∈msg.dependencies,dep.type=.direct → ∀ src∈dep.srcFunctions.head?,
      ∀ tgt∈dep.tgtFunctions,I w → I (addTarget msg.appName src w tgt))
    (htrigger : ∀ w,∀ entity∈msg.triggers,I w →
      I (addTrigger now msg.appName ⟨msg.ip,msg.threadId⟩ w entity))
    (hw : I {w with appCoordMap := w.appCoordMap.set msg.appName ⟨msg.ip,msg.threadId⟩})
    (h : addUpdate now w msg=some v) : I v := by
  obtain ⟨u,hu,hv⟩ := Option.bind_eq_some_iff.mp h
  have hfuncs := List.foldlRecOn (motive:=I) msg.functions (addFunction msg.appName) hw
    fun w hw func hf => hfunc w func hf hw
  have hdeps : I u := addDependencies_invariant htarget hfuncs hu
  rw [←Option.some.inj hv]
  exact List.foldlRecOn (motive:=I) msg.triggers _ hdeps
    fun w hw entity he => htrigger w entity he hw

/-- Clear the triggers of one name in a bucket's list. -/
def clearNamed (name : Str) (session : Session) (triggers : List Trigger) : List Trigger :=
  triggers.map fun t => if t.triggerName=name then t.clear session else t

/-- Change the triggers behind a list of pointers. -/
def modifyTriggers (f : Trigger → Trigger) (pointers : List TriggerPointer) : List TriggerPointer :=
  pointers.map fun p => {p with trigger := f p.trigger}

/-- Clear what one entity of the message names. -/
def clearEntity (w : WorkerTables) (entity : TriggerEntity) : WorkerTables :=
  {w with
    bucketTriggersMap := w.bucketTriggersMap.set entity.bucketName
      (modifyTriggers (fun t => if t.triggerName=entity.triggerName then t.clear entity.session else t)
        (w.bucketTriggersMap.getD entity.bucketName []))}

/-- Delete the first trigger of the named one; there has to be one. -/
def deleteEntity (w : WorkerTables) (entity : TriggerEntity) : Option WorkerTables :=
  let pointers := w.bucketTriggersMap.getD entity.bucketName []
  match pointers.find? fun p => decide (p.trigger.triggerName=entity.triggerName) with
  | none => none
  | some p => some {w with
      bucketTriggersMap := w.bucketTriggersMap.set entity.bucketName
        (pointers.eraseP fun p => decide (p.trigger.triggerName=entity.triggerName))
      removed := w.removed++[p]}

/-- Handle one update message. -/
def recvUpdate (now : ℤ) (w : WorkerTables) (msg : UpdateCoordMsg) : Option WorkerTables :=
  if msg.msgType=0 then addUpdate now w msg
  else if msg.msgType=1 then some (msg.triggers.foldl clearEntity w)
  else if msg.msgType=2 then msg.triggers.foldlM deleteEntity w
  else some w

/-- What adding, clearing and deleting preserve, every update preserves. -/
theorem recvUpdate_invariant
    (hadd : msg.msgType=0 → ∀ w v,I w → addUpdate now w msg=some v → I v)
    (hclear : ∀ w entity,I w → I (clearEntity w entity))
    (hdelete : ∀ w v entity,I w → deleteEntity w entity=some v → I v) (hw : I w)
    (h : recvUpdate now w msg=some v) : I v := by
  unfold recvUpdate at h
  split at h
  · rename_i htype
    exact hadd htype w v hw h
  · split at h
    · rw [←Option.some.inj h]
      exact List.foldlRecOn (motive:=I) msg.triggers clearEntity hw
        fun u hu entity _ => hclear u entity hu
    · split at h
      · exact foldlM_invariant (fun u u' entity _ hu hd => hdelete u u' entity hu hd) hw h
      · exact Option.some.inj h ▸ hw

/-- The trigger an entity adds to a bucket, if any. -/
def addedTo (now : ℤ) (bucket : Bucket) (entity : TriggerEntity) : List Trigger :=
  if entity.bucketName=bucket then (entityTrigger now entity).toList else []

/-- Registering functions leaves the triggers alone. -/
theorem foldl_addFunction_bucketTriggers (app : Str) (funcs : List Str) (w : WorkerTables)
    (bucket : Bucket) :
    (funcs.foldl (addFunction app) w).bucketTriggers bucket=w.bucketTriggers bucket := by
  induction funcs generalizing w with
  | nil => rfl
  | cons func funcs ih =>
    rw [List.foldl_cons,ih]
    rfl

/-- Registering dependencies leaves the triggers alone. -/
theorem foldlM_addDependency_bucketTriggers {app : Str} {deps : List DataDependency}
    (h : deps.foldlM (addDependency app) w=some v) (bucket : Bucket) :
    v.bucketTriggers bucket=w.bucketTriggers bucket :=
  addDependencies_invariant (I:=fun v => v.bucketTriggers bucket=w.bucketTriggers bucket)
    (fun _ _ _ _ _ _ _ _ hv => hv) rfl h

theorem addTrigger_bucketTriggers (now : ℤ) (app : Str) (coord : HandlerThread) (w : WorkerTables)
    (entity : TriggerEntity) (bucket : Bucket) :
    (addTrigger now app coord w entity).bucketTriggers bucket=
      w.bucketTriggers bucket++addedTo now bucket entity := by
  unfold addTrigger addedTo
  cases ht : entityTrigger now entity with
  | none => simp [WorkerTables.bucketTriggers]
  | some t =>
    by_cases hb : entity.bucketName=bucket
    · subst hb
      simp [WorkerTables.bucketTriggers,UMap.getD_set_self]
    · simp [WorkerTables.bucketTriggers,UMap.getD_set,hb,Ne.symm hb]

/-- The entities of a message append their triggers in order. -/
theorem foldl_addTrigger_bucketTriggers (now : ℤ) (app : Str) (coord : HandlerThread)
    (entities : List TriggerEntity) (w : WorkerTables) (bucket : Bucket) :
    (entities.foldl (addTrigger now app coord) w).bucketTriggers bucket=
      w.bucketTriggers bucket++entities.flatMap (addedTo now bucket) := by
  induction entities generalizing w with
  | nil => simp
  | cons entity entities ih =>
    rw [List.foldl_cons,ih,addTrigger_bucketTriggers,List.flatMap_cons,List.append_assoc]

/-- An adding message appends the triggers of its entities. -/
theorem addUpdate_bucketTriggers (h : addUpdate now w msg=some v) (bucket : Bucket) :
    v.bucketTriggers bucket=w.bucketTriggers bucket++msg.triggers.flatMap (addedTo now bucket) := by
  obtain ⟨u,hu,hv⟩ := Option.bind_eq_some_iff.mp h
  rw [←Option.some.inj hv,foldl_addTrigger_bucketTriggers,foldlM_addDependency_bucketTriggers hu,
    foldl_addFunction_bucketTriggers]
  rfl

/-- Clear what the entities of a message name in one bucket. -/
def clearBucket (bucket : Bucket) (triggers : List Trigger) (entities : List TriggerEntity) :
    List Trigger :=
  entities.foldl (fun ts entity => if entity.bucketName=bucket
    then clearNamed entity.triggerName entity.session ts else ts) triggers

/-- A clearing entity clears its bucket's triggers of its name. -/
theorem clearEntity_bucketTriggers (w : WorkerTables) (entity : TriggerEntity) (bucket : Bucket) :
    (clearEntity w entity).bucketTriggers bucket=if entity.bucketName=bucket
      then clearNamed entity.triggerName entity.session (w.bucketTriggers bucket)
      else w.bucketTriggers bucket := by
  by_cases hb : entity.bucketName=bucket
  · subst hb
    simp [clearEntity,WorkerTables.bucketTriggers,UMap.getD_set_self,modifyTriggers,clearNamed]
  · simp [clearEntity,WorkerTables.bucketTriggers,UMap.getD_set,hb,Ne.symm hb]

/-- A clearing message acts on every bucket as `clearBucket` does. -/
theorem foldl_clearEntity_bucketTriggers (entities : List TriggerEntity) (w : WorkerTables)
    (bucket : Bucket) :
    (entities.foldl clearEntity w).bucketTriggers bucket=
      clearBucket bucket (w.bucketTriggers bucket) entities := by
  induction entities generalizing w with
  | nil => rfl
  | cons entity entities ih =>
    rw [List.foldl_cons,ih,clearEntity_bucketTriggers]
    rfl

/-- A clearing message is always handled, and clears every bucket. -/
theorem recvUpdate_clear (h : msg.msgType=1) :
    recvUpdate now w msg=some (msg.triggers.foldl clearEntity w) := by
  rw [recvUpdate,if_neg (by rw [h]; decide),if_pos h]

end Pheromone.WorkerUpdates
