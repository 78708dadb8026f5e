import Pheromone.SchedulerLoop

/-!
# Calls remembered by triggers

What holds of all calls that a trigger is told holds of all that it remembers
and gives back.
-/

namespace Pheromone.TriggerCaches

open UnorderedContainers CommonNames TriggerPrimitives OperationMessages WorkerUpdates
open SchedulerState Scheduling SchedulerLoop

variable {Q : TriggerFunctionMetadata → Prop} {P : Trigger → Prop}

/-- The remembered calls. -/
def cache : TriggerState → SessionStatusCache
  | .immediate t => t.sessionStatusCache
  | .byName t => t.sessionStatusCache
  | .byBatchSize t => t.sessionStatusCache
  | .bySet t => t.sessionStatusCache
  | .dynamicGroup _ => ∅
  | .redundant _ => ∅
  | .byTime _ => ∅

/-- All remembered calls have a property. -/
def Remembers (Q : TriggerFunctionMetadata → Prop) (t : Trigger) : Prop := (cache t.state).All Q

variable {t : Trigger}

theorem Remembers.imp {R : TriggerFunctionMetadata → Prop} (h : Remembers Q t)
    (himp : ∀ m,Q m → R m) : Remembers R t := fun k m hm => himp m (h k m hm)

theorem remembers_actionForNewObject (h : Remembers Q t) (now : ℤ) (bk : BucketKey) :
    Remembers Q (t.actionForNewObject now bk).1 := by
  obtain ⟨target,name,option,state⟩ := t
  cases state with
  | immediate t => exact UMap.All.erase h _
  | byName t => exact UMap.All.erase h _
  | byBatchSize t =>
    show (cache (.byBatchSize (t.actionForNewObject target bk).1)).All Q
    unfold ByBatchSizeTrigger.actionForNewObject
    dsimp only
    split <;> exact UMap.All.erase h _
  | bySet t =>
    show (cache (.bySet (t.actionForNewObject target bk).1)).All Q
    unfold BySetTrigger.actionForNewObject
    split
    · dsimp only
      split <;> exact UMap.All.erase h _
    · exact h
  | dynamicGroup t => exact UMap.all_empty Q
  | redundant t => exact UMap.all_empty Q
  | byTime t => exact UMap.all_empty Q

theorem remembers_clear (h : Remembers Q t) (session : Session) :
    Remembers Q (t.clear session) := by
  obtain ⟨target,name,option,state⟩ := t
  cases state with
  | byBatchSize t => exact UMap.all_empty Q
  | bySet t => exact UMap.All.erase h _
  | _ => exact h

theorem remembers_notifySourceFunc (h : Remembers Q t) {call : TriggerFunctionMetadata}
    (hcall : Q call) (session : Session) : Remembers Q (t.notifySourceFunc call session) := by
  obtain ⟨target,name,option,state⟩ := t
  cases state with
  | immediate t => exact UMap.All.set h _ hcall
  | byName t => exact UMap.All.set h _ hcall
  | byBatchSize t => exact UMap.All.set h _ hcall
  | bySet t =>
    show (cache (.bySet (t.notifySourceFunc call session))).All Q
    unfold BySetTrigger.notifySourceFunc
    split
    · exact h
    · exact UMap.All.set h _ hcall
  | _ => exact h

/-- What a trigger gives back for re-execution it has remembered. -/
theorem remembers_actionForRerun (h : Remembers Q t) {session : Session}
    {m : TriggerFunctionMetadata} (hm : m∈t.actionForRerun session) : Q m := by
  obtain ⟨target,name,option,state⟩ := t
  cases state with
  | immediate t => exact h session m (Option.mem_toList.mp hm)
  | byName t => exact h session m (Option.mem_toList.mp hm)
  | byBatchSize t => exact h session m (Option.mem_toList.mp hm)
  | bySet t =>
    have hset : m∈t.actionForRerun session := hm
    unfold BySetTrigger.actionForRerun at hset
    split at hset
    · cases hset
    · obtain ⟨key,-,hk⟩ := List.mem_filterMap.mp hset
      exact h _ m hk
  | dynamicGroup t => cases hm
  | redundant t => cases hm
  | byTime t => cases hm

variable {now : ℤ}

theorem cache_genTriggerState {type : PrimitiveType} {p : PrimitiveFields} {s : TriggerState}
    (h : genTriggerState type p now=some s) : cache s=∅ := by
  cases type with
  | unrecognized n => cases h
  | _ =>
    cases h
    rfl

variable {entity : TriggerEntity}

/-- A new trigger remembers nothing. -/
theorem remembers_entityTrigger (h : entityTrigger now entity=some t) : Remembers Q t := by
  unfold entityTrigger at h
  split at h
  · cases h
  · obtain ⟨u,hu,rfl⟩ := Option.map_eq_some_iff.mp h
    obtain ⟨s,hs,rfl⟩ := Option.map_eq_some_iff.mp hu
    have hempty : (cache s).All Q := by
      rw [cache_genTriggerState hs]
      exact UMap.all_empty Q
    cases s with
    | _ => exact hempty

/-- The triggers of a worker, deleted ones included, have a property. -/
structure Triggers (P : Trigger → Prop) (w : WorkerTables) : Prop where
  /-- The triggers of the buckets. -/
  listed : w.bucketTriggersMap.All fun ps => ∀ p∈ps,P p.trigger
  removed : ∀ p∈w.removed,P p.trigger

variable {w v : WorkerTables}

theorem triggers_start : Triggers P .start :=
  ⟨UMap.all_empty _,fun _ h => absurd h List.not_mem_nil⟩

/-- Only the two lists of triggers matter. -/
theorem Triggers.of_eq (h : Triggers P w) (h1 : v.bucketTriggersMap=w.bucketTriggersMap)
    (h2 : v.removed=w.removed) : Triggers P v := by
  refine ⟨?_,?_⟩
  · rw [h1]
    exact h.listed
  · rw [h2]
    exact h.removed

theorem Triggers.bucket (h : Triggers P w) (bucket : Bucket) :
    ∀ p∈w.bucketTriggersMap.getD bucket [],P p.trigger := by
  rw [UMap.getD]
  cases hf : w.bucketTriggersMap.find? bucket with
  | none => exact fun _ hp => absurd hp List.not_mem_nil
  | some ps => exact h.listed bucket ps hf

theorem Triggers.setBucket (h : Triggers P w) (bucket : Bucket) {ps : List TriggerPointer}
    (hps : ∀ p∈ps,P p.trigger) :
    Triggers P {w with bucketTriggersMap := w.bucketTriggersMap.set bucket ps} :=
  ⟨h.listed.set bucket hps,h.removed⟩

/-- The trigger of an identity is one of them. -/
theorem Triggers.pointerTrigger (h : Triggers P w) {id : ℕ} (ht : pointerTrigger w id=some t) :
    P t := by
  obtain ⟨p,hp,rfl⟩ := Option.map_eq_some_iff.mp ht
  rcases List.mem_append.mp (List.mem_of_find?_eq_some hp) with hm|hm
  · obtain ⟨e,he,hpe⟩ := List.mem_flatMap.mp hm
    exact h.listed e.1 e.2 (UMap.find?_eq_some_iff.mpr he) p hpe
  · exact h.removed p hm

/-- A trigger is told of a scheduled call. -/
theorem Triggers.notifyPointer {call : Invocation} (h : Triggers (Remembers Q) w)
    (hcall : Q ⟨call.funcName,call.funcArgs,call.argFlag⟩) (id : ℕ) :
    Triggers (Remembers Q) (notifyPointer call id w) := by
  have hnote : ∀ p : TriggerPointer,Remembers Q p.trigger → Remembers Q (if p.id=id then {p with
      trigger := p.trigger.notifySourceFunc ⟨call.funcName,call.funcArgs,call.argFlag⟩ call.sessionId}
      else p).trigger := by
    intro p hp
    split
    · exact remembers_notifySourceFunc hp hcall _
    · exact hp
  refine ⟨h.listed.mapVals fun ps hps p hp => ?_,fun p hp => ?_⟩
  · obtain ⟨q,hq,rfl⟩ := List.mem_map.mp hp
    exact hnote q (hps q hq)
  · obtain ⟨q,hq,rfl⟩ := List.mem_map.mp hp
    exact hnote q (h.removed q hq)

variable {app : Str}

theorem triggers_addTrigger {coord : HandlerThread}
    (hnew : ∀ t,entityTrigger now entity=some t → P t) (h : Triggers P w) :
    Triggers P (addTrigger now app coord w entity) := by
  unfold addTrigger
  dsimp only
  split
  · exact h.of_eq rfl rfl
  · rename_i t ht
    have hps : ∀ p∈w.bucketTriggersMap.getD entity.bucketName []++[⟨w.nextId,t⟩],P p.trigger := by
      refine List.forall_mem_append.mpr ⟨h.bucket entity.bucketName,fun p hp => ?_⟩
      rw [List.mem_singleton.mp hp]
      exact hnew t ht
    exact (h.setBucket entity.bucketName hps).of_eq rfl rfl

variable {msg : UpdateCoordMsg}

theorem triggers_addUpdate (hnew : ∀ entity t,entityTrigger now entity=some t → P t)
    (h : Triggers P w) (hr : addUpdate now w msg=some v) : Triggers P v := by
  refine addUpdate_invariant (fun w func _ hw => hw.of_eq rfl rfl)
    (fun w dep _ _ src _ tgt _ hw => hw.of_eq rfl rfl)
    (fun w entity _ hw => triggers_addTrigger (hnew entity) hw) ?_ hr
  exact h.of_eq rfl rfl

theorem triggers_clearEntity (hclear : ∀ t session,P t → P (t.clear session)) (h : Triggers P w)
    (entity : TriggerEntity) : Triggers P (clearEntity w entity) := by
  refine h.setBucket entity.bucketName fun p hp => ?_
  obtain ⟨q,hq,rfl⟩ := List.mem_map.mp hp
  have hold := h.bucket entity.bucketName q hq
  show P (if q.trigger.triggerName=entity.triggerName then q.trigger.clear entity.session else q.trigger)
  split
  · exact hclear _ _ hold
  · exact hold

theorem triggers_deleteEntity (h : Triggers P w) (hd : deleteEntity w entity=some v) :
    Triggers P v := by
  unfold deleteEntity at hd
  dsimp only at hd
  split at hd
  · cases hd
  · rename_i p hp
    rw [←Option.some.inj hd]
    have hlist := h.bucket entity.bucketName
    refine ⟨h.listed.set _ fun q hq => hlist q (List.mem_of_mem_eraseP hq),
      List.forall_mem_append.mpr ⟨h.removed,fun q hq => ?_⟩⟩
    rw [List.mem_singleton.mp hq]
    exact hlist p (List.mem_of_find?_eq_some hp)

/-- Every update keeps what holds of new triggers and survives a clear. -/
theorem triggers_recvUpdate (hnew : ∀ entity t,entityTrigger now entity=some t → P t)
    (hclear : ∀ t session,P t → P (t.clear session)) (h : Triggers P w)
    (hr : recvUpdate now w msg=some v) : Triggers P v :=
  recvUpdate_invariant (fun _ _ _ hw hadd => triggers_addUpdate hnew hw hadd)
    (fun _ entity hw => triggers_clearEntity hclear hw entity)
    (fun _ _ _ hw hd => triggers_deleteEntity hw hd) h hr

/-- What a trigger keeps at an arrival, all triggers of a bucket keep. -/
theorem forall_arrivals {P : TriggerPointer → Prop} {pointers : List TriggerPointer} {now : ℤ}
    {bk : BucketKey} (hP : ∀ p,P p → P {p with trigger := (p.trigger.actionForNewObject now bk).1})
    (h : ∀ p∈pointers,P p) : ∀ p∈pointers.zipWith (fun p r => {p with trigger := r.1})
      (arrivals now (pointers.map TriggerPointer.trigger) bk),P p := by
  induction pointers with
  | nil => exact fun _ hp => absurd hp List.not_mem_nil
  | cons p pointers ih =>
    obtain ⟨hp,hrest⟩ := List.forall_mem_cons.mp h
    exact List.forall_mem_cons.mpr ⟨hP p hp,ih hrest⟩

end Pheromone.TriggerCaches
