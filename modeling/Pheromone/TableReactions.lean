import Pheromone.ReactiveMachines
import Pheromone.DispatchCapacity
import Pheromone.SchedulingRules

/-!
# What the tables start when objects arrive

The tables of worker and coordinator are machines that answer objects with
functions. A trigger that can never act may be added to them.
-/

namespace Pheromone.TableReactions

open UnorderedContainers ReactiveMachines CommonNames TriggerPrimitives OperationMessages
open WorkerUpdates CoordinatorNotify DispatchCapacity SchedulerState Scheduling
open SchedulingRules

/-- What reaches the tables of a worker. -/
inductive WorkerInput where
  | put (src tgt : Str) (bk : BucketKey) (now : ℤ)
  | clear (entity : TriggerEntity)

/-- Functions started by the actions of triggers. -/
def startedFunctions (results : List (Trigger×List TriggerAction)) : List Str :=
  results.flatMap fun r => r.2.map TriggerAction.function

/-- Change the triggers of one bucket. -/
def onBucket (bucket : Bucket) (f : TriggerPointer → TriggerPointer) (w : WorkerTables) :
    WorkerTables :=
  {w with
    bucketTriggersMap := w.bucketTriggersMap.set bucket ((w.bucketTriggersMap.getD bucket []).map f)}

/-- A trigger after an arrival. -/
def advance (now : ℤ) (bk : BucketKey) (p : TriggerPointer) : TriggerPointer :=
  {p with trigger := (p.trigger.actionForNewObject now bk).1}

/-- The tables after an input, and the functions that they start. -/
def workerReact (w : WorkerTables) : WorkerInput → WorkerTables×List Str
  | .put src tgt bk now =>
    match (w.appInfoMap.getD (w.funcAppMap.getD src []) .unset).directDeps.find? src with
    | some deps => (w,if tgt=[] then deps.elems else if tgt∈deps then [tgt] else [])
    | none =>
      if bk.bucket≠bucketNameDirectInvoc then
        (onBucket bk.bucket (advance now bk) w,
          startedFunctions (arrivals now (w.bucketTriggers bk.bucket) bk))
      else (w,[])
  | .clear entity => (clearEntity w entity,[])

theorem zipWith_arrivals (now : ℤ) (bk : BucketKey) (pointers : List TriggerPointer) :
    pointers.zipWith (fun p r => {p with trigger := r.1})
      (arrivals now (pointers.map TriggerPointer.trigger) bk)=pointers.map (advance now bk) := by
  induction pointers with
  | nil => rfl
  | cons p pointers ih => exact congrArg _ ih

/-- The scheduler's check of an object asks for the functions that the tables
answer, and leaves the triggers as they do. -/
theorem checkObjectArrival_reacts (cfg : SchedulerConfig) (st : SchedState) (src tgt : Str)
    (bk : BucketKey) (hdirect : directTargets st src=none)
    (hbucket : bk.bucket≠bucketNameDirectInvoc) :
    (checkObjectArrival cfg st bk).2.1.map TriggerFunctionMetadata.funcName=
        (workerReact st.tables (.put src tgt bk (cfg.clock st.tick))).2 ∧
      (arrivedAt cfg st bk).tables.bucketTriggersMap=
        (workerReact st.tables (.put src tgt bk (cfg.clock st.tick))).1.bucketTriggersMap := by
  have hreact : workerReact st.tables (.put src tgt bk (cfg.clock st.tick))=
      (onBucket bk.bucket (advance (cfg.clock st.tick) bk) st.tables,
        startedFunctions (arrivals (cfg.clock st.tick) (st.tables.bucketTriggers bk.bucket) bk)) := by
    have hnone : (st.tables.appInfoMap.getD (st.tables.funcAppMap.getD src [])
        .unset).directDeps.find? src=none := hdirect
    rw [workerReact,hnone]
    exact if_pos hbucket
  rw [hreact,checkObjectArrival_eq]
  refine ⟨activeFuncMetadatas_funcNames _ _ _,?_⟩
  exact congrArg (st.tables.bucketTriggersMap.set bk.bucket) (zipWith_arrivals _ _ _)

/-- A reported object, with the triggers that have acted on the worker. -/
structure Report where
  /-- The object. -/
  bk : BucketKey
  /-- Names of these triggers. -/
  active : List Str
  /-- The clock. -/
  now : ℤ

/-- The tables after a report, and the functions that they start. -/
def coordReact (st : CoordState) (i : Report) : CoordState×List Str :=
  let results := arrivals i.now (st.bucketTriggersMap.getD i.bk.bucket []) i.bk
  ({st with bucketTriggersMap := st.bucketTriggersMap.set i.bk.bucket (results.map Prod.fst)},
    (produced i.active results).map fun p => p.2.function)

/-- The handler of a notification dispatches the functions that the tables
answer, and leaves the triggers as they do. -/
theorem notifyTriggers_reacts {cfg : CoordConfig} {now : ℤ} {req : KeyNotifyRequest}
    {bk : BucketKey} {st st' : CoordState} {out : List CoordOut}
    (h : notifyTriggers cfg now req bk st=some (st',out)) :
    (dispatches out).map (fun d => d.action.function)=
        (coordReact st ⟨bk,req.activeTriggerNames,now⟩).2 ∧
      st'.bucketTriggersMap=(coordReact st ⟨bk,req.activeTriggerNames,now⟩).1.bucketTriggersMap := by
  obtain ⟨hproduced,-,hkept⟩ := notifyTriggers_spec rfl h
  refine ⟨?_,hkept.triggers⟩
  show _=(produced req.activeTriggerNames _).map _
  rw [←hproduced,List.map_map]
  rfl

/-- No object makes the trigger act. -/
def Barren : TriggerState → Prop
  | .bySet t => t.keySet.elems=[]
  | .redundant t => t.k=0 ∧ (t.count=0 ∨ t.count<t.n)
  | _ => False

theorem barren_arrive {s : TriggerState} (h : Barren s) (target : Str) (now : ℤ) (bk : BucketKey) :
    (s.actionForNewObject target now bk).2=[] ∧ Barren (s.actionForNewObject target now bk).1 := by
  cases s with
  | bySet t =>
    have hnot : ¬bk.key∈t.keySet := by
      rw [USet.mem_def,show t.keySet.elems=[] from h]
      exact List.not_mem_nil
    simp only [TriggerState.actionForNewObject,BySetTrigger.actionForNewObject,if_neg hnot]
    exact ⟨trivial,h⟩
  | redundant t =>
    obtain ⟨hk,hcount⟩ := h
    have hpos : ¬t.count+1≤t.k := by
      rw [hk,UInt32.le_iff_toNat_le,UInt32.toNat_add,UInt32.toNat_one,UInt32.toNat_zero]
      rcases hcount with hzero|hless
      · rw [hzero]
        decide
      · have hlt := UInt32.lt_iff_toNat_lt.mp hless
        have hmax := t.n.toNat_lt
        omega
    simp only [TriggerState.actionForNewObject,RedundantTrigger.actionForNewObject,if_neg hpos]
    split
    · exact ⟨rfl,hk,Or.inl rfl⟩
    · rename_i hn
      exact ⟨rfl,hk,Or.inr (UInt32.not_le.mp hn)⟩
  | _ => exact h.elim

theorem barren_clear {s : TriggerState} (h : Barren s) (session : Session) :
    Barren (s.clear session) := by
  cases s with
  | bySet t => exact h
  | redundant t =>
    obtain ⟨hk,hcount⟩ := h
    refine ⟨hk,?_⟩
    show t.count+t.k=0 ∨ t.count+t.k<t.n
    rw [hk,UInt32.add_zero]
    exact hcount
  | _ => exact h.elim

/-- The triggers of a list, and more that never act. -/
def ExtendedBy {α : Type} (state : α → TriggerState) (l l' : List α) : Prop :=
  ∃ more,(∀ x∈more,Barren (state x)) ∧ l'=l++more

theorem ExtendedBy.refl {α : Type} (state : α → TriggerState) (l : List α) :
    ExtendedBy state l l := ⟨[],nofun,(List.append_nil l).symm⟩

theorem ExtendedBy.trans {α : Type} {state : α → TriggerState} {l l' l'' : List α}
    (h : ExtendedBy state l l') (h' : ExtendedBy state l' l'') : ExtendedBy state l l'' := by
  obtain ⟨more,hmore,rfl⟩ := h
  obtain ⟨more',hmore',rfl⟩ := h'
  exact ⟨more++more',List.forall_mem_append.mpr ⟨hmore,hmore'⟩,List.append_assoc _ _ _⟩

theorem ExtendedBy.map {α : Type} {state : α → TriggerState} {l l' : List α} {f : α → α}
    (h : ExtendedBy state l l') (hf : ∀ x,Barren (state x) → Barren (state (f x))) :
    ExtendedBy state (l.map f) (l'.map f) := by
  obtain ⟨more,hmore,rfl⟩ := h
  refine ⟨more.map f,fun x hx => ?_,List.map_append⟩
  obtain ⟨y,hy,rfl⟩ := List.mem_map.mp hx
  exact hf y (hmore y hy)

theorem arrivals_append (now : ℤ) (l l' : List Trigger) (bk : BucketKey) :
    arrivals now (l++l') bk=arrivals now l bk++arrivals now l' bk := List.map_append

theorem produced_append (active : List Str) (l l' : List (Trigger×List TriggerAction)) :
    produced active (l++l')=produced active l++produced active l' := List.flatMap_append

/-- What never acts produces nothing. -/
theorem no_actions_of_barren {ts : List Trigger} (h : ∀ t∈ts,Barren t.state) (now : ℤ)
    (bk : BucketKey) : ∀ r∈arrivals now ts bk,r.2=[] := by
  intro r hr
  obtain ⟨t,ht,rfl⟩ := List.mem_map.mp hr
  exact (barren_arrive (h t ht) t.targetFunction now bk).1

theorem startedFunctions_extended {ts ts' : List Trigger} (h : ExtendedBy Trigger.state ts ts')
    (now : ℤ) (bk : BucketKey) :
    startedFunctions (arrivals now ts' bk)=startedFunctions (arrivals now ts bk) := by
  obtain ⟨more,hmore,rfl⟩ := h
  have hnil : startedFunctions (arrivals now more bk)=[] := by
    refine List.flatMap_eq_nil_iff.mpr fun r hr => ?_
    rw [no_actions_of_barren hmore now bk r hr]
    rfl
  rw [arrivals_append]
  refine List.flatMap_append.trans ?_
  rw [show (arrivals now more bk).flatMap _=[] from hnil,List.append_nil]
  rfl

theorem produced_extended {ts ts' : List Trigger} (h : ExtendedBy Trigger.state ts ts')
    (active : List Str) (now : ℤ) (bk : BucketKey) :
    produced active (arrivals now ts' bk)=produced active (arrivals now ts bk) := by
  obtain ⟨more,hmore,rfl⟩ := h
  have hnil : produced active (arrivals now more bk)=[] := by
    refine List.flatMap_eq_nil_iff.mpr fun r hr => ?_
    rw [no_actions_of_barren hmore now bk r hr,ite_self]
    rfl
  rw [arrivals_append,produced_append,hnil,List.append_nil]

/-- The triggers of all buckets, and more that never act. -/
def CoordExtends (st' st : CoordState) : Prop :=
  ∀ b,ExtendedBy Trigger.state (st.bucketTriggersMap.getD b []) (st'.bucketTriggersMap.getD b [])

/-- Coordinators apart from such triggers start the same functions. -/
theorem coord_bisimulation : Bisimulation coordReact coordReact CoordExtends Eq where
  states st' st i h b := by
    show ExtendedBy Trigger.state ((st.bucketTriggersMap.set i.bk.bucket _).getD b [])
      ((st'.bucketTriggersMap.set i.bk.bucket _).getD b [])
    rw [UMap.getD_set,UMap.getD_set]
    split
    · have hmap : ∀ ts : List Trigger,(arrivals i.now ts i.bk).map Prod.fst=
          ts.map fun t => (t.actionForNewObject i.now i.bk).1 := fun ts => List.map_map
      rw [hmap,hmap]
      exact (h i.bk.bucket).map fun t ht => (barren_arrive ht t.targetFunction i.now i.bk).2
    · exact h b
  answers st' st i h :=
    congrArg (List.map fun p : Trigger×TriggerAction => p.2.function)
      (produced_extended (h i.bk.bucket) i.active i.now i.bk)

/-- The same tables, apart from more triggers that never act. -/
structure WorkerExtends (w' w : WorkerTables) : Prop where
  funcApp : w'.funcAppMap=w.funcAppMap
  direct : ∀ app,(w'.appInfoMap.getD app .unset).directDeps=(w.appInfoMap.getD app .unset).directDeps
  /-- Triggers agree, apart from some that never act. -/
  triggers : ∀ b,ExtendedBy (fun p => p.trigger.state) (w.bucketTriggersMap.getD b [])
    (w'.bucketTriggersMap.getD b [])

theorem WorkerExtends.refl (w : WorkerTables) : WorkerExtends w w :=
  ⟨rfl,fun _ => rfl,fun _ => .refl _ _⟩

theorem WorkerExtends.trans {w'' w' w : WorkerTables} (h : WorkerExtends w'' w')
    (h' : WorkerExtends w' w) : WorkerExtends w'' w :=
  ⟨h.funcApp.trans h'.funcApp,fun app => (h.direct app).trans (h'.direct app),
    fun b => (h'.triggers b).trans (h.triggers b)⟩

theorem bucketTriggers_extended {w' w : WorkerTables} (h : WorkerExtends w' w) (b : Bucket) :
    ExtendedBy Trigger.state (w.bucketTriggers b) (w'.bucketTriggers b) := by
  obtain ⟨more,hmore,hlist⟩ := h.triggers b
  refine ⟨more.map TriggerPointer.trigger,fun t ht => ?_,?_⟩
  · obtain ⟨p,hp,rfl⟩ := List.mem_map.mp ht
    exact hmore p hp
  · rw [WorkerTables.bucketTriggers,hlist,List.map_append]
    rfl

/-- A change of one bucket's triggers keeps the relation. -/
theorem WorkerExtends.onBucket {w' w : WorkerTables} (h : WorkerExtends w' w) (bucket : Bucket)
    {f : TriggerPointer → TriggerPointer}
    (hf : ∀ p,Barren p.trigger.state → Barren (f p).trigger.state) :
    WorkerExtends (onBucket bucket f w') (onBucket bucket f w) where
  funcApp := h.funcApp
  direct := h.direct
  triggers b := by
    unfold TableReactions.onBucket
    dsimp only
    rw [UMap.getD_set,UMap.getD_set]
    split
    · exact (h.triggers bucket).map hf
    · exact h.triggers b

/-- Workers apart from such triggers start the same functions. -/
theorem worker_bisimulation : Bisimulation workerReact workerReact WorkerExtends Eq where
  states w' w i h := by
    cases i with
    | put src tgt bk now =>
      unfold workerReact
      dsimp only
      rw [h.funcApp,h.direct]
      split
      · exact h
      · split
        · exact h.onBucket bk.bucket fun p hp =>
            (barren_arrive hp p.trigger.targetFunction now bk).2
        · exact h
    | clear entity =>
      refine h.onBucket entity.bucketName fun p hp => ?_
      dsimp only
      split
      · exact barren_clear hp entity.session
      · exact hp
  answers w' w i h := by
    cases i with
    | put src tgt bk now =>
      unfold workerReact
      dsimp only
      rw [h.funcApp,h.direct]
      split
      · rfl
      · split
        · exact startedFunctions_extended (bucketTriggers_extended h bk.bucket) now bk
        · rfl
    | clear entity => rfl

/-- The functions that a sequence of inputs starts. -/
def fired {σ ι : Type} (react : σ → ι → σ×List Str) (s : σ) (is : List ι) : List Str :=
  (outputs react s is).flatten

/-- How often a list of triggers starts a function along a sequence of
objects. -/
def firedCount (f : Str) : List Trigger → List (ℤ×BucketKey) → ℕ
  | _,[] => 0
  | ts,i::is => (startedFunctions (arrivals i.1 ts i.2)).count f+
    firedCount f ((arrivals i.1 ts i.2).map Prod.fst) is

theorem firedCount_append (f : Str) (ts ts' : List Trigger) (is : List (ℤ×BucketKey)) :
    firedCount f (ts++ts') is=firedCount f ts is+firedCount f ts' is := by
  induction is generalizing ts ts' with
  | nil => rfl
  | cons i is ih =>
    have hstarted : startedFunctions (arrivals i.1 ts i.2++arrivals i.1 ts' i.2)=
        startedFunctions (arrivals i.1 ts i.2)++startedFunctions (arrivals i.1 ts' i.2) :=
      List.flatMap_append
    rw [firedCount,arrivals_append,hstarted,List.count_append,List.map_append,ih,firedCount,firedCount]
    omega

theorem firedCount_le_of_mem {ts : List Trigger} {t : Trigger} (ht : t∈ts) (f : Str)
    (is : List (ℤ×BucketKey)) : firedCount f [t] is≤firedCount f ts is := by
  obtain ⟨l,r,rfl⟩ := List.append_of_mem ht
  rw [firedCount_append,←List.singleton_append (l:=r),firedCount_append]
  omega

/-- Objects that no worker has acted on. -/
def reports (is : List (ℤ×BucketKey)) : List Report := is.map fun i => ⟨i.2,[],i.1⟩

theorem produced_nil (results : List (Trigger×List TriggerAction)) :
    (produced [] results).map (fun p => p.2.function)=startedFunctions results := by
  rw [produced,startedFunctions,List.map_flatMap]
  refine congrArg results.flatMap (funext fun r => ?_)
  rw [if_neg List.not_mem_nil,List.map_map]
  rfl

/-- Along objects of one bucket the coordinator starts what its triggers ask for. -/
theorem count_fired_reports (f : Str) {b : Bucket} {is : List (ℤ×BucketKey)}
    (hb : ∀ i∈is,i.2.bucket=b) (st : CoordState) :
    (fired coordReact st (reports is)).count f=firedCount f (st.bucketTriggersMap.getD b []) is := by
  induction is generalizing st with
  | nil => rfl
  | cons i is ih =>
    obtain ⟨hi,his⟩ := List.forall_mem_cons.mp hb
    have hanswer : (coordReact st ⟨i.2,[],i.1⟩).2=
        startedFunctions (arrivals i.1 (st.bucketTriggersMap.getD b []) i.2) := by
      rw [←hi]
      exact produced_nil _
    have hnext : (coordReact st ⟨i.2,[],i.1⟩).1.bucketTriggersMap.getD b []=
        (arrivals i.1 (st.bucketTriggersMap.getD b []) i.2).map Prod.fst := by
      rw [←hi]
      exact UMap.getD_set_self _ _ _ _
    show ((coordReact st ⟨i.2,[],i.1⟩).2++fired coordReact _ (reports is)).count f=_
    rw [List.count_append,ih his,hanswer,hnext,firedCount]

/-- Some objects of the bucket make the trigger start its function. -/
def Acts (b : Bucket) (t : Trigger) : Prop :=
  ∃ is,(∀ i∈is,i.2.bucket=b) ∧ 0<firedCount t.targetFunction [t] is

theorem firedCount_cons (f : Str) (t : Trigger) (i : ℤ×BucketKey) (is : List (ℤ×BucketKey)) :
    firedCount f [t] (i::is)=((t.actionForNewObject i.1 i.2).2.map TriggerAction.function).count f+
      firedCount f [(t.actionForNewObject i.1 i.2).1] is := by
  rw [firedCount]
  refine congrArg₂ (·+·) ?_ rfl
  exact congrArg (List.count f) (List.append_nil _)

/-- The remaining keys of a set make its trigger act. -/
theorem bySet_acts (target name : Str) (option : ℤ) (keySet : USet Key) (b : Bucket)
    (session : Session) (keys : List Key) (hne : keys≠[]) (hkeys : ∀ k∈keys,k∈keySet)
    (prepared : UMap Session (USet Key)) (hprepared : ∀ k∈prepared.getD session ∅,k∈keySet)
    (hall : ∀ k∈keySet,k∈prepared.getD session ∅ ∨ k∈keys) (funcs : UMap Str Key)
    (cache : SessionStatusCache) :
    0<firedCount target [⟨target,name,option,.bySet ⟨keySet,prepared,funcs,cache⟩⟩]
      (keys.map fun k => (0,⟨b,k,session⟩)) := by
  induction keys generalizing prepared cache with
  | nil => exact absurd rfl hne
  | cons k keys ih =>
    obtain ⟨hk,hrest⟩ := List.forall_mem_cons.mp hkeys
    rw [List.map_cons,firedCount_cons]
    simp only [Trigger.actionForNewObject,TriggerState.actionForNewObject,
      BySetTrigger.actionForNewObject,if_pos hk]
    have hsub : ∀ k'∈(prepared.getD session ∅).insert k,k'∈keySet := by
      intro k' hk'
      rcases USet.mem_insert.mp hk' with rfl|hk'
      · exact hk
      · exact hprepared k' hk'
    have hcover : ∀ k'∈keySet,k'∈(prepared.getD session ∅).insert k ∨ k'∈keys := by
      intro k' hk'
      rcases hall k' hk' with hold|hnew
      · exact Or.inl (USet.mem_insert.mpr (Or.inr hold))
      · exact (List.mem_cons.mp hnew).imp (fun he => USet.mem_insert.mpr (Or.inl he)) id
    split
    · refine Nat.add_pos_left ?_ _
      exact List.count_pos_iff.mpr List.mem_cons_self
    · rename_i hsize
      refine Nat.add_pos_right _ (ih ?_ hrest _ ?_ ?_ _)
      · rintro rfl
        refine hsize ((USet.size_eq_iff_of_subset hsub).mpr fun k' hk' => ?_)
        exact (hcover k' hk').resolve_right List.not_mem_nil
      · rw [UMap.getD_set_self]
        exact hsub
      · rw [UMap.getD_set_self]
        exact hcover

/-- The missing objects make a redundant trigger act. -/
theorem redundant_acts (target name : Str) (option : ℤ) (k n : UInt32) (bk : BucketKey) {d : ℕ}
    {count : UInt32} (hd : count.toNat+d+1=k.toNat) (buffer : List (Session×Key)) :
    0<firedCount target [⟨target,name,option,.redundant ⟨k,n,count,buffer⟩⟩]
      (List.replicate (d+1) (0,bk)) := by
  induction d generalizing count buffer with
  | zero =>
    have hsucc : count+1=k := by
      refine UInt32.toNat_inj.mp ?_
      have hlt := k.toNat_lt
      rw [UInt32.toNat_add,UInt32.toNat_one]
      omega
    rw [List.replicate_succ,firedCount_cons]
    simp only [Trigger.actionForNewObject,TriggerState.actionForNewObject,
      RedundantTrigger.actionForNewObject,hsucc,if_pos (UInt32.le_refl k),if_true]
    refine Nat.add_pos_left ?_ _
    exact List.count_pos_iff.mpr List.mem_cons_self
  | succ d ih =>
    have hnat : (count+1).toNat=count.toNat+1 := by
      have hlt := k.toNat_lt
      rw [UInt32.toNat_add,UInt32.toNat_one]
      omega
    have hle : count+1≤k := by
      rw [UInt32.le_iff_toNat_le,hnat]
      omega
    have hne : count+1≠k := by
      intro he
      have hsame := congrArg UInt32.toNat he
      omega
    rw [List.replicate_succ,firedCount_cons]
    simp only [Trigger.actionForNewObject,TriggerState.actionForNewObject,
      RedundantTrigger.actionForNewObject,if_pos hle,if_neg hne]
    exact Nat.add_pos_right _ (ih (by omega) _)

/-- The end of its window makes a time trigger act. -/
theorem byTime_acts (target name : Str) (option : ℤ) (window : UInt32) (stamp : ℤ) (bk : BucketKey) :
    0<firedCount target [⟨target,name,option,.byTime ⟨window,[],stamp⟩⟩]
      [(stamp+window.toNat*1000000,bk)] := by
  have hover : Int.tdiv (stamp+window.toNat*1000000-stamp) 1000000≥window.toNat := by
    rw [add_sub_cancel_left,Int.mul_tdiv_cancel _ (by decide)]
  rw [firedCount_cons]
  simp only [Trigger.actionForNewObject,TriggerState.actionForNewObject,
    ByTimeTrigger.actionForNewObject,if_pos hover]
  refine Nat.add_pos_left ?_ _
  exact List.count_pos_iff.mpr List.mem_cons_self

end Pheromone.TableReactions
