import Pheromone.BroadcastReplicas
import Pheromone.CoordinatorOps
import Pheromone.WorkerUpdates

/-!
# Trigger tables of coordinator and workers

Workers keep copies of all triggers but the time triggers. The tables agree
unless a bucket is deleted, one of several triggers of a name is, or a trigger
has no name.
-/

namespace Pheromone.TriggerTables

open UnorderedContainers GuardedRuns BroadcastReplicas CommonNames TriggerPrimitives
open OperationMessages CoordinatorNotify WorkerUpdates CoordinatorOps

/-- Requests to the coordinator, with the clock reading of their handling. -/
inductive Request where
  | register (reg : AppRegistration) (now : ℤ)
  | bucket (req : BucketOperationRequest)
  | trigger (req : TriggerOperationRequest) (now : ℤ)
  deriving DecidableEq

/-- The handler of a request. -/
def handle (self : CoordIdentity) (st : CoordState) : Request → Option (CoordState×List CoordOut)
  | .register reg now => appRegisterHandler self now st reg
  | .bucket req => some (bucketOpHandler st req)
  | .trigger req now => triggerOpHandler self now st req

/-- The updates among the messages of a handler. -/
def updatesOf (out : List CoordOut) : List (Address×UpdateCoordMsg) :=
  out.filterMap fun
    | .update node msg => some (node,msg)
    | _ => none

/-- Coordinator and workers; a worker reads its clock when it handles an update. -/
def system (self : CoordIdentity) :
    System Address CoordState WorkerTables Request ℤ UpdateCoordMsg where
  operate st req := (handle self st req).map fun r => (r.1,updatesOf r.2)
  receive now w msg := recvUpdate now w msg

/-- All workers are known to the coordinator before the first request. -/
def start (nodes : UMap Address NodeStatus) (seed : UInt32) :
    Net Address CoordState WorkerTables UpdateCoordMsg :=
  ⟨⟨∅,∅,∅,∅,∅,∅,nodes,seed⟩,fun _ => .start,fun _ => []⟩

/-- Name and primitive of a trigger. -/
structure Description where
  triggerName : Str
  type : PrimitiveType
  /-- Configuration of its primitive. -/
  primitive : PrimitiveFields
  deriving DecidableEq

/-- The description of a trigger. -/
def describe (t : Trigger) : Description := ⟨t.triggerName,t.getType,t.dumpPritimive⟩

/-- The triggers of a bucket that workers have copies of. -/
def replicated (st : CoordState) (bucket : Bucket) : List Trigger :=
  (st.bucketTriggersMap.getD bucket []).filter fun t => decide (t.getType≠.byTime)

/-- What a worker should hold. -/
def coordView (st : CoordState) (bucket : Bucket) : List Description :=
  (replicated st bucket).map describe

/-- What a worker holds. -/
def workerView (w : WorkerTables) (bucket : Bucket) : List Description :=
  (w.bucketTriggers bucket).map describe

/-- The description that an entity adds to a bucket. -/
def addedView (bucket : Bucket) (entity : TriggerEntity) : List Description :=
  (addedTo 0 bucket entity).map describe

/-- What an update does to a worker's view. -/
def act (v : Bucket → List Description) (msg : UpdateCoordMsg) (bucket : Bucket) : List Description :=
  if msg.msgType=0 then v bucket++msg.triggers.flatMap (addedView bucket)
  else if msg.msgType=2 then
    msg.triggers.foldl (fun ds entity => if entity.bucketName=bucket
      then ds.eraseP fun d => decide (d.triggerName=entity.triggerName) else ds) (v bucket)
  else v bucket

variable {msg : UpdateCoordMsg}

theorem act_add (h : msg.msgType=0) (v : Bucket → List Description) (bucket : Bucket) :
    act v msg bucket=v bucket++msg.triggers.flatMap (addedView bucket) := by
  rw [act,if_pos h]

variable {entity : TriggerEntity}

theorem act_delete (h : msg.msgType=2) (he : msg.triggers=[entity]) (v : Bucket → List Description)
    (bucket : Bucket) :
    act v msg bucket=if entity.bucketName=bucket
      then (v bucket).eraseP fun d => decide (d.triggerName=entity.triggerName) else v bucket := by
  rw [act,if_neg (by rw [h]; decide),if_pos h,he]
  rfl

theorem describe_setTriggerOption (t : Trigger) (option : ℤ) :
    describe (t.setTriggerOption option)=describe t := rfl

theorem describe_setRerunMetadata (t : Trigger) (hints : List RerunMetadata) :
    describe (t.setRerunMetadata hints)=describe t := by
  obtain ⟨target,name,option,state⟩ := t
  cases state <;> rfl

theorem describe_clear (t : Trigger) (session : Session) : describe (t.clear session)=describe t := by
  obtain ⟨target,name,option,state⟩ := t
  cases state <;> rfl

theorem describe_genTriggerPointer (type : PrimitiveType) (name : Str) (p : PrimitiveFields)
    (now now' : ℤ) : (genTriggerPointer type name p now).map describe=
      (genTriggerPointer type name p now').map describe := by
  cases type <;> rfl

theorem addedTo_view (now : ℤ) (bucket : Bucket) (entity : TriggerEntity) :
    (addedTo now bucket entity).map describe=addedView bucket entity := by
  have htrigger : ∀ now,(entityTrigger now entity).map describe=
      if entity.triggerName=[] then none else
        (genTriggerPointer entity.primitiveType entity.triggerName entity.primitive 0).map
          describe := by
    intro now
    unfold entityTrigger
    split
    · rfl
    · rw [describe_genTriggerPointer _ _ _ 0 now,Option.map_map]
      congr 1
      funext t
      exact (describe_setRerunMetadata _ _).trans (describe_setTriggerOption t _)
  unfold addedView addedTo
  split
  · rw [←Option.toList_map,←Option.toList_map,htrigger now,htrigger 0]
  · rfl

theorem clearNamed_view (name : Str) (session : Session) (ts : List Trigger) :
    (clearNamed name session ts).map describe=ts.map describe := by
  rw [clearNamed,List.map_map]
  refine List.map_congr_left fun t _ => ?_
  dsimp only [Function.comp_apply]
  split
  · exact describe_clear t session
  · rfl

theorem clearBucket_view (bucket : Bucket) (entities : List TriggerEntity) (ts : List Trigger) :
    (clearBucket bucket ts entities).map describe=ts.map describe := by
  induction entities generalizing ts with
  | nil => rfl
  | cons entity entities ih =>
    rw [clearBucket,List.foldl_cons]
    refine (ih _).trans ?_
    split
    · exact clearNamed_view _ _ ts
    · rfl

variable {v w : WorkerTables}

theorem deleteEntity_view (h : deleteEntity w entity=some v) (bucket : Bucket) :
    workerView v bucket=if entity.bucketName=bucket
      then (workerView w bucket).eraseP fun d => decide (d.triggerName=entity.triggerName)
      else workerView w bucket := by
  unfold deleteEntity at h
  dsimp only at h
  split at h
  · cases h
  · rw [←Option.some.inj h]
    unfold workerView WorkerTables.bucketTriggers
    by_cases hb : entity.bucketName=bucket
    · subst hb
      rw [if_pos rfl,UMap.getD_set_self,List.map_map,List.map_map,List.eraseP_map]
      rfl
    · rw [if_neg hb,UMap.getD_set,if_neg (Ne.symm hb)]

theorem foldlM_deleteEntity_view {entities : List TriggerEntity}
    (h : entities.foldlM deleteEntity w=some v) (bucket : Bucket) :
    workerView v bucket=entities.foldl (fun ds entity => if entity.bucketName=bucket
      then ds.eraseP fun d => decide (d.triggerName=entity.triggerName) else ds)
      (workerView w bucket) := by
  induction entities generalizing w with
  | nil => rw [←Option.some.inj h]; rfl
  | cons entity entities ih =>
    rw [List.foldlM_cons] at h
    obtain ⟨u,hu,hv⟩ := Option.bind_eq_some_iff.mp h
    rw [ih hv,deleteEntity_view hu,List.foldl_cons]

variable {now : ℤ}

/-- Every update changes a worker's view in the same way. -/
theorem recvUpdate_view (h : recvUpdate now w msg=some v) :
    workerView v=act (workerView w) msg := by
  funext bucket
  unfold recvUpdate at h
  unfold act
  by_cases h0 : msg.msgType=0
  · rw [if_pos h0] at h ⊢
    unfold workerView
    rw [addUpdate_bucketTriggers h,List.map_append,List.map_flatMap]
    simp only [addedTo_view]
  · rw [if_neg h0] at h ⊢
    by_cases h2 : msg.msgType=2
    · rw [if_neg (by rw [h2]; decide),if_pos h2] at h
      rw [if_pos h2,foldlM_deleteEntity_view h]
    · rw [if_neg h2]
      split at h
      · rw [←Option.some.inj h]
        unfold workerView
        rw [foldl_clearEntity_bucketTriggers,clearBucket_view]
      · rw [←Option.some.inj h]

/-- A trigger built from the serialized configuration of another one has the
same description. -/
theorem describe_replica (t : Trigger) (now : ℤ) :
    (genTriggerPointer t.getType t.triggerName t.dumpPritimive now).map describe=
      some (describe t) := by
  obtain ⟨target,name,option,state⟩ := t
  cases state with
  | bySet s =>
    show some (describe ⟨target,name,0,.bySet ⟨USet.ofList s.keySet.elems,∅,∅,∅⟩⟩)=_
    rw [USet.ofList_elems]
    rfl
  | dynamicGroup s =>
    show some (describe ⟨target,name,0,.dynamicGroup ⟨∅,USet.ofList s.controlGroup.elems,∅⟩⟩)=_
    rw [USet.ofList_elems]
    rfl
  | byBatchSize s =>
    show some (describe ⟨target,name,0,.byBatchSize ⟨s.count.toUInt32.toInt32,[],∅⟩⟩)=_
    rw [Int32.toInt32_toUInt32]
    rfl
  | _ => rfl

variable {t : Trigger}

/-- What an entity with the name and the configuration of a trigger adds. -/
theorem addedView_replica (hname : entity.triggerName=t.triggerName) (hne : t.triggerName≠[])
    (htype : entity.primitiveType=t.getType) (hprim : entity.primitive=t.dumpPritimive)
    (bucket : Bucket) :
    addedView bucket entity=if entity.bucketName=bucket then [describe t] else [] := by
  unfold addedView addedTo
  split
  · rw [←Option.toList_map,entityTrigger,if_neg (by rw [hname]; exact hne),hname,htype,hprim,
      Option.map_map]
    have hd : describe ∘ (fun t => (t.setTriggerOption entity.triggerOption.toInt32.toInt).setRerunMetadata
        (rerunMetadata entity.hints))=describe := by
      funext t
      exact (describe_setRerunMetadata _ _).trans (describe_setTriggerOption t _)
    rw [hd,describe_replica]
    rfl
  · rfl

theorem addedView_nameless (h : entity.triggerName=[]) (bucket : Bucket) :
    addedView bucket entity=[] := by
  unfold addedView addedTo entityTrigger
  rw [if_pos h]
  split <;> rfl

theorem coordView_pushTrigger (bucket b : Bucket) (t : Trigger) (st : CoordState) :
    coordView (pushTrigger bucket t st) b=
      coordView st b++if bucket=b ∧ t.getType≠.byTime then [describe t] else [] := by
  unfold coordView replicated pushTrigger
  dsimp only
  by_cases hb : bucket=b
  · subst hb
    rw [UMap.getD_set_self,List.filter_append,List.map_append]
    congr 1
    by_cases ht : t.getType=.byTime
    · simp [ht]
    · simp [ht]
  · rw [UMap.getD_set,if_neg (Ne.symm hb),if_neg fun h => hb h.1,List.append_nil]

variable {st : CoordState}

/-- Every known worker is sent a broadcast message once. -/
theorem addressed_broadcast {node : Address} (h : st.nodeStatusMap.contains node=true)
    (msg : UpdateCoordMsg) : addressed node (updatesOf (broadcast st msg))=[msg] := by
  have hlist : ∀ l : List (Address×NodeStatus),(l.map Prod.fst).Nodup →
      addressed node (updatesOf (l.map fun e => CoordOut.update e.1 msg))=
        if node∈l.map Prod.fst then [msg] else [] := by
    intro l
    induction l with
    | nil => intro _; rfl
    | cons e l ih =>
      intro hn
      obtain ⟨he,hl⟩ := List.nodup_cons.mp hn
      have hcons : addressed node (updatesOf ((e::l).map fun e => CoordOut.update e.1 msg))=
          (if e.1=node then [msg] else [])++
            addressed node (updatesOf (l.map fun e => CoordOut.update e.1 msg)) := by
        by_cases hen : e.1=node <;> simp [addressed,updatesOf,hen]
      rw [hcons,ih hl]
      by_cases hen : e.1=node
      · subst hen
        rw [if_neg he]
        simp
      · have hiff : (node∈(e::l).map Prod.fst) ↔ node∈l.map Prod.fst := by
          rw [List.map_cons,List.mem_cons]
          exact or_iff_right fun hc => hen hc.symm
        simp only [hiff,if_neg hen,List.nil_append]
  exact (hlist _ st.nodeStatusMap.nodup).trans (if_pos (UMap.contains_iff_mem_keys.mp h))

variable {dep : DataDependency}

theorem dependencyTrigger_name {tgt : Str} (h : dependencyTrigger now tgt dep=some (some t)) :
    t.triggerName≠[] := by
  have hname : ∀ kind,dependencyTriggerName kind tgt≠[] := by
    intro kind hnil
    have hlen := congrArg List.length hnil
    have ht : (str "t_").length=2 := rfl
    rw [dependencyTriggerName,List.length_append,List.length_append,List.length_append,ht,
      List.length_nil] at hlen
    omega
  unfold dependencyTrigger at h
  split at h
  · rw [←Option.some.inj (Option.some.inj h)]
    exact hname "1"
  · simp only [Option.bind_eq_bind,Option.bind_eq_some_iff] at h
    obtain ⟨-,-,k,-,-,-,n,-,he⟩ := h
    rw [←Option.some.inj (Option.some.inj he)]
    exact hname "2"
  · simp only [Option.bind_eq_bind,Option.bind_eq_some_iff] at h
    obtain ⟨window,-,he⟩ := h
    rw [←Option.some.inj (Option.some.inj he)]
    exact hname "3"
  · cases Option.some.inj h

/-- The entity of a dependency adds the copy of its trigger. -/
theorem dependencyEntity_view {tgt : Str} {t : Option Trigger}
    (h : dependencyTrigger now tgt dep=some t) (bucket b : Bucket) (st : CoordState) :
    coordView (t.elim st fun t => pushTrigger bucket t st) b=
      coordView st b++addedView b (dependencyEntity bucket t) := by
  cases t with
  | none =>
    rw [addedView_nameless (by rfl),List.append_nil]
    rfl
  | some t =>
    show coordView (pushTrigger bucket t st) b=_
    rw [coordView_pushTrigger,dependencyEntity]
    by_cases ht : t.getType=.byTime
    · rw [if_pos ht,addedView_nameless (by rfl),if_neg fun hc => hc.2 ht]
    · rw [if_neg ht,addedView_replica rfl (dependencyTrigger_name h) rfl rfl]
      simp only [ht,ne_eq,not_false_eq_true,and_true]

theorem registerDependency_view {app : Str}
    {r r' : CoordState×List DataDependency×List TriggerEntity}
    (h : registerDependency app now r dep=some r') :
    r'.1.nodeStatusMap=r.1.nodeStatusMap ∧ ∃ new,r'.2.2=r.2.2++new ∧
      ∀ b,coordView r'.1 b=coordView r.1 b++new.flatMap (addedView b) := by
  unfold registerDependency at h
  split at h
  · rw [←Option.some.inj h]
    exact ⟨rfl,[],(List.append_nil _).symm,fun b => (List.append_nil _).symm⟩
  · simp only [Option.bind_eq_bind,Option.bind_eq_some_iff] at h
    obtain ⟨tgt,-,t,ht,he⟩ := h
    rw [←Option.some.inj he]
    refine ⟨?_,[dependencyEntity (dependencyBucket tgt) t],rfl,fun b => ?_⟩
    · cases t <;> rfl
    · rw [List.flatMap_singleton]
      exact dependencyEntity_view ht _ b _

/-- A registration appends to the coordinator's view what its message adds. -/
theorem foldlM_registerDependency_view {app : Str} {deps : List DataDependency}
    {r r' : CoordState×List DataDependency×List TriggerEntity}
    (h : deps.foldlM (registerDependency app now) r=some r') :
    r'.1.nodeStatusMap=r.1.nodeStatusMap ∧ ∃ new,r'.2.2=r.2.2++new ∧
      ∀ b,coordView r'.1 b=coordView r.1 b++new.flatMap (addedView b) := by
  induction deps generalizing r with
  | nil =>
    rw [←Option.some.inj h]
    exact ⟨rfl,[],(List.append_nil _).symm,fun b => (List.append_nil _).symm⟩
  | cons dep deps ih =>
    rw [List.foldlM_cons] at h
    obtain ⟨u,hu,hv⟩ := Option.bind_eq_some_iff.mp h
    obtain ⟨hn,new,he,hview⟩ := registerDependency_view hu
    obtain ⟨hn',new',he',hview'⟩ := ih hv
    refine ⟨hn'.trans hn,new++new',by rw [he',he,List.append_assoc],fun b => ?_⟩
    rw [hview' b,hview b,List.flatMap_append,List.append_assoc]

/-- Dropping all elements of a kind that occurs once drops the first. -/
theorem filter_not_eq_eraseP {α : Type*} {p : α → Bool} {l : List α} (h : l.countP p=1) :
    l.filter (fun a => !p a)=l.eraseP p := by
  induction l with
  | nil => rfl
  | cons a l ih =>
    by_cases ha : p a=true
    · rw [List.countP_cons_of_pos ha] at h
      have hnone : ∀ x∈l,(!p x)=true := by
        intro x hx
        have h0 : l.countP p=0 := by omega
        have := List.countP_eq_zero.mp h0 x hx
        simpa using this
      rw [List.eraseP_cons_of_pos ha,List.filter_cons_of_neg (by simp [ha]),
        List.filter_eq_self.mpr hnone]
    · rw [List.countP_cons_of_neg ha] at h
      rw [List.eraseP_cons_of_neg ha,List.filter_cons_of_pos (by simp [ha]),ih h]

/-- The requests after which workers and coordinator end up with the same
triggers: a deleted bucket has no triggers that workers have copies of, an
added one of these has a name, and a deleted name belongs to exactly one of
them or to no trigger at all. -/
def Mirrored (st : CoordState) : Request → Prop
  | .register _ _ => True
  | .bucket req => req.operationType=.deleteBucket →
      st.bucketAppMap.contains req.bucketName=true → replicated st req.bucketName=[]
  | .trigger req _ => st.bucketAppMap.contains req.bucketName=true →
      (req.operationType=.addTrigger → req.triggerName≠[] ∨ req.primitiveType=.byTime) ∧
      (req.operationType=.deleteTrigger →
        (∀ t∈st.bucketTriggersMap.getD req.bucketName [],t.triggerName≠req.triggerName) ∨
        (replicated st req.bucketName).countP (fun t => decide (t.triggerName=req.triggerName))=1)

instance (st : CoordState) (req : Request) : Decidable (Mirrored st req) := by
  cases req <;> unfold Mirrored <;> infer_instance

theorem genTriggerPointer_eq_some {type : PrimitiveType} {name : Str} {p : PrimitiveFields}
    (h : genTriggerPointer type name p now=some t) : t.getType=type ∧ t.triggerName=name := by
  obtain ⟨s,hs,he⟩ := Option.map_eq_some_iff.mp h
  subst he
  refine ⟨?_,rfl⟩
  cases type <;> first | cases hs; rfl | cases hs

variable {req : TriggerOperationRequest} {r : TriggerOperation}

theorem addTriggerOp_view (h : addTriggerOp now st req=some r)
    (hname : req.triggerName≠[] ∨ req.primitiveType=.byTime) :
    r.st.nodeStatusMap=st.nodeStatusMap ∧ r.msgType=0 ∧
      ∀ b,coordView r.st b=coordView st b++r.triggers.flatMap (addedView b) := by
  unfold addTriggerOp at h
  obtain ⟨t,ht,he⟩ := Option.bind_eq_some_iff.mp h
  obtain ⟨htype,htname⟩ := genTriggerPointer_eq_some ht
  rw [←Option.some.inj he]
  refine ⟨rfl,rfl,fun b => ?_⟩
  dsimp only
  rw [coordView_pushTrigger]
  congr 1
  by_cases hb : t.getType=.byTime
  · have hs : (t.setTriggerOption req.triggerOption.toInt32.toInt).getType=.byTime := hb
    rw [if_pos hs,if_neg fun hc => hc.2 hs]
    rfl
  · have hs : (t.setTriggerOption req.triggerOption.toInt32.toInt).getType≠.byTime := hb
    have hne : (t.setTriggerOption req.triggerOption.toInt32.toInt).triggerName≠[] := by
      rcases hname with hn|hn
      · exact fun hnil => hn (htname.symm.trans hnil)
      · exact absurd (htype.trans hn) hb
    rw [if_neg hs,List.flatMap_singleton,addedView_replica htname.symm hne htype.symm rfl]
    simp only [hs,ne_eq,not_false_eq_true,and_true]

theorem coordView_dropNamed (st : CoordState) (bucket b : Bucket) (name : Str) :
    coordView {st with
      bucketTriggersMap := st.bucketTriggersMap.set bucket
        ((st.bucketTriggersMap.getD bucket []).filter fun t => decide (t.triggerName≠name))} b=
      if bucket=b then ((replicated st b).filter fun t => decide (t.triggerName≠name)).map describe
        else coordView st b := by
  unfold coordView replicated
  dsimp only
  by_cases hb : bucket=b
  · subst hb
    rw [if_pos rfl,UMap.getD_set_self,List.filter_filter,List.filter_filter]
    congr 2
    funext t
    exact Bool.and_comm _ _
  · rw [if_neg hb,UMap.getD_set,if_neg (Ne.symm hb)]

/-- Deleting a trigger: the view loses the first one of the name, if any. -/
theorem deleteTriggerOp_view
    (h : (∀ t∈st.bucketTriggersMap.getD req.bucketName [],t.triggerName≠req.triggerName) ∨
      (replicated st req.bucketName).countP (fun t => decide (t.triggerName=req.triggerName))=1)
    (self : CoordIdentity) :
    (deleteTriggerOp st req).st.nodeStatusMap=st.nodeStatusMap ∧
      coordView (deleteTriggerOp st req).st=act (coordView st)
        ⟨self.privateIp,self.threadId,req.appName,[],[],(deleteTriggerOp st req).triggers,
          (deleteTriggerOp st req).msgType⟩ := by
  unfold deleteTriggerOp
  dsimp only
  by_cases hex : ∃ t∈st.bucketTriggersMap.getD req.bucketName [],t.triggerName=req.triggerName
  · have hone := h.resolve_left fun hall => by
      obtain ⟨t,ht,hn⟩ := hex
      exact hall t ht hn
    rw [if_pos hex]
    refine ⟨rfl,funext fun b => ?_⟩
    rw [coordView_dropNamed,act_delete rfl rfl]
    by_cases hb : req.bucketName=b
    · subst hb
      have hdrop := filter_not_eq_eraseP hone
      simp only [←decide_not] at hdrop
      rw [if_pos rfl,if_pos rfl,coordView,List.eraseP_map]
      exact congrArg (List.map describe) hdrop
    · rw [if_neg hb,if_neg hb]
  · rw [if_neg hex]
    refine ⟨rfl,funext fun b => ?_⟩
    rw [coordView_dropNamed,act_add rfl,List.flatMap_nil,List.append_nil]
    by_cases hb : req.bucketName=b
    · subst hb
      have hall : ∀ t∈replicated st req.bucketName,decide (t.triggerName≠req.triggerName)=true := by
        intro t ht
        exact decide_eq_true fun hn => hex ⟨t,List.mem_of_mem_filter ht,hn⟩
      rw [if_pos rfl,List.filter_eq_self.mpr hall]
      rfl
    · rw [if_neg hb]

/-- A trigger request changes the coordinator's view as its message does. -/
theorem triggerOp_view (h : triggerOp now st req=some r) (hm : Mirrored st (.trigger req now))
    (self : CoordIdentity) :
    r.st.nodeStatusMap=st.nodeStatusMap ∧ coordView r.st=act (coordView st)
      ⟨self.privateIp,self.threadId,req.appName,[],[],r.triggers,r.msgType⟩ := by
  have hidle : ∀ error,r=⟨st,error,0,[]⟩ → r.st.nodeStatusMap=st.nodeStatusMap ∧
      coordView r.st=act (coordView st)
        ⟨self.privateIp,self.threadId,req.appName,[],[],r.triggers,r.msgType⟩ := by
    rintro error rfl
    refine ⟨rfl,funext fun b => ?_⟩
    rw [act_add rfl,List.flatMap_nil,List.append_nil]
  unfold triggerOp at h
  split at h
  · rename_i hop
    split at h
    · rename_i hc
      obtain ⟨hn,ht,hv⟩ := addTriggerOp_view h ((hm hc).1 hop)
      refine ⟨hn,funext fun b => ?_⟩
      rw [act_add ht]
      exact hv b
    · exact hidle _ (Option.some.inj h).symm
  · rename_i hop
    split at h
    · rename_i hc
      rw [←Option.some.inj h]
      exact deleteTriggerOp_view ((hm hc).2 hop) self
    · exact hidle _ (Option.some.inj h).symm
  · exact hidle _ (Option.some.inj h).symm

/-- A bucket request that meets the condition leaves the view alone. -/
theorem bucketOpHandler_view {req : BucketOperationRequest} (hm : Mirrored st (.bucket req)) :
    (bucketOpHandler st req).1.nodeStatusMap=st.nodeStatusMap ∧
      coordView (bucketOpHandler st req).1=coordView st ∧ updatesOf (bucketOpHandler st req).2=[] := by
  unfold bucketOpHandler
  dsimp only
  split
  · split <;> exact ⟨rfl,rfl,rfl⟩
  · rename_i hop
    split
    · rename_i hc
      refine ⟨rfl,funext fun b => ?_,rfl⟩
      have hnone := hm hop hc
      unfold coordView
      by_cases hb : b=req.bucketName
      · subst hb
        rw [hnone]
        unfold replicated
        dsimp only
        rw [UMap.getD_erase,if_pos rfl]
        rfl
      · unfold replicated
        dsimp only
        rw [UMap.getD_erase,if_neg hb]
    · exact ⟨rfl,rfl,rfl⟩
  · exact ⟨rfl,rfl,rfl⟩

variable {self : CoordIdentity}

section Operate

variable {st' : CoordState} {msgs : List (Address×UpdateCoordMsg)}

theorem operate_register {reg : AppRegistration}
    (h : (system self).operate st (.register reg now)=some (st',msgs)) :
    ∃ out,appRegisterHandler self now st reg=some (st',out) ∧ msgs=updatesOf out := by
  obtain ⟨r,hr,he⟩ := Option.map_eq_some_iff.mp h
  cases he
  exact ⟨r.2,hr,rfl⟩

theorem operate_bucket {req : BucketOperationRequest}
    (h : (system self).operate st (.bucket req)=some (st',msgs)) :
    st'=(bucketOpHandler st req).1 ∧ msgs=updatesOf (bucketOpHandler st req).2 := by
  cases h
  exact ⟨rfl,rfl⟩

/-- Every known worker is sent one update about a trigger request. -/
theorem operate_trigger {req : TriggerOperationRequest}
    (h : (system self).operate st (.trigger req now)=some (st',msgs)) :
    ∃ r,triggerOp now st req=some r ∧ st'=r.st ∧ ∀ node,r.st.nodeStatusMap.contains node=true →
      addressed node msgs=[⟨self.privateIp,self.threadId,req.appName,[],[],r.triggers,r.msgType⟩] := by
  obtain ⟨s,hh,he⟩ := Option.map_eq_some_iff.mp h
  obtain ⟨r,hr,hs⟩ := Option.bind_eq_some_iff.mp hh
  cases hs
  cases he
  exact ⟨r,hr,rfl,fun node hnode => addressed_broadcast hnode _⟩

end Operate

/-- Every request that meets the condition changes the coordinator's view as
the updates do that it sends to a known worker. -/
theorem operate_view {st' : CoordState} {req : Request} {msgs : List (Address×UpdateCoordMsg)}
    (hm : Mirrored st req) (h : (system self).operate st req=some (st',msgs)) :
    st'.nodeStatusMap=st.nodeStatusMap ∧ ∀ node,st'.nodeStatusMap.contains node=true →
      coordView st'=(addressed node msgs).foldl act (coordView st) := by
  cases req with
  | register reg now =>
    obtain ⟨out,hh,rfl⟩ := operate_register h
    obtain ⟨r,hr,hs⟩ := Option.bind_eq_some_iff.mp hh
    obtain ⟨hn,new,hnew,hv⟩ := foldlM_registerDependency_view hr
    obtain ⟨rfl,rfl⟩ := Prod.mk.inj (Option.some.inj hs)
    refine ⟨hn,fun node hc => ?_⟩
    rw [addressed_broadcast hc,List.foldl_cons,List.foldl_nil]
    funext b
    rw [act_add rfl,hnew,List.nil_append]
    exact hv b
  | bucket req =>
    obtain ⟨rfl,rfl⟩ := operate_bucket h
    obtain ⟨hn,hv,hu⟩ := bucketOpHandler_view hm
    refine ⟨hn,fun node _ => ?_⟩
    rw [hu,hv]
    rfl
  | trigger req now =>
    obtain ⟨r,hr,rfl,hsent⟩ := operate_trigger h
    obtain ⟨hn,hv⟩ := triggerOp_view hr hm self
    refine ⟨hn,fun node hc => ?_⟩
    rw [hsent node hc]
    exact hv

theorem triggerOp_nodes (h : triggerOp now st req=some r) :
    r.st.nodeStatusMap=st.nodeStatusMap := by
  unfold triggerOp at h
  split at h
  · split at h
    · obtain ⟨t,-,he⟩ := Option.bind_eq_some_iff.mp h
      rw [←Option.some.inj he]
      rfl
    · rw [←Option.some.inj h]
  · split at h
    · rw [←Option.some.inj h,deleteTriggerOp]
      dsimp only
      split <;> rfl
    · rw [←Option.some.inj h]
  · rw [←Option.some.inj h]

/-- No request changes the set of workers known to the coordinator. -/
theorem operate_nodes {st' : CoordState} {req : Request} {msgs : List (Address×UpdateCoordMsg)}
    (h : (system self).operate st req=some (st',msgs)) : st'.nodeStatusMap=st.nodeStatusMap := by
  cases req with
  | register reg now =>
    obtain ⟨out,hh,-⟩ := operate_register h
    obtain ⟨r,hr,hs⟩ := Option.bind_eq_some_iff.mp hh
    cases hs
    exact (foldlM_registerDependency_view hr).1
  | bucket req =>
    rw [(operate_bucket h).1,bucketOpHandler]
    dsimp only
    split
    · split <;> rfl
    · split <;> rfl
    · rfl
  | trigger req now =>
    obtain ⟨r,hr,rfl,-⟩ := operate_trigger h
    exact triggerOp_nodes hr

/-- The set of workers known to the coordinator does not change. -/
theorem nodes_of_run {nodes : UMap Address NodeStatus} {seed : UInt32}
    {l : List (Event Address Request ℤ)} {n : Net Address CoordState WorkerTables UpdateCoordMsg}
    (hr : run (system self).step (start nodes seed) l=some n) : n.center.nodeStatusMap=nodes := by
  have hstep : ∀ (n : Net Address CoordState WorkerTables UpdateCoordMsg) e n',
      n.center.nodeStatusMap=nodes → (system self).step n e=some n' →
      n'.center.nodeStatusMap=nodes := by
    intro n e n' hn h
    obtain ⟨req,c,msgs,-,ho,rfl⟩|⟨i,d,m,rest,s,-,-,-,rfl⟩ := (system self).step_cases h
    · exact (operate_nodes ho).trans hn
    · exact hn
  exact run_invariant hstep rfl hr

/-- In every run whose requests all meet the condition, a worker to which no
update is under way holds, for every bucket, the names and primitives of the
coordinator's triggers other than time triggers, in the same order. -/
theorem trigger_tables_agree {self : CoordIdentity} {nodes : UMap Address NodeStatus}
    {seed : UInt32} {l : List (Event Address Request ℤ)}
    {n : Net Address CoordState WorkerTables UpdateCoordMsg}
    (hok : StepsMeet (system self).step (fun n e => ∀ req,e=.op req → Mirrored n.center req)
      (start nodes seed) l)
    (hr : run (system self).step (start nodes seed) l=some n) {node : Address}
    (hnode : nodes.contains node=true) (hlink : n.link node=[]) (bucket : Bucket) :
    workerView (n.replica node) bucket=coordView n.center bucket := by
  have hmember : n.center.nodeStatusMap.contains node=true := by
    rw [nodes_of_run hr]
    exact hnode
  have hstart : System.Lags coordView workerView act
      (fun st i => st.nodeStatusMap.contains i=true) (start nodes seed) := fun _ _ => rfl
  have hviews := (system self).view_eq_of_run
    (fun c req c' msgs hm h i hi => by
      obtain ⟨hn,hv⟩ := operate_view hm h
      exact ⟨hn ▸ hi,hv i hi⟩)
    (fun now w msg w' h => recvUpdate_view h) hstart hok hr hmember hlink
  exact congrFun hviews bucket

/-- One worker. -/
def oneNode : UMap Address NodeStatus := UMap.set ∅ (str "10.0.0.1") ⟨1⟩

/-- Create or delete the bucket `b`. -/
def bucketRequest (op : BucketOperationType) : Event Address Request ℤ :=
  .op (.bucket ⟨op,str "app",str "b",[],[]⟩)

/-- Add or delete an immediate trigger of the bucket `b`. -/
def triggerRequest (op : TriggerOperationType) (name : Str) : Event Address Request ℤ :=
  .op (.trigger ⟨op,str "app",str "b",name,0,.immediate,⟨str "f",[],0,0⟩,[],[],[]⟩ 0)

/-- Two triggers are added and one of them is deleted again. -/
def mirroredRun : List (Event Address Request ℤ) :=
  [bucketRequest .createBucket,triggerRequest .addTrigger (str "t"),
    triggerRequest .addTrigger (str "u"),.deliver (str "10.0.0.1") 0,
    triggerRequest .deleteTrigger (str "t"),.deliver (str "10.0.0.1") 0,
    .deliver (str "10.0.0.1") 0]

/-- After the deliveries the worker holds the remaining trigger. -/
theorem trigger_tables_agree_mirrored : ∃ n,
    run (system ⟨[],0⟩).step (start oneNode 0) mirroredRun=some n ∧
    (coordView n.center (str "b")).map Description.triggerName=[str "u"] ∧
    ∀ bucket,workerView (n.replica (str "10.0.0.1")) bucket=coordView n.center bucket := by
  obtain ⟨n,hn⟩ : ∃ n,run (system ⟨[],0⟩).step (start oneNode 0) mirroredRun=some n := ⟨_,rfl⟩
  have hview : (run (system ⟨[],0⟩).step (start oneNode 0) mirroredRun).map (fun n =>
      (n.link (str "10.0.0.1"),(coordView n.center (str "b")).map Description.triggerName))=
      some ([],[str "u"]) := rfl
  rw [hn,Option.map_some,Option.some.injEq,Prod.mk.injEq] at hview
  exact ⟨n,hn,hview.2,trigger_tables_agree (by decide) hn (by decide) hview.1⟩

/-- A bucket with a trigger is deleted. -/
def deletedBucketRun : List (Event Address Request ℤ) :=
  [bucketRequest .createBucket,triggerRequest .addTrigger (str "t"),.deliver (str "10.0.0.1") 0,
    bucketRequest .deleteBucket]

/-- Nothing is under way, and the worker still holds the trigger. -/
theorem deleted_bucket_keeps_trigger : ∃ n,
    run (system ⟨[],0⟩).step (start oneNode 0) deletedBucketRun=some n ∧
    (∀ node,oneNode.contains node=true → n.link node=[]) ∧ coordView n.center (str "b")=[] ∧
    (workerView (n.replica (str "10.0.0.1")) (str "b")).map Description.triggerName=[str "t"] := by
  refine ⟨_,rfl,fun node hnode => ?_,rfl,rfl⟩
  have hone : node=str "10.0.0.1" := List.mem_singleton.mp (UMap.contains_iff_mem_keys.mp hnode)
  rw [hone]
  rfl

end Pheromone.TriggerTables
