import Pheromone.RegistrationEffects
import Pheromone.TriggerTables
import Pheromone.ObjectDispatch

/-!
# Routes from workers to the coordinator

A worker reports objects only of buckets that an update has named. Buckets
that have only time triggers are named by registrations alone.
-/

namespace Pheromone.BucketRoutes

open UnorderedContainers GuardedRuns BroadcastReplicas CommonNames TriggerPrimitives
open OperationMessages CoordinatorNotify CoordinatorOps WorkerUpdates SchedulerState ObjectDispatch
open TriggerTables RegistrationEffects

/-- Requests that set up buckets and triggers. -/
def SetsUp : Request → Prop
  | .register _ _ => True
  | .bucket req => req.operationType=.createBucket
  | .trigger req _ => req.operationType=.addTrigger

instance (req : Request) : Decidable (SetsUp req) :=
  match req with
  | .register _ _ => inferInstanceAs (Decidable True)
  | .bucket req => inferInstanceAs (Decidable (req.operationType=.createBucket))
  | .trigger req _ => inferInstanceAs (Decidable (req.operationType=.addTrigger))

/-- A registration with a dependency for the bucket. -/
def Names (b : Bucket) : Request → Prop
  | .register reg _ => ∃ dep∈reg.dependencies,dep.type≠.direct ∧
      dep.tgtFunctions.head?.map dependencyBucket=some b
  | _ => False

instance (b : Bucket) (req : Request) : Decidable (Names b req) :=
  match req with
  | .register reg _ => inferInstanceAs (Decidable (∃ dep∈reg.dependencies,_ ∧ _))
  | .bucket _ | .trigger _ _ => inferInstanceAs (Decidable False)

/-- A worker has a route for the bucket, and reports any object of it to the
coordinator thread. -/
structure Routable (coord : CoordIdentity) (w : WorkerTables) (b : Bucket) : Prop where
  /-- The bucket has a coordinator. -/
  known : w.bucketCoordMap.contains b=true
  reported : ∀ cfg st bk activeTriggers respAddress payload,st.tables=w → bk.bucket=b →
    ∃ address,since st (notifyPut cfg st bk activeTriggers respAddress payload)=
      [.sent (.notify ⟨coord.privateIp,coord.threadId⟩
        ⟨respAddress,[⟨bk.bucket,bk.key,bk.session,[address],payload⟩],activeTriggers⟩)]

variable {self : CoordIdentity} {w : WorkerTables}

/-- A route to the coordinator thread is all that a report needs. -/
theorem routable_of_route {b : Bucket}
    (h : w.bucketCoordMap.find? b=some ⟨self.privateIp,self.threadId⟩) : Routable self w b where
  known := UMap.contains_eq_true_iff.mpr ⟨_,h⟩
  reported cfg st bk activeTriggers respAddress payload hw hb := by
    rw [←hw,←hb] at h
    refine ⟨(getDataServerAddr cfg st true).1,?_⟩
    rw [notifyPut,h]
    exact List.drop_left

/-- The routes of a worker. -/
def workerRoutes (w : WorkerTables) (b : Bucket) : Option HandlerThread := w.bucketCoordMap.find? b

/-- What an update does to routes. -/
def route (v : Bucket → Option HandlerThread) (msg : UpdateCoordMsg) (b : Bucket) :
    Option HandlerThread :=
  if msg.msgType=0 ∧ ∃ entity∈msg.triggers,entity.bucketName=b then some ⟨msg.ip,msg.threadId⟩
  else v b

theorem addTrigger_routes (now : ℤ) (app : Str) (coord : HandlerThread) (w : WorkerTables)
    (entity : TriggerEntity) : (addTrigger now app coord w entity).bucketCoordMap=
      w.bucketCoordMap.set entity.bucketName coord := by
  unfold addTrigger
  dsimp only
  split <;> rfl

theorem foldl_addTrigger_routes (now : ℤ) (app : Str) (coord : HandlerThread)
    (entities : List TriggerEntity) (w : WorkerTables) (b : Bucket) :
    workerRoutes (entities.foldl (addTrigger now app coord) w) b=
      if ∃ entity∈entities,entity.bucketName=b then some coord else workerRoutes w b := by
  induction entities generalizing w with
  | nil =>
    refine (if_neg ?_).symm
    rintro ⟨entity,he,-⟩
    exact absurd he List.not_mem_nil
  | cons entity entities ih =>
    rw [List.foldl_cons,ih,workerRoutes,addTrigger_routes,UMap.find?_set]
    by_cases hb : entity.bucketName=b
    · rw [if_pos hb.symm,ite_self,if_pos ⟨entity,List.mem_cons_self,hb⟩]
    · rw [if_neg (Ne.symm hb)]
      refine if_congr ?_ rfl rfl
      rw [List.exists_mem_cons_iff,or_iff_right hb]

variable {app : Str} {v : WorkerTables}

variable {now : ℤ} {msg : UpdateCoordMsg}

theorem addUpdate_routes (h : addUpdate now w msg=some v) (b : Bucket) :
    workerRoutes v b=if ∃ entity∈msg.triggers,entity.bucketName=b then some ⟨msg.ip,msg.threadId⟩
      else workerRoutes w b := by
  obtain ⟨u,hu,hv⟩ := Option.bind_eq_some_iff.mp h
  have hfuncs := List.foldlRecOn (motive:=fun v : WorkerTables => v.bucketCoordMap=w.bucketCoordMap)
    msg.functions (addFunction msg.appName) (b:={w with
      appCoordMap := w.appCoordMap.set msg.appName ⟨msg.ip,msg.threadId⟩}) rfl fun _ hv _ _ => hv
  have hsame : u.bucketCoordMap=w.bucketCoordMap :=
    addDependencies_invariant (I:=fun u => u.bucketCoordMap=w.bucketCoordMap)
      (fun _ _ _ _ _ _ _ _ hu => hu) hfuncs hu
  rw [←Option.some.inj hv,foldl_addTrigger_routes,workerRoutes,hsame]
  rfl

/-- Every update changes the routes of a worker in the same way. -/
theorem recvUpdate_routes (h : recvUpdate now w msg=some v) :
    workerRoutes v=route (workerRoutes w) msg := by
  funext b
  rw [route]
  by_cases htype : msg.msgType=0
  · rw [recvUpdate,if_pos htype] at h
    rw [addUpdate_routes h]
    simp only [htype,true_and]
  · rw [if_neg fun hc => htype hc.1]
    have hclear : ∀ u entity,u.bucketCoordMap=w.bucketCoordMap →
        (clearEntity u entity).bucketCoordMap=w.bucketCoordMap := fun _ _ hu => hu
    have hdelete : ∀ u u' entity,u.bucketCoordMap=w.bucketCoordMap →
        deleteEntity u entity=some u' → u'.bucketCoordMap=w.bucketCoordMap := by
      intro u u' entity hu hd
      unfold deleteEntity at hd
      dsimp only at hd
      split at hd
      · cases hd
      · exact Option.some.inj hd ▸ hu
    have hkept : v.bucketCoordMap=w.bucketCoordMap :=
      recvUpdate_invariant (fun hzero => absurd hzero htype) hclear hdelete rfl h
    rw [workerRoutes,hkept]
    rfl

/-- The workers have been told of the bucket: a registration has named it, or
it has a trigger with copies. -/
def Announced (c : CoordState×List Request) (b : Bucket) : Prop :=
  (∃ req∈c.2,Names b req) ∨ ∃ t∈c.1.bucketTriggersMap.getD b [],t.getType≠.byTime

instance (c : CoordState×List Request) (b : Bucket) : Decidable (Announced c b) := by
  unfold Announced
  infer_instance

/-- The routes that the requests so far have asked for. -/
def coordRoutes (self : CoordIdentity) (c : CoordState×List Request) (b : Bucket) :
    Option HandlerThread :=
  if Announced c b then some ⟨self.privateIp,self.threadId⟩ else none

theorem coordRoutes_announce {c c' : CoordState×List Request} {functions : List Str}
    {dependencies : List DataDependency} {entities : List TriggerEntity}
    (h : ∀ b,Announced c' b ↔ (∃ entity∈entities,entity.bucketName=b) ∨ Announced c b) :
    coordRoutes self c'=route (coordRoutes self c)
      ⟨self.privateIp,self.threadId,app,functions,dependencies,entities,0⟩ := by
  funext b
  rw [coordRoutes,route]
  simp only [true_and]
  by_cases hnew : ∃ entity∈entities,entity.bucketName=b
  · rw [if_pos ((h b).mpr (Or.inl hnew)),if_pos hnew]
  · rw [if_neg hnew,coordRoutes]
    exact if_congr ((h b).trans (or_iff_right hnew)) rfl rfl

variable {reg : AppRegistration} {items : List Reading}

theorem names_iff_reading (hitems : List.Forall₂ (Reads now) (bucketOnes reg.dependencies) items)
    (b : Bucket) : Names b (.register reg now) ↔ ∃ i∈items,i.bucket=b := by
  constructor
  · rintro ⟨dep,hdep,htype,htgt⟩
    obtain ⟨i,hi,hreads⟩ := exists_reading hitems (mem_bucketOnes.mpr ⟨hdep,htype⟩)
    rw [hreads.1] at htgt
    exact ⟨i,hi,Option.some.inj htgt⟩
  · rintro ⟨i,hi,rfl⟩
    obtain ⟨dep,hdep,htgt,-⟩ := exists_dep hitems hi
    obtain ⟨hmem,htype⟩ := mem_bucketOnes.mp hdep
    refine ⟨dep,hmem,htype,?_⟩
    rw [htgt]
    rfl

theorem exists_mem_concat {α : Type} {p : α → Prop} (l : List α) (x : α) :
    (∃ y∈l++[x],p y) ↔ (∃ y∈l,p y) ∨ p x := by
  simp only [List.mem_append,List.mem_singleton,or_and_right,exists_or,exists_eq_left]

theorem announced_register (hitems : List.Forall₂ (Reads now) (bucketOnes reg.dependencies) items)
    (st : CoordState) (h : List Request) (b : Bucket) :
    Announced (items.foldl (install reg.appName) st,h++[.register reg now]) b ↔
      (∃ entity∈items.map Reading.entity,entity.bucketName=b) ∨ Announced (st,h) b := by
  have hentities : (∃ entity∈items.map Reading.entity,entity.bucketName=b) ↔ ∃ i∈items,i.bucket=b := by
    simp only [List.mem_map,exists_exists_and_eq_and,entity_bucketName]
  rw [hentities,Announced,Announced]
  dsimp only
  rw [exists_mem_concat,names_iff_reading hitems,foldl_install_triggers]
  constructor
  · rintro ((hold|hnew)|⟨t,ht,htype⟩)
    · exact Or.inr (Or.inl hold)
    · exact Or.inl hnew
    · rcases List.mem_append.mp ht with ht|ht
      · exact Or.inr (Or.inr ⟨t,ht,htype⟩)
      · obtain ⟨i,hi,hib,-⟩ := mem_addedTriggers.mp ht
        exact Or.inl ⟨i,hi,hib⟩
  · rintro (hnew|hold|⟨t,ht,htype⟩)
    · exact Or.inl (Or.inr hnew)
    · exact Or.inl (Or.inl hold)
    · exact Or.inr ⟨t,List.mem_append_left _ ht,htype⟩

variable {req : Request}

/-- Requests other than registrations name no bucket. -/
theorem announced_other (hreq : ∀ b,¬Names b req) (st : CoordState) (h : List Request) (b : Bucket) :
    Announced (st,h++[req]) b ↔ Announced (st,h) b := by
  rw [Announced,Announced]
  dsimp only
  rw [exists_mem_concat,or_iff_left (hreq b)]

theorem announced_pushTrigger (b' : Bucket) (t : Trigger) (st : CoordState) (h : List Request)
    (b : Bucket) : Announced (pushTrigger b' t st,h) b ↔
      (t.getType≠.byTime ∧ b'=b) ∨ Announced (st,h) b := by
  rw [Announced,Announced,or_left_comm]
  refine or_congr_right ?_
  show (∃ u∈(st.bucketTriggersMap.set b' _).getD b [],_) ↔ _
  rw [UMap.getD_set]
  by_cases hb : b'=b
  · rw [if_pos hb.symm,exists_mem_concat,and_iff_left hb,hb,or_comm]
  · rw [if_neg (Ne.symm hb)]
    exact (or_iff_right fun hc => hb hc.2).symm

variable {st : CoordState}

theorem announced_triggerOp {req : TriggerOperationRequest} {r : TriggerOperation}
    (hadd : req.operationType=.addTrigger) (h : triggerOp now st req=some r) :
    r.msgType=0 ∧ ∀ hist b,Announced (r.st,hist) b ↔
      (∃ entity∈r.triggers,entity.bucketName=b) ∨ Announced (st,hist) b := by
  have hnone : ∀ b : Bucket,¬∃ entity∈([] : List TriggerEntity),entity.bucketName=b :=
    fun b ⟨_,he,_⟩ => absurd he List.not_mem_nil
  rw [triggerOp,hadd] at h
  dsimp only at h
  split at h
  · obtain ⟨t,-,he⟩ := Option.bind_eq_some_iff.mp h
    rw [←Option.some.inj he]
    refine ⟨rfl,fun hist b => ?_⟩
    dsimp only
    rw [announced_pushTrigger]
    refine or_congr_left ?_
    by_cases htime : (t.setTriggerOption req.triggerOption.toInt32.toInt).getType=.byTime
    · rw [if_pos htime]
      exact iff_of_false (fun hc => hc.1 htime) (hnone b)
    · rw [if_neg htime,and_iff_right htime]
      simp only [List.mem_singleton,exists_eq_left]
  · rw [←Option.some.inj h]
    exact ⟨rfl,fun hist b => (or_iff_right (hnone b)).symm⟩

variable {node : Address}

/-- Every request that sets up something changes the routes as its update does. -/
theorem operate_routes {st' : CoordState} {msgs : List (Address×UpdateCoordMsg)} (hreq : SetsUp req)
    (hist : List Request) (h : (system self).operate st req=some (st',msgs))
    (hnode : st'.nodeStatusMap.contains node=true) : coordRoutes self (st',hist++[req])=
      (addressed node msgs).foldl route (coordRoutes self (st,hist)) := by
  cases req with
  | register reg now =>
    obtain ⟨out,hh,rfl⟩ := operate_register h
    obtain ⟨items,hitems,rfl,rfl⟩ := appRegisterHandler_iff.mp hh
    rw [addressed_broadcast hnode]
    exact coordRoutes_announce (announced_register hitems st hist)
  | bucket req =>
    have hop : req.operationType=.createBucket := hreq
    obtain ⟨rfl,rfl⟩ := operate_bucket h
    have hroutes : coordRoutes self (st,hist++[.bucket req])=coordRoutes self (st,hist) :=
      funext fun b => if_congr (announced_other (fun _ => id) st hist b) rfl rfl
    rw [bucketOpHandler,hop]
    dsimp only
    split
    · exact hroutes
    · exact hroutes
  | trigger req now =>
    obtain ⟨r,hr,rfl,hsent⟩ := operate_trigger h
    obtain ⟨htype,hannounced⟩ := announced_triggerOp hreq hr
    rw [hsent node hnode,htype]
    refine coordRoutes_announce fun b => ?_
    rw [announced_other fun _ => id]
    exact hannounced hist b

/-- The routes of a worker to which no update is under way. -/
theorem routes_of_run {nodes : UMap Address NodeStatus} {seed : UInt32}
    {l : List (Event Address Request ℤ)} {n : Net Address CoordState WorkerTables UpdateCoordMsg}
    (hl : ∀ req∈operations l,SetsUp req) (hr : run (system self).step (start nodes seed) l=some n)
    (hnode : n.center.nodeStatusMap.contains node=true) (hlink : n.link node=[]) :
    workerRoutes (n.replica node)=coordRoutes self (n.center,operations l) := by
  have hstart : ∀ i,(start nodes seed).center.nodeStatusMap.contains i=true →
      ((start nodes seed).link i).foldl route (workerRoutes ((start nodes seed).replica i))=
        coordRoutes self ((start nodes seed).center,[]) := by
    intro i _
    funext b
    refine (if_neg ?_).symm
    rintro (⟨req,hreq,-⟩|⟨t,ht,-⟩)
    · exact absurd hreq List.not_mem_nil
    · exact absurd ht List.not_mem_nil
  have hop : ∀ c h o c' msgs,SetsUp o → (system self).operate c o=some (c',msgs) →
      ∀ i,c'.nodeStatusMap.contains i=true → c.nodeStatusMap.contains i=true ∧
        coordRoutes self (c',h++[o])=(addressed i msgs).foldl route (coordRoutes self (c,h)) :=
    fun c h o c' msgs ho hc i hi => ⟨operate_nodes hc ▸ hi,operate_routes ho h hc hi⟩
  exact (system self).view_eq_of_record hop (fun _ _ _ _ hrecv => recvUpdate_routes hrecv) hstart hl hr
    hnode hlink

/-- After every sequence of bucket creations, trigger additions and
registrations, a worker to which no update is under way can report the
objects of all buckets with triggers, exactly if every bucket that has only
time triggers has been named by a registration. -/
theorem triggers_routable_iff {self : CoordIdentity} {nodes : UMap Address NodeStatus} {seed : UInt32}
    {l : List (Event Address Request ℤ)} {n : Net Address CoordState WorkerTables UpdateCoordMsg}
    (hl : ∀ req∈operations l,SetsUp req) (hr : run (system self).step (start nodes seed) l=some n)
    {node : Address} (hnode : nodes.contains node=true) (hlink : n.link node=[]) :
    (∀ b,n.center.bucketTriggersMap.getD b []≠[] → Routable self (n.replica node) b) ↔
      ∀ b,n.center.bucketTriggersMap.getD b []≠[] →
        (∀ t∈n.center.bucketTriggersMap.getD b [],t.getType=.byTime) →
        ∃ req∈operations l,Names b req := by
  have hroutes := routes_of_run hl hr (by rw [nodes_of_run hr]; exact hnode) hlink
  have hroute : ∀ b,(n.replica node).bucketCoordMap.find? b=
      if Announced (n.center,operations l) b then some ⟨self.privateIp,self.threadId⟩ else none :=
    fun b => congrFun hroutes b
  constructor
  · intro hall b hb htime
    obtain ⟨coord,hcoord⟩ := UMap.contains_eq_true_iff.mp (hall b hb).known
    rw [hroute b] at hcoord
    split at hcoord
    · rename_i hannounced
      refine hannounced.resolve_right ?_
      rintro ⟨t,ht,htype⟩
      exact htype (htime t ht)
    · cases hcoord
  · intro hnamed b hb
    refine routable_of_route ?_
    rw [hroute b]
    refine if_pos ?_
    by_cases htime : ∀ t∈n.center.bucketTriggersMap.getD b [],t.getType=.byTime
    · exact Or.inl (hnamed b hb htime)
    · exact Or.inr (by simpa only [not_forall,exists_prop] using htime)

/-- A periodic dependency and an immediate trigger. -/
def routedRun : List (Event Address Request ℤ) :=
  [.op (.register ⟨str "app",[],[⟨.periodic,[],[str "h"],str "10"⟩]⟩ 0),bucketRequest .createBucket,
    triggerRequest .addTrigger (str "t"),.deliver (str "10.0.0.1") 0,.deliver (str "10.0.0.1") 0]

theorem triggers_routable_named : ∃ n,run (system ⟨[],0⟩).step (start oneNode 0) routedRun=some n ∧
    (n.center.bucketTriggersMap.keys=[str "b_h",str "b"]) ∧
    ∀ b,n.center.bucketTriggersMap.getD b []≠[] → Routable ⟨[],0⟩ (n.replica (str "10.0.0.1")) b := by
  have hcomputed : ((run (system ⟨[],0⟩).step (start oneNode 0) routedRun).map fun n =>
      decide (n.link (str "10.0.0.1")=[] ∧ n.center.bucketTriggersMap.keys=[str "b_h",str "b"] ∧
        ∀ b∈n.center.bucketTriggersMap.keys,
          (∀ t∈n.center.bucketTriggersMap.getD b [],t.getType=.byTime) →
          ∃ req∈operations routedRun,Names b req))=some true := by decide +kernel
  obtain ⟨n,hn,hlink,hkeys,hnamed⟩ := exists_of_decided hcomputed
  refine ⟨n,hn,hkeys,(triggers_routable_iff (by decide +kernel) hn (by decide +kernel) hlink).mpr
    fun b hb htime => hnamed b ?_ htime⟩
  refine UMap.contains_iff_mem_keys.mp ?_
  by_contra hmissing
  refine hb ?_
  rw [UMap.getD,Option.not_isSome_iff_eq_none.mp hmissing]
  rfl

/-- A time trigger is added to a new bucket. -/
def timeTriggerRun : List (Event Address Request ℤ) :=
  [bucketRequest .createBucket,
    .op (.trigger ⟨.addTrigger,str "app",str "b",str "t",0,.byTime,⟨str "f",[],10,0⟩,[],[],[]⟩ 0),
    .deliver (str "10.0.0.1") 0]

/-- All updates are delivered, but the worker has no route for the bucket and
reports no object of it. -/
theorem time_trigger_not_routed : ∃ n,
    run (system ⟨[],0⟩).step (start oneNode 0) timeTriggerRun=some n ∧
    n.link (str "10.0.0.1")=[] ∧
    (n.center.bucketTriggersMap.getD (str "b") []).map Trigger.getType=[.byTime] ∧
    (n.replica (str "10.0.0.1")).bucketCoordMap.contains (str "b")=false ∧
    ∀ cfg st key session activeTriggers respAddress payload,st.tables=n.replica (str "10.0.0.1") →
      notifyPut cfg st ⟨str "b",key,session⟩ activeTriggers respAddress payload=st := by
  have hcomputed : ((run (system ⟨[],0⟩).step (start oneNode 0) timeTriggerRun).map fun n =>
      decide (n.link (str "10.0.0.1")=[] ∧
        (n.center.bucketTriggersMap.getD (str "b") []).map Trigger.getType=[.byTime] ∧
        (n.replica (str "10.0.0.1")).bucketCoordMap.contains (str "b")=false))=some true := by
    decide +kernel
  obtain ⟨n,hn,hlink,htype,hmissing⟩ := exists_of_decided hcomputed
  refine ⟨n,hn,hlink,htype,hmissing,fun cfg st key session activeTriggers respAddress payload hw => ?_⟩
  have hnone : st.tables.bucketCoordMap.find? (str "b")=none := by
    rw [hw]
    exact Option.isNone_iff_eq_none.mp (Option.isSome_eq_false_iff.mp hmissing)
  rw [notifyPut,hnone]

end Pheromone.BucketRoutes
