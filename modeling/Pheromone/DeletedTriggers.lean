import Pheromone.TriggerTables

/-!
# Deletions that reach the workers

The coordinator deletes all triggers of a name, a worker the first, and does
not look for the end of its list.
-/

namespace Pheromone.DeletedTriggers

open UnorderedContainers GuardedRuns BroadcastReplicas CommonNames TriggerPrimitives
open OperationMessages CoordinatorNotify CoordinatorOps WorkerUpdates TriggerTables

/-- A deletion that finds a trigger finds one that the workers have a copy of. -/
def Deletable (st : CoordState) : Request → Prop
  | .trigger req _ => req.operationType=.deleteTrigger →
      st.bucketAppMap.contains req.bucketName=true →
      (∃ t∈st.bucketTriggersMap.getD req.bucketName [],t.triggerName=req.triggerName) →
      req.triggerName≠[] ∧ ∃ t∈replicated st req.bucketName,t.triggerName=req.triggerName
  | _ => True

instance (st : CoordState) (req : Request) : Decidable (Deletable st req) :=
  match req with
  | .trigger _ _ => inferInstanceAs (Decidable (_ → _ → _ → _ ∧ _))
  | .register _ _ | .bucket _ => inferInstanceAs (Decidable True)

/-- A worker whose next update deletes a trigger has one of that name, and its
search succeeds. -/
def DeletesSafely (n : Net Address CoordState WorkerTables UpdateCoordMsg) (node : Address) : Prop :=
  ∀ msg rest,n.link node=msg::rest → msg.msgType=2 →
    (∀ entity∈msg.triggers,∃ t∈(n.replica node).bucketTriggers entity.bucketName,
      t.triggerName=entity.triggerName) ∧
    ∀ now,(recvUpdate now (n.replica node) msg).isSome

/-- How many triggers of a name there are. -/
def named (name : Str) (l : List Description) : ℕ :=
  l.countP fun d => decide (d.triggerName=name)

theorem named_append (name : Str) (l l' : List Description) :
    named name (l++l')=named name l+named name l' := List.countP_append

variable {name : Str}

theorem named_pos {l : List Description} : 0<named name l ↔ ∃ d∈l,d.triggerName=name := by
  simp only [named,List.countP_pos_iff,decide_eq_true_eq]

/-- The view has a copy of every trigger that workers have copies of. -/
def Covers (v : Bucket → List Description) (st : CoordState) : Prop :=
  ∀ b name,name≠[] → named name (coordView st b)≤named name (v b)

/-- A deleting message has one entity, and finds a trigger of its name. -/
def Finds (v : Bucket → List Description) (msg : UpdateCoordMsg) : Prop :=
  msg.msgType=2 → ∃ entity,msg.triggers=[entity] ∧
    ∃ d∈v entity.bucketName,d.triggerName=entity.triggerName

variable {v : Bucket → List Description}

variable {msg : UpdateCoordMsg}

theorem finds_of_add (h : msg.msgType=0) : Finds v msg := by
  intro htype
  rw [h] at htype
  exact absurd htype (by decide)

variable {st : CoordState}

variable {st' : CoordState}

/-- A message that adds what the coordinator has added. -/
theorem covers_add (h : Covers v st) (htype : msg.msgType=0)
    (hadd : ∀ b name,name≠[] → named name (coordView st' b)≤
      named name (coordView st b)+named name (msg.triggers.flatMap (addedView b))) :
    Covers (act v msg) st' := by
  intro b name hname
  have hold := h b name hname
  have hnew := hadd b name hname
  rw [act_add htype,named_append]
  omega

variable {name' : Str}

/-- Deleting a name leaves the other names alone. -/
theorem named_eraseP (hne : name'≠name) (l : List Description) :
    named name' (l.eraseP fun d => decide (d.triggerName=name))=named name' l := by
  induction l with
  | nil => rfl
  | cons d l ih =>
    by_cases hd : d.triggerName=name
    · rw [List.eraseP_cons_of_pos (p:=fun d : Description => decide (d.triggerName=name)) (decide_eq_true hd)]
      refine (List.countP_cons_of_neg ?_).symm
      rw [hd]
      exact fun hc => hne (of_decide_eq_true hc).symm
    · rw [List.eraseP_cons_of_neg (p:=fun d : Description => decide (d.triggerName=name))
        fun hc => hd (of_decide_eq_true hc)]
      show named name' ([d]++_)=named name' ([d]++l)
      rw [named_append,named_append,ih]

theorem named_dropped (l : List Trigger) :
    named name' ((l.filter fun t => decide (t.triggerName≠name)).map describe)≤
      if name'=name then 0 else named name' (l.map describe) := by
  split
  · rename_i he
    refine Nat.le_of_eq (List.countP_eq_zero.mpr fun d hd hname => ?_)
    obtain ⟨t,ht,rfl⟩ := List.mem_map.mp hd
    have hkept := of_decide_eq_true (List.mem_filter.mp ht).2
    exact hkept ((of_decide_eq_true hname).trans he)
  · exact (List.filter_sublist.map describe).countP_le

/-- The message of a request from the coordinator thread. -/
def updateMsg (self : CoordIdentity) (req : TriggerOperationRequest) (r : TriggerOperation) :
    UpdateCoordMsg :=
  ⟨self.privateIp,self.threadId,req.appName,[],[],r.triggers,r.msgType⟩

variable {req : TriggerOperationRequest}

variable {now : ℤ} {r : TriggerOperation}

theorem addTriggerOp_covers (h : addTriggerOp now st req=some r) :
    r.msgType=0 ∧ ∀ b name,name≠[] → named name (coordView r.st b)≤
      named name (coordView st b)+named name (r.triggers.flatMap (addedView b)) := by
  by_cases hnamed : req.triggerName≠[] ∨ req.primitiveType=.byTime
  · obtain ⟨-,htype,hview⟩ := addTriggerOp_view h hnamed
    refine ⟨htype,fun b name _ => ?_⟩
    rw [hview b,named_append]
  · obtain ⟨t,ht,he⟩ := Option.bind_eq_some_iff.mp h
    rw [←Option.some.inj he]
    refine ⟨rfl,fun b name hname => ?_⟩
    have hnil : t.triggerName=[] := by
      rw [(genTriggerPointer_eq_some ht).2]
      exact not_not.mp fun hc => hnamed (Or.inl hc)
    dsimp only
    rw [coordView_pushTrigger,named_append]
    refine Nat.add_le_add_left ?_ _
    refine (Nat.le_of_eq (List.countP_eq_zero.mpr fun d hd hdn => ?_)).trans (Nat.zero_le _)
    split at hd
    · rw [List.mem_singleton.mp hd] at hdn
      exact hname ((of_decide_eq_true hdn).symm.trans hnil)
    · cases hd

theorem deleteTriggerOp_covers (self : CoordIdentity)
    (hdelete : (∃ t∈st.bucketTriggersMap.getD req.bucketName [],t.triggerName=req.triggerName) →
      req.triggerName≠[] ∧ ∃ t∈replicated st req.bucketName,t.triggerName=req.triggerName)
    (hv : Covers v st) :
    Finds v (updateMsg self req (deleteTriggerOp st req)) ∧
      Covers (act v (updateMsg self req (deleteTriggerOp st req))) (deleteTriggerOp st req).st := by
  have hdropped : ∀ b name,named name (coordView {st with
      bucketTriggersMap := st.bucketTriggersMap.set req.bucketName
        ((st.bucketTriggersMap.getD req.bucketName []).filter fun t =>
          decide (t.triggerName≠req.triggerName))} b)≤
      if req.bucketName=b ∧ name=req.triggerName then 0 else named name (coordView st b) := by
    intro b name
    rw [coordView_dropNamed]
    by_cases hb : req.bucketName=b
    · rw [if_pos hb]
      simp only [hb,true_and]
      exact named_dropped _
    · rw [if_neg hb,if_neg fun hc => hb hc.1]
  unfold deleteTriggerOp
  dsimp only
  split
  · rename_i hfound
    obtain ⟨hname,t,ht,htn⟩ := hdelete hfound
    refine ⟨fun _ => ⟨_,rfl,?_⟩,fun b name hne => ?_⟩
    · refine named_pos.mp (lt_of_lt_of_le ?_ (hv req.bucketName req.triggerName hname))
      exact named_pos.mpr ⟨describe t,List.mem_map_of_mem ht,htn⟩
    · refine (hdropped b name).trans ?_
      rw [act_delete rfl rfl]
      split
      · exact Nat.zero_le _
      · rename_i hother
        split
        · rename_i hb
          rw [named_eraseP fun he => hother ⟨hb,he⟩]
          exact hv b name hne
        · exact hv b name hne
  · refine ⟨finds_of_add rfl,covers_add hv rfl fun b name hne => ?_⟩
    refine (hdropped b name).trans ?_
    split
    · exact Nat.zero_le _
    · exact Nat.le_add_right _ _

theorem triggerOp_covers (h : triggerOp now st req=some r) (hok : Deletable st (.trigger req now))
    (self : CoordIdentity) (hv : Covers v st) :
    Finds v (updateMsg self req r) ∧ Covers (act v (updateMsg self req r)) r.st := by
  have hidle : ∀ error,Finds v (updateMsg self req ⟨st,error,0,[]⟩) ∧
      Covers (act v (updateMsg self req ⟨st,error,0,[]⟩)) st :=
    fun error => ⟨finds_of_add rfl,covers_add hv rfl fun b name _ => Nat.le_add_right _ _⟩
  unfold triggerOp at h
  split at h
  · split at h
    · obtain ⟨htype,hadd⟩ := addTriggerOp_covers h
      exact ⟨finds_of_add htype,covers_add hv htype hadd⟩
    · exact Option.some.inj h ▸ hidle _
  · rename_i hop
    split at h
    · rename_i hc
      exact Option.some.inj h ▸ deleteTriggerOp_covers self (hok hop hc) hv
    · exact Option.some.inj h ▸ hidle _
  · exact Option.some.inj h ▸ hidle _

theorem bucketOpHandler_covers (st : CoordState) (req : BucketOperationRequest) (hv : Covers v st) :
    updatesOf (bucketOpHandler st req).2=[] ∧ Covers v (bucketOpHandler st req).1 := by
  unfold bucketOpHandler
  dsimp only
  split
  · split <;> exact ⟨rfl,hv⟩
  · split
    · refine ⟨rfl,fun b name hne => ?_⟩
      unfold coordView replicated
      dsimp only
      rw [UMap.getD_erase]
      split
      · exact Nat.zero_le _
      · exact hv b name hne
    · exact ⟨rfl,hv⟩
  · exact ⟨rfl,hv⟩

variable {node : Address}

/-- The messages of a request find what they delete, and leave the workers
with copies of everything. -/
theorem operate_covers {self : CoordIdentity} {req : Request} {msgs : List (Address×UpdateCoordMsg)}
    (hok : Deletable st req) (h : (system self).operate st req=some (st',msgs))
    (hnode : st'.nodeStatusMap.contains node=true) (hv : Covers v st) :
    System.Fits act Finds v (addressed node msgs) ∧
      Covers ((addressed node msgs).foldl act v) st' := by
  cases req with
  | register reg now =>
    obtain ⟨out,hh,rfl⟩ := operate_register h
    obtain ⟨r,hr,hs⟩ := Option.bind_eq_some_iff.mp hh
    obtain ⟨-,new,hnew,hview⟩ := foldlM_registerDependency_view hr
    obtain ⟨rfl,rfl⟩ := Prod.mk.inj (Option.some.inj hs)
    rw [addressed_broadcast hnode,List.foldl_cons,List.foldl_nil]
    refine ⟨⟨finds_of_add rfl,trivial⟩,covers_add hv (by rfl) fun b name _ => ?_⟩
    dsimp only
    rw [hview b,named_append,hnew,List.nil_append]
  | bucket req =>
    obtain ⟨rfl,rfl⟩ := operate_bucket h
    obtain ⟨hsent,hcovers⟩ := bucketOpHandler_covers st req hv
    rw [hsent]
    exact ⟨trivial,hcovers⟩
  | trigger req now =>
    obtain ⟨r,hr,rfl,hsent⟩ := operate_trigger h
    obtain ⟨hfinds,hcovers⟩ := triggerOp_covers hr hok self hv
    rw [hsent node hnode]
    exact ⟨⟨hfinds,trivial⟩,hcovers⟩

/-- A worker that holds a trigger of the name finds it. -/
theorem deletesSafely_of_finds {n : Net Address CoordState WorkerTables UpdateCoordMsg}
    (h : System.Fits act Finds (workerView (n.replica node)) (n.link node)) :
    DeletesSafely n node := by
  intro msg rest hlink htype
  rw [hlink] at h
  obtain ⟨entity,hone,d,hd,hname⟩ := h.1 htype
  obtain ⟨t,ht,rfl⟩ := List.mem_map.mp hd
  refine ⟨fun e he => ?_,fun now => ?_⟩
  · rw [hone] at he
    rw [List.mem_singleton.mp he]
    exact ⟨t,ht,hname⟩
  · obtain ⟨p,hp,rfl⟩ := List.mem_map.mp ht
    have hfound : ∃ q,((n.replica node).bucketTriggersMap.getD entity.bucketName []).find?
        (fun p => decide (p.trigger.triggerName=entity.triggerName))=some q := by
      rw [←Option.isSome_iff_exists,List.find?_isSome]
      exact ⟨p,hp,decide_eq_true hname⟩
    obtain ⟨q,hq⟩ := hfound
    rw [recvUpdate,if_neg (by rw [htype]; decide),if_neg (by rw [htype]; decide),if_pos htype,hone,
      List.foldlM_cons,deleteEntity,hq]
    rfl

/-- In every run whose deletions all meet the condition, whenever a worker
handles a deletion it has a trigger of that name, and its search ends there. -/
theorem deletions_find_trigger {self : CoordIdentity} {nodes : UMap Address NodeStatus} {seed : UInt32}
    {l : List (Event Address Request ℤ)}
    (hok : StepsMeet (system self).step (fun n e => ∀ req,e=.op req → Deletable n.center req)
      (start nodes seed) l) :
    AllStates (system self).step
      (fun n => ∀ node,nodes.contains node=true → DeletesSafely n node) (start nodes seed) l := by
  let inv (n : Net Address CoordState WorkerTables UpdateCoordMsg) : Prop :=
    n.center.nodeStatusMap=nodes ∧ System.Follows workerView act Finds Covers
      (fun st i => st.nodeStatusMap.contains i=true) n
  have hgood : ∀ n,inv n → ∀ node,nodes.contains node=true → DeletesSafely n node := by
    intro n hn node hnode
    have hmember : n.center.nodeStatusMap.contains node=true := by
      rw [hn.1]
      exact hnode
    exact deletesSafely_of_finds (hn.2 node hmember).1
  have hstep : ∀ n e n',inv n → (∀ req,e=.op req → Deletable n.center req) →
      (system self).step n e=some n' → inv n' := by
    intro n e n' hn hreq h
    refine ⟨?_,System.follows_step (system self) (fun c o c' msgs ho hc i hi => ?_)
      (fun _ _ _ _ hrecv => recvUpdate_view hrecv) hn.2 hreq h⟩
    · obtain ⟨req,c,msgs,-,ho,rfl⟩|⟨i,d,m,rest,s,-,-,-,rfl⟩ := (system self).step_cases h
      · exact (operate_nodes ho).trans hn.1
      · exact hn.1
    · exact ⟨operate_nodes hc ▸ hi,fun v hv => operate_covers ho hc hi hv⟩
  refine allStates_of_stepsMeet hgood hstep ⟨rfl,fun i _ => ⟨trivial,fun b name _ => ?_⟩⟩ hok
  exact Nat.le_refl _

/-- A join is registered, and its trigger is deleted after an update. -/
def joinDeletedRun : List (Event Address Request ℤ) :=
  [.op (.register ⟨str "app",[],[⟨.manyToOne,[str "f"],[str "h"],[]⟩]⟩ 0),
    .deliver (str "10.0.0.1") 0,
    .op (.trigger ⟨.deleteTrigger,str "app",str "b_h",str "t_1_h",0,.bySet,⟨[],[],0,0⟩,[],[],[]⟩ 0)]

theorem deletions_find_join : ∃ n msg,
    run (system ⟨[],0⟩).step (start oneNode 0) joinDeletedRun=some n ∧
    n.link (str "10.0.0.1")=[msg] ∧ msg.msgType=2 ∧ DeletesSafely n (str "10.0.0.1") := by
  have hcomputed : ((run (system ⟨[],0⟩).step (start oneNode 0) joinDeletedRun).map fun n =>
      decide ((n.link (str "10.0.0.1")).map UpdateCoordMsg.msgType=[2]))=some true := by decide +kernel
  obtain ⟨n,hn,htypes⟩ := exists_of_decided hcomputed
  obtain ⟨msg,hlink,htype⟩ := List.map_eq_singleton_iff.mp htypes
  have hok : StepsMeet (system ⟨[],0⟩).step (fun n e => ∀ req,e=.op req → Deletable n.center req)
      (start oneNode 0) joinDeletedRun := by decide +kernel
  refine ⟨n,msg,hn,hlink,htype,?_⟩
  exact allStates_last (deletions_find_trigger hok) hn (str "10.0.0.1") (by decide +kernel)

/-- A periodic dependency is registered, and its time trigger is deleted. -/
def periodicDeletedRun : List (Event Address Request ℤ) :=
  [.op (.register ⟨str "app",[],[⟨.periodic,[],[str "h"],str "10"⟩]⟩ 0),
    .deliver (str "10.0.0.1") 0,
    .op (.trigger ⟨.deleteTrigger,str "app",str "b_h",str "t_3_h",0,.byTime,⟨[],[],0,0⟩,[],[],[]⟩ 0)]

/-- The worker is told to delete a trigger that it does not have, and its
search runs past the end of the list. -/
theorem periodic_deletion_fails : ∃ n msg,
    run (system ⟨[],0⟩).step (start oneNode 0) periodicDeletedRun=some n ∧
    n.link (str "10.0.0.1")=[msg] ∧ msg.msgType=2 ∧
    (n.replica (str "10.0.0.1")).bucketTriggers (str "b_h")=[] ∧
    recvUpdate 0 (n.replica (str "10.0.0.1")) msg=none := by
  have hcomputed : ((run (system ⟨[],0⟩).step (start oneNode 0) periodicDeletedRun).map fun n =>
      decide ((n.link (str "10.0.0.1")).map (fun msg =>
          (msg.msgType,recvUpdate 0 (n.replica (str "10.0.0.1")) msg))=[(2,none)] ∧
        (n.replica (str "10.0.0.1")).bucketTriggers (str "b_h")=[]))=some true := by decide +kernel
  obtain ⟨n,hn,hmsgs,hnone⟩ := exists_of_decided hcomputed
  obtain ⟨msg,hlink,hmsg⟩ := List.map_eq_singleton_iff.mp hmsgs
  obtain ⟨htype,hfails⟩ := Prod.mk.inj hmsg
  exact ⟨n,msg,hn,hlink,htype,hnone,hfails⟩

end Pheromone.DeletedTriggers
