import Pheromone.BucketNetwork

/-!
# With one worker the coordinator's triggers follow in lockstep

With one worker both sides see the same objects in the same order, and the
coordinator skips all its triggers produce. Time triggers are left out.
-/

namespace Pheromone.SingleWorkerLockstep

open UnorderedContainers GuardedRuns CommonNames TriggerPrimitives BucketNetwork

/-- The same members of a trigger class, apart from the re-execution
bookkeeping and whatever the iteration orders. -/
def SameState : TriggerState → TriggerState → Prop
  | .immediate _,.immediate _ => True
  | .byName a,.byName b => a.keyName=b.keyName
  | .byBatchSize a,.byBatchSize b => a.count=b.count ∧ a.buffer=b.buffer
  | .bySet a,.bySet b => (∀ k,k∈a.keySet ↔ k∈b.keySet) ∧
      SameSets a.sessionPreparedKeysMap b.sessionPreparedKeysMap
  | .dynamicGroup a,.dynamicGroup b => SameSets a.dataGroupKeysMap b.dataGroupKeysMap ∧
      (∀ k,k∈a.controlGroup ↔ k∈b.controlGroup) ∧ (∀ k,k∈a.curControlKeys ↔ k∈b.curControlKeys)
  | .redundant a,.redundant b => a=b
  | _,_ => False

/-- The same replica of one trigger. -/
structure SameReplica (W T : Trigger) : Prop where
  target : W.targetFunction=T.targetFunction
  name : W.triggerName=T.triggerName
  option : W.triggerOption=T.triggerOption
  state : SameState W.state T.state

/-- Same states make the same step, and both or neither fire. -/
def StepsAlike (a b : TriggerState×List TriggerAction) : Prop :=
  SameState a.1 b.1 ∧ (a.2=[] ↔ b.2=[])

theorem byBatchSize_stepsAlike {a b : ByBatchSizeTrigger} (h : a.count=b.count ∧ a.buffer=b.buffer)
    (target : Str) (now now' : ℤ) (bk : BucketKey) :
    StepsAlike ((TriggerState.byBatchSize a).actionForNewObject target now bk)
      ((TriggerState.byBatchSize b).actionForNewObject target now' bk) := by
  obtain ⟨count,buffer,cache⟩ := a
  obtain ⟨_,_,cache'⟩ := b
  obtain ⟨rfl,rfl⟩ := h
  simp only [TriggerState.actionForNewObject,ByBatchSizeTrigger.actionForNewObject]
  by_cases hf : (buffer++[(bk.session,bk.key)]).length≥
      ByBatchSizeTrigger.threshold ⟨count,buffer,cache⟩
  · have hf' : (buffer++[(bk.session,bk.key)]).length≥
        ByBatchSizeTrigger.threshold ⟨count,buffer,cache'⟩ := hf
    simp only [if_pos hf,if_pos hf']
    exact ⟨⟨rfl,rfl⟩,by simp⟩
  · have hf' : ¬(buffer++[(bk.session,bk.key)]).length≥
        ByBatchSizeTrigger.threshold ⟨count,buffer,cache'⟩ := hf
    simp only [if_neg hf,if_neg hf']
    exact ⟨⟨rfl,rfl⟩,Iff.rfl⟩

theorem bySet_stepsAlike {a b : BySetTrigger} (hk : ∀ k,k∈a.keySet ↔ k∈b.keySet)
    (hs : SameSets a.sessionPreparedKeysMap b.sessionPreparedKeysMap) (target : Str)
    (now now' : ℤ) (bk : BucketKey) :
    StepsAlike ((TriggerState.bySet a).actionForNewObject target now bk)
      ((TriggerState.bySet b).actionForNewObject target now' bk) := by
  simp only [TriggerState.actionForNewObject,BySetTrigger.actionForNewObject,hk]
  have hprep : ∀ k,k∈(a.sessionPreparedKeysMap.getD bk.session ∅).insert bk.key ↔
      k∈(b.sessionPreparedKeysMap.getD bk.session ∅).insert bk.key := by
    intro k
    rw [USet.mem_insert,USet.mem_insert,(hs bk.session).2]
  rw [USet.size_eq_of_mem_iff hprep,USet.size_eq_of_mem_iff hk]
  by_cases hm : bk.key∈b.keySet
  · by_cases hf : ((b.sessionPreparedKeysMap.getD bk.session ∅).insert bk.key).size=b.keySet.size
    · simp only [if_pos hm,if_pos hf]
      exact ⟨⟨hk,(hs.set bk.session hprep).erase bk.session⟩,by simp⟩
    · simp only [if_pos hm,if_neg hf]
      exact ⟨⟨hk,hs.set bk.session hprep⟩,Iff.rfl⟩
  · simp only [if_neg hm]
    exact ⟨⟨hk,hs⟩,Iff.rfl⟩

theorem dynamicGroup_stepsAlike {a b : DynamicGroupTrigger}
    (hd : SameSets a.dataGroupKeysMap b.dataGroupKeysMap)
    (hg : ∀ k,k∈a.controlGroup ↔ k∈b.controlGroup)
    (hc : ∀ k,k∈a.curControlKeys ↔ k∈b.curControlKeys) (target : Str) (now now' : ℤ)
    (bk : BucketKey) :
    StepsAlike ((TriggerState.dynamicGroup a).actionForNewObject target now bk)
      ((TriggerState.dynamicGroup b).actionForNewObject target now' bk) := by
  simp only [TriggerState.actionForNewObject,DynamicGroupTrigger.actionForNewObject,hg]
  generalize hca : (if bk.key∈b.controlGroup then a.curControlKeys.insert bk.key
    else a.curControlKeys)=ca
  generalize hcb : (if bk.key∈b.controlGroup then b.curControlKeys.insert bk.key
    else b.curControlKeys)=cb
  have hctl : ∀ k,k∈ca ↔ k∈cb := by
    intro k
    rw [←hca,←hcb]
    split
    · rw [USet.mem_insert,USet.mem_insert,hc]
    · exact hc k
  rw [USet.size_eq_of_mem_iff hctl,USet.size_eq_of_mem_iff hg]
  by_cases hgrp : groupOf bk.key=controlGroupPrefix
  · by_cases hf : cb.size=b.controlGroup.size
    · simp only [if_pos hgrp,if_pos hf]
      refine ⟨⟨SameSets.refl _,hg,fun _ => Iff.rfl⟩,?_⟩
      rw [List.map_eq_nil_iff,List.map_eq_nil_iff]
      exact hd.entries_eq_nil_iff
    · simp only [if_pos hgrp,if_neg hf]
      exact ⟨⟨hd,hg,hctl⟩,Iff.rfl⟩
  · simp only [if_neg hgrp]
    refine ⟨⟨hd.set _ fun k => ?_,hg,hc⟩,Iff.rfl⟩
    rw [USet.mem_insert,USet.mem_insert,(hd _).2]

variable {a b : TriggerState}

/-- Same states of any replicated class step alike, at whatever times. -/
theorem SameState.stepsAlike (h : SameState a b) (target : Str) (now now' : ℤ) (bk : BucketKey) :
    StepsAlike (a.actionForNewObject target now bk) (b.actionForNewObject target now' bk) := by
  cases a with
  | immediate a =>
    cases b with
    | immediate b => exact ⟨trivial,by simp [TriggerState.actionForNewObject,
        ImmediateTrigger.actionForNewObject]⟩
    | _ => exact h.elim
  | byName a =>
    cases b with
    | byName b =>
      refine ⟨h,?_⟩
      simp only [TriggerState.actionForNewObject,ByNameTrigger.actionForNewObject]
      rw [show a.keyName=b.keyName from h]
    | _ => exact h.elim
  | byBatchSize a =>
    cases b with
    | byBatchSize b => exact byBatchSize_stepsAlike h target now now' bk
    | _ => exact h.elim
  | bySet a =>
    cases b with
    | bySet b => exact bySet_stepsAlike h.1 h.2 target now now' bk
    | _ => exact h.elim
  | dynamicGroup a =>
    cases b with
    | dynamicGroup b => exact dynamicGroup_stepsAlike h.1 h.2.1 h.2.2 target now now' bk
    | _ => exact h.elim
  | redundant a =>
    cases b with
    | redundant b =>
      obtain rfl : a=b := h
      refine ⟨?_,Iff.rfl⟩
      exact (rfl : (RedundantTrigger.actionForNewObject target a bk).1=_)
    | _ => exact h.elim
  | byTime a => cases b <;> exact h.elim

theorem SameState.symm (h : SameState a b) : SameState b a := by
  cases a <;> cases b <;> first | exact h.elim | skip
  · trivial
  · exact Eq.symm h
  · exact ⟨h.1.symm,h.2.symm⟩
  · exact ⟨fun k => (h.1 k).symm,h.2.symm⟩
  · exact ⟨h.1.symm,fun k => (h.2.1 k).symm,fun k => (h.2.2 k).symm⟩
  · exact Eq.symm h

theorem SameState.trans {c : TriggerState} (h : SameState a b) (h' : SameState b c) :
    SameState a c := by
  cases a <;> cases b <;> first | exact h.elim | skip
  all_goals cases c <;> first | exact h'.elim | skip
  · trivial
  · exact Eq.trans h h'
  · exact ⟨h.1.trans h'.1,h.2.trans h'.2⟩
  · exact ⟨fun k => (h.1 k).trans (h'.1 k),h.2.trans h'.2⟩
  · exact ⟨h.1.trans h'.1,fun k => (h.2.1 k).trans (h'.2.1 k),fun k => (h.2.2 k).trans (h'.2.2 k)⟩
  · exact Eq.trans h h'

variable {T W : Trigger}

theorem SameReplica.symm (h : SameReplica W T) : SameReplica T W :=
  ⟨h.target.symm,h.name.symm,h.option.symm,h.state.symm⟩

theorem SameReplica.trans {U : Trigger} (h : SameReplica U W) (h' : SameReplica W T) :
    SameReplica U T :=
  ⟨h.target.trans h'.target,h.name.trans h'.name,h.option.trans h'.option,h.state.trans h'.state⟩

/-- An arrival keeps replicas the same; both or neither fire. -/
theorem SameReplica.arrive (h : SameReplica W T) (now now' : ℤ) (bk : BucketKey) :
    SameReplica (W.actionForNewObject now bk).1 (T.actionForNewObject now' bk).1 ∧
      ((W.actionForNewObject now bk).2=[] ↔ (T.actionForNewObject now' bk).2=[]) := by
  have hs := h.state.stepsAlike T.targetFunction now now' bk
  simp only [Trigger.actionForNewObject,h.target]
  exact ⟨⟨rfl,h.name,h.option,hs.1⟩,hs.2⟩

theorem SameReplica.note (h : SameReplica W T) (call : TriggerFunctionMetadata) (session : Session) :
    SameReplica (W.notifySourceFunc call session) T := by
  refine ⟨h.target,h.name,h.option,?_⟩
  have hs := h.state
  simp only [Trigger.notifySourceFunc]
  generalize W.state=a at hs ⊢
  generalize T.state=b at hs ⊢
  cases a <;> cases b <;> first | exact hs.elim | skip
  · trivial
  · exact hs
  · exact hs
  · simp only [TriggerState.notifySourceFunc,BySetTrigger.notifySourceFunc]
    split <;> exact hs
  · exact hs
  · exact hs

/-- A replicated trigger in the state in which it is created. -/
def Fresh (T : Trigger) : Prop :=
  match T.state with
  | .immediate _ => True
  | .byName _ => True
  | .byBatchSize s => s.buffer=[]
  | .bySet s => s.sessionPreparedKeysMap=∅
  | .dynamicGroup s => s.dataGroupKeysMap=∅ ∧ s.curControlKeys=∅
  | .redundant s => s.count=0 ∧ s.buffer=[]
  | .byTime _ => False

/-- The worker's copy of a fresh trigger: generated from the serialized one,
with the same option and with any re-execution hints. -/
def CopyOf (W T : Trigger) : Prop :=
  Fresh T ∧ ∃ now hints,(genTriggerPointer T.getType T.triggerName T.dumpPritimive now).map
    (fun t => (t.setTriggerOption T.triggerOption).setRerunMetadata hints)=some W

theorem CopyOf.same (h : CopyOf W T) : SameReplica W T := by
  obtain ⟨hf,now,hints,hW⟩ := h
  obtain ⟨target,name,option,state⟩ := T
  cases state with
  | immediate s =>
    obtain rfl := Option.some.inj hW
    exact ⟨rfl,rfl,rfl,trivial⟩
  | byName s =>
    obtain rfl := Option.some.inj hW
    exact ⟨rfl,rfl,rfl,rfl⟩
  | byBatchSize s =>
    obtain rfl := Option.some.inj hW
    exact ⟨rfl,rfl,rfl,Int32.toInt32_toUInt32 _,Eq.symm hf⟩
  | bySet s =>
    obtain rfl := Option.some.inj hW
    refine ⟨rfl,rfl,rfl,fun k => ?_,?_⟩
    · exact USet.mem_ofList
    · rw [show s.sessionPreparedKeysMap=∅ from hf]
      exact SameSets.refl _
  | dynamicGroup s =>
    obtain rfl := Option.some.inj hW
    refine ⟨rfl,rfl,rfl,?_,fun k => USet.mem_ofList,?_⟩
    · rw [show s.dataGroupKeysMap=∅ from hf.1]
      exact SameSets.refl _
    · rw [show s.curControlKeys=∅ from hf.2]
      exact fun _ => Iff.rfl
  | redundant s =>
    obtain rfl := Option.some.inj hW
    obtain ⟨k,n,count,buffer⟩ := s
    obtain ⟨rfl,rfl⟩ := hf
    exact ⟨rfl,rfl,rfl,rfl⟩
  | byTime s => exact hf.elim

/-- The triggers after an arrival; the clock does not matter. -/
def advanced (triggers : List Trigger) (bk : BucketKey) : List Trigger :=
  (arrivals 0 triggers bk).map Prod.fst

/-- The triggers after a sequence of arrivals. -/
def afterPuts (triggers : List Trigger) (bks : List BucketKey) : List Trigger :=
  bks.foldl advanced triggers

/-- The active names cover every trigger that fires on the object. -/
def Covers (triggers : List Trigger) (msg : Notification) : Prop :=
  ∀ r∈arrivals 0 triggers msg.bucketKey,r.2≠[] → r.1.triggerName∈msg.activeTriggerNames

/-- Along a list of notifications, all active names cover what fires. -/
def AllCover : List Trigger → List Notification → Prop
  | _,[] => True
  | triggers,msg::rest => Covers triggers msg ∧ AllCover (advanced triggers msg.bucketKey) rest

variable {msg : Notification}

theorem allCover_append {triggers : List Trigger} {msgs : List Notification} :
    AllCover triggers (msgs++[msg]) ↔
      AllCover triggers msgs ∧ Covers (afterPuts triggers (msgs.map Notification.bucketKey)) msg := by
  induction msgs generalizing triggers with
  | nil => simp [AllCover,afterPuts]
  | cons m msgs ih =>
    rw [List.cons_append,AllCover,AllCover,ih,and_assoc]
    rfl

variable {ts ws : List Trigger}

theorem forall₂_arrivals (h : List.Forall₂ SameReplica ws ts) (now now' : ℤ) (bk : BucketKey) :
    List.Forall₂ (fun a b => SameReplica a.1 b.1 ∧ (a.2=[] ↔ b.2=[]))
      (arrivals now ws bk) (arrivals now' ts bk) := by
  rw [arrivals,arrivals,List.forall₂_map_left_iff,List.forall₂_map_right_iff]
  exact h.imp fun _ _ hr => hr.arrive now now' bk

theorem forall₂_advanced (h : List.Forall₂ SameReplica ws ts) (now : ℤ) (bk : BucketKey) :
    List.Forall₂ SameReplica ((arrivals now ws bk).map Prod.fst) (advanced ts bk) := by
  rw [advanced,List.forall₂_map_left_iff,List.forall₂_map_right_iff]
  exact (forall₂_arrivals h now 0 bk).imp fun _ _ hr => hr.1

/-- What fires on one side fires under the same name on the other. -/
theorem firedName_of_forall₂ {rs rs' : List (Trigger×List TriggerAction)}
    (h : List.Forall₂ (fun a b => SameReplica a.1 b.1 ∧ (a.2=[] ↔ b.2=[])) rs rs')
    {r : Trigger×List TriggerAction} (hr : r∈rs') (hne : r.2≠[]) :
    r.1.triggerName∈firedNames rs := by
  induction h with
  | nil => cases hr
  | @cons a b as bs hab _ ih =>
    rcases List.mem_cons.mp hr with rfl|hr
    · have ha : a.2≠[] := fun he => hne (hab.2.mp he)
      rw [firedNames,List.filter_cons_of_pos (by simpa using ha),List.map_cons,hab.1.name]
      exact List.mem_cons_self
    · have hm := ih hr
      unfold firedNames at hm ⊢
      by_cases ha : a.2=[]
      · rwa [List.filter_cons_of_neg (by simp [ha])]
      · rw [List.filter_cons_of_pos (by simp [ha]),List.map_cons]
        exact List.mem_cons_of_mem _ hm

/-- The reverse reading: covered names on the reference cover the replicas. -/
theorem Covers.replica (h : Covers ts msg) (hs : List.Forall₂ SameReplica ws ts) (now : ℤ) :
    ∀ r∈arrivals now ws msg.bucketKey,r.2≠[] → r.1.triggerName∈msg.activeTriggerNames := by
  intro r hr hne
  have hrev : List.Forall₂ (fun a b => SameReplica a.1 b.1 ∧ (a.2=[] ↔ b.2=[]))
      (arrivals 0 ts msg.bucketKey) (arrivals now ws msg.bucketKey) :=
    (forall₂_arrivals hs now 0 msg.bucketKey).flip.imp fun _ _ hp => ⟨hp.1.symm,hp.2.symm⟩
  obtain ⟨x,hx,hname⟩ := List.mem_map.mp (firedName_of_forall₂ hrev hr hne)
  obtain ⟨hx,hxne⟩ := List.mem_filter.mp hx
  rw [←hname]
  exact h x hx (by simpa using hxne)

/-- Replicas of the same triggers are replicas of each other. -/
theorem forall₂_of_common {us : List Trigger} (h : List.Forall₂ SameReplica ws ts)
    (h' : List.Forall₂ SameReplica us ts) : List.Forall₂ SameReplica ws us := by
  induction h generalizing us with
  | nil =>
    cases h'
    exact List.Forall₂.nil
  | cons hWT _ ih =>
    cases h' with
    | cons hUT hrest => exact List.Forall₂.cons (hWT.trans hUT.symm) (ih hrest)

theorem forall₂_modify (h : List.Forall₂ SameReplica ws ts) (index : ℕ) {f : Trigger → Trigger}
    (hf : ∀ {W T},SameReplica W T → SameReplica (f W) T) :
    List.Forall₂ SameReplica (ws.modify index f) ts := by
  induction h generalizing index with
  | nil => cases index <;> exact List.Forall₂.nil
  | cons hWT hrest ih =>
    cases index with
    | zero => exact List.Forall₂.cons (hf hWT) hrest
    | succ index => exact List.Forall₂.cons hWT (ih index)

/-- With one worker: both sides are what the installed triggers become under
the objects they have seen, and everything under way is covered. -/
structure Lockstep (installed : List Trigger) (n : BucketNet Unit) : Prop where
  /-- The worker has seen all puts. -/
  worker : List.Forall₂ SameReplica (n.workers ()) (afterPuts installed (n.puts.map Prod.snd))
  /-- The coordinator has seen those whose notifications are consumed. -/
  coord : ∃ done,n.puts.map Prod.snd=done++(n.notifications ()).map Notification.bucketKey ∧
    List.Forall₂ SameReplica n.coord (afterPuts installed done) ∧
      AllCover (afterPuts installed done) (n.notifications ())
  /-- No clear was ever sent. -/
  updates : n.updates ()=[]

theorem lockstep_start {copies coord : List Trigger} (h : List.Forall₂ CopyOf copies coord)
    (hc : List.Forall₂ SameReplica coord coord) :
    Lockstep coord (BucketNet.start (fun _ : Unit => copies) coord) :=
  ⟨h.imp fun _ _ hp => hp.same,⟨[],rfl,hc,trivial⟩,rfl⟩

variable {installed : List Trigger} {n : BucketNet Unit}

theorem lockstep_put (h : Lockstep installed n) (bk : BucketKey) (now : ℤ) :
    Lockstep installed (put n () bk now) := by
  obtain ⟨done,hdone,hcoord,hcover⟩ := h.coord
  have hsplit : afterPuts (afterPuts installed done) ((n.notifications ()).map Notification.bucketKey)=
      afterPuts installed (n.puts.map Prod.snd) := by
    rw [hdone,afterPuts,afterPuts,afterPuts,List.foldl_append]
  refine ⟨?_,⟨done,?_,hcoord,?_⟩,h.updates⟩
  · simp only [put,Function.update_self,List.map_append,List.map_cons,List.map_nil]
    rw [afterPuts,List.foldl_append]
    exact forall₂_advanced h.worker now bk
  · simp only [put,Function.update_self,List.map_append,List.map_cons,List.map_nil,hdone,
      List.append_assoc]
  · simp only [put,Function.update_self]
    refine allCover_append.mpr ⟨hcover,?_⟩
    intro r hr hne
    rw [hsplit] at hr
    exact firedName_of_forall₂ (forall₂_arrivals h.worker now 0 bk) hr hne

/-- What is covered is skipped: nothing is dispatched and nobody is cleared. -/
theorem skipped_of_covered {active : List Str} {results : List (Trigger×List TriggerAction)}
    (h : ∀ r∈results,r.2≠[] → r.1.triggerName∈active) :
    namedActions (unskipped active results)=[] ∧
      CoordinatorNotify.triggeredNames active results=[] := by
  constructor
  · rw [namedActions,List.flatMap_eq_nil_iff]
    intro r hr
    obtain ⟨hr,hact⟩ := List.mem_filter.mp hr
    by_cases hne : r.2=[]
    · rw [hne,List.map_nil]
    · exact absurd (h r hr hne) (by simpa using hact)
  · rw [CoordinatorNotify.triggeredNames,List.map_eq_nil_iff,List.filter_eq_nil_iff]
    intro r hr hp
    simp only [Bool.and_eq_true,decide_eq_true_eq,Bool.not_eq_true',List.isEmpty_eq_false_iff] at hp
    exact hp.1.1 (h r hr hp.1.2)

/-- What the coordinator's replicas produce on the next notification is
covered by its names. -/
theorem Lockstep.covered (h : Lockstep installed n) {rest : List Notification}
    (hu : n.notifications ()=msg::rest) (now : ℤ) :
    ∀ r∈arrivals now n.coord msg.bucketKey,r.2≠[] → r.1.triggerName∈msg.activeTriggerNames := by
  obtain ⟨done,-,hcoord,hcover⟩ := h.coord
  rw [hu] at hcover
  exact hcover.1.replica hcoord now

/-- A consumed notification keeps the lockstep and fires nothing. -/
theorem lockstep_notify (h : Lockstep installed n) {rest : List Notification}
    (hu : n.notifications ()=msg::rest) (now : ℤ) :
    Lockstep installed (notify n () msg rest now) ∧ (notify n () msg rest now).fired=n.fired := by
  obtain ⟨hnone,hnames⟩ := skipped_of_covered (h.covered hu now)
  obtain ⟨done,hdone,hcoord,hcover⟩ := h.coord
  rw [hu] at hdone hcover
  refine ⟨⟨h.worker,⟨done++[msg.bucketKey],?_,?_,?_⟩,?_⟩,?_⟩
  · simp only [notify,Function.update_self,hdone,List.map_cons,List.append_assoc,
      List.singleton_append]
  · rw [afterPuts,List.foldl_append]
    exact forall₂_advanced hcoord now msg.bucketKey
  · simp only [notify,Function.update_self]
    rw [afterPuts,List.foldl_append]
    exact hcover.2
  · simp only [notify,hnames,if_true]
    exact h.updates
  · simp only [notify,hnone,List.map_nil,List.append_nil]

variable {bucket : Bucket} {m : BucketNet Unit}

/-- Every step keeps the lockstep. -/
theorem lockstep_step {l : Label Unit} (h : Lockstep installed n) (hs : step bucket n l=some m) :
    Lockstep installed m := by
  obtain ⟨w,key,session,now,-,rfl⟩|⟨w,now,msg,rest,-,hu,rfl⟩|⟨w,msg,rest,-,hd,-⟩|
    ⟨w,index,call,session,-,rfl⟩ := step_cases hs
  · exact lockstep_put h _ now
  · exact (lockstep_notify h hu now).1
  · rw [h.updates] at hd
    cases hd
  · refine ⟨?_,h.coord,h.updates⟩
    simp only [noteSource,Function.update_self]
    exact forall₂_modify h.worker index fun hr => hr.note call session

/-- What the worker's replicas produce in a step. -/
def producedBy (bucket : Bucket) (n : BucketNet Unit) : Label Unit → List (Fired Unit)
  | .put w key session now =>
    (namedActions (arrivals now (n.workers w) ⟨bucket,key,session⟩)).map fun a => ⟨some w,a.1,a.2⟩
  | _ => []

/-- What the worker's replicas produce along a run. -/
def localActions (bucket : Bucket) : BucketNet Unit → List (Label Unit) → List (Fired Unit)
  | _,[] => []
  | n,a::l => producedBy bucket n a++((step bucket n a).elim [] fun m => localActions bucket m l)

/-- Number of consumed notifications. -/
def consumed (l : List (Label Unit)) : ℕ :=
  l.countP fun a => match a with
    | .notify _ _ => true
    | _ => false

variable {l : List (Label Unit)}

/-- In lockstep exactly the worker's actions are fired, each once. -/
theorem fired_of_lockstep (h : Lockstep installed n) (hr : run (step bucket) n l=some m) :
    m.fired=n.fired++localActions bucket n l := by
  induction l generalizing n with
  | nil => simp [localActions,←Option.some.inj hr]
  | cons a l ih =>
    obtain ⟨n',ha,hl⟩ := run_cons_eq_some.mp hr
    have hstep : n'.fired=n.fired++producedBy bucket n a := by
      obtain ⟨w,key,session,now,rfl,rfl⟩|⟨w,now,msg,rest,rfl,hu,rfl⟩|⟨w,msg,rest,rfl,hd,rfl⟩|
        ⟨w,index,call,session,rfl,rfl⟩ := step_cases ha
      · rfl
      · rw [(lockstep_notify h hu now).2]
        exact (List.append_nil _).symm
      · exact (List.append_nil _).symm
      · exact (List.append_nil _).symm
    rw [ih (lockstep_step h ha) hl,hstep,localActions,ha,Option.elim_some,List.append_assoc]

theorem puts_length {d : ℕ} (hr : run (step bucket) n l=some m)
    (hd : n.puts.length=(n.notifications ()).length+d) :
    m.puts.length=(m.notifications ()).length+(d+consumed l) := by
  induction l generalizing n d with
  | nil =>
    obtain rfl := Option.some.inj hr
    exact hd
  | cons a l ih =>
    obtain ⟨n',ha,hl⟩ := run_cons_eq_some.mp hr
    obtain ⟨w,key,session,now,rfl,rfl⟩|⟨w,now,msg,rest,rfl,hu,rfl⟩|⟨w,msg,rest,rfl,-,rfl⟩|
      ⟨w,index,call,session,rfl,rfl⟩ := step_cases ha
    · obtain rfl : w=() := rfl
      have hd' : (put n () ⟨bucket,key,session⟩ now).puts.length=
          ((put n () ⟨bucket,key,session⟩ now).notifications ()).length+d := by
        simp only [put,Function.update_self,List.length_append,List.length_singleton]
        omega
      exact ih hl hd'
    · have hd' : (notify n w msg rest now).puts.length=
          ((notify n w msg rest now).notifications ()).length+(d+1) := by
        rw [hu,List.length_cons] at hd
        simp only [notify,Function.update_self]
        omega
      rw [ih hl hd']
      simp only [consumed,List.countP_cons,if_true]
      omega
    · exact ih hl hd
    · exact ih hl hd

theorem puts_append (hr : run (step bucket) n l=some m) : ∃ more,m.puts=n.puts++more := by
  have hstep : ∀ s a s',(∃ more,s.puts=n.puts++more) → step bucket s a=some s' →
      ∃ more,s'.puts=n.puts++more := by
    rintro s a s' ⟨more,hmore⟩ ha
    obtain ⟨w,key,session,now,-,rfl⟩|⟨w,now,msg,rest,-,-,rfl⟩|⟨w,msg,rest,-,-,rfl⟩|
      ⟨w,index,call,session,-,rfl⟩ := step_cases ha
    · exact ⟨more++[(w,_)],by rw [←List.append_assoc,←hmore]; rfl⟩
    · exact ⟨more,hmore⟩
    · exact ⟨more,hmore⟩
    · exact ⟨more,hmore⟩
  exact run_invariant hstep ⟨[],(List.append_nil _).symm⟩ hr

/-- A trigger that can be copied is its own replica. -/
theorem CopyOf.refl_right (h : CopyOf W T) : SameReplica T T :=
  h.same.symm.trans h.same

/-- With one worker whose triggers are generated from the coordinator's
serialized ones before the first put, in every run: when as many notifications
are consumed as there were puts at some earlier moment, the coordinator's
replicas are what the worker's were at that moment; what the coordinator's
replicas produce on the next notification is skipped, since it carries the
names; no clear is ever sent; and the fired actions are exactly those that
the worker's replicas produced, each once. -/
theorem single_worker_lockstep (bucket : Bucket) {copies coord : List Trigger}
    (hcopy : List.Forall₂ CopyOf copies coord) (l : List (Label Unit)) {n : BucketNet Unit}
    (hr : run (step bucket) (BucketNet.start (fun _ => copies) coord) l=some n) :
    (∀ l₁ l₂ n₁,l=l₁++l₂ →
      run (step bucket) (BucketNet.start (fun _ => copies) coord) l₁=some n₁ →
      n₁.puts.length=consumed l → List.Forall₂ SameReplica (n₁.workers ()) n.coord) ∧
    (∀ now msg rest,n.notifications ()=msg::rest → ∀ r∈arrivals now n.coord msg.bucketKey,
      r.2≠[] → r.1.triggerName∈msg.activeTriggerNames) ∧
    n.updates ()=[] ∧
    n.fired=localActions bucket (BucketNet.start (fun _ => copies) coord) l := by
  have hself : List.Forall₂ SameReplica coord coord := by
    clear hr
    induction hcopy with
    | nil => exact List.Forall₂.nil
    | cons h _ ih => exact List.Forall₂.cons h.refl_right ih
  have hstart := lockstep_start hcopy hself
  have hn : Lockstep coord n := run_invariant (fun _ _ _ => lockstep_step) hstart hr
  refine ⟨?_,fun now msg rest hu => hn.covered hu now,hn.updates,fired_of_lockstep hstart hr⟩
  rintro l₁ l₂ n₁ rfl hr₁ hlen
  have hn₁ : Lockstep coord n₁ := run_invariant (fun _ _ _ => lockstep_step) hstart hr₁
  obtain ⟨done,hdone,hcoord,-⟩ := hn.coord
  obtain ⟨n',hr',hrest⟩ := run_append_eq_some.mp hr
  obtain rfl := Option.some.inj (hr₁.symm.trans hr')
  obtain ⟨more,hmore⟩ := puts_append hrest
  have hcount := puts_length hr (d:=0) rfl
  have hlen' := congrArg List.length hdone
  rw [List.length_map,List.length_append,List.length_map] at hlen'
  rw [hmore,List.map_append] at hdone
  obtain ⟨rfl,-⟩ := List.append_inj hdone (by rw [List.length_map]; omega)
  exact forall₂_of_common hn₁.worker hcoord

/-- A batch of two and a redundant trigger of one out of two. -/
def mixedTriggers : List Trigger :=
  [⟨str "sum",str "t",0,.byBatchSize ⟨2,[],∅⟩⟩,⟨str "first",str "r",1,.redundant ⟨1,2,0,[]⟩⟩]

/-- Two puts before the first notification is consumed. -/
def delayedRun : List (Label Unit) :=
  [.put () (str "x") (str "s") 5,.put () (str "y") (str "s") 6,.notify () 9,.notify () 9]

theorem single_worker_lockstep_delayed : ∃ n,
    run (step (str "b")) (BucketNet.start (fun _ => mixedTriggers) mixedTriggers) delayedRun=some n ∧
    n.updates ()=[] ∧
    n.fired=localActions (str "b") (BucketNet.start (fun _ => mixedTriggers) mixedTriggers)
      delayedRun ∧ n.fired.length=2 := by
  have hcopy : List.Forall₂ CopyOf mixedTriggers mixedTriggers :=
    List.Forall₂.cons ⟨rfl,0,[],rfl⟩ (List.Forall₂.cons ⟨⟨rfl,rfl⟩,0,[],rfl⟩ List.Forall₂.nil)
  have h := single_worker_lockstep (str "b") hcopy delayedRun rfl
  exact ⟨_,rfl,h.2.2.1,h.2.2.2,by decide⟩

end Pheromone.SingleWorkerLockstep
