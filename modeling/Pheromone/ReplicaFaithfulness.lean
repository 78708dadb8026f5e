import Pheromone.ReactiveMachines
import Pheromone.SingleWorkerLockstep
import Pheromone.CoordinatorOps

/-!
# Copies behave like the triggers they were made from

A worker's copy is built from the serialized trigger. It answers every
sequence of calls like the trigger, up to the order of keys and groups.
-/

namespace Pheromone.ReplicaFaithfulness

open UnorderedContainers ReactiveMachines CommonNames TriggerPrimitives OperationMessages
open CoordinatorOps SingleWorkerLockstep

/-- A call on a trigger; the clock is read at an arrival. -/
inductive TriggerCall where
  | arrive (now : ℤ) (bk : BucketKey)
  | clear (session : Session)

/-- The trigger after a call, and the actions it returns. -/
def answer (t : Trigger) : TriggerCall → Trigger×List TriggerAction
  | .arrive now bk => t.actionForNewObject now bk
  | .clear session => (t.clear session,[])

/-- The same function is started with the same objects. -/
structure SameAction (a b : TriggerAction) : Prop where
  function : a.function=b.function
  /-- Objects agree up to their order. -/
  sessionKeys : a.sessionKeys.Perm b.sessionKeys

/-- The same actions, up to their order. -/
def SameActions (l l' : List TriggerAction) : Prop := ∃ m,l.Perm m ∧ List.Forall₂ SameAction m l'

theorem SameAction.refl (a : TriggerAction) : SameAction a a := ⟨rfl,.refl _⟩

theorem SameActions.refl (l : List TriggerAction) : SameActions l l :=
  ⟨l,.refl l,List.forall₂_same.mpr fun a _ => .refl a⟩

theorem SameActions.single {a b : TriggerAction} (h : SameAction a b) : SameActions [a] [b] :=
  ⟨[a],.refl _,.cons h .nil⟩

/-- The same members; a time trigger also has the same last reading. -/
def SameMembers (a b : TriggerState) : Prop := SameState a b ∨ ∃ t,a=.byTime t ∧ b=.byTime t

theorem bySet_sameActions {a b : BySetTrigger} (hk : ∀ k,k∈a.keySet ↔ k∈b.keySet)
    (hs : SameSets a.sessionPreparedKeysMap b.sessionPreparedKeysMap) (target : Str)
    (bk : BucketKey) :
    SameActions (a.actionForNewObject target bk).2 (b.actionForNewObject target bk).2 := by
  have hprep : ∀ k,k∈(a.sessionPreparedKeysMap.getD bk.session ∅).insert bk.key ↔
      k∈(b.sessionPreparedKeysMap.getD bk.session ∅).insert bk.key := by
    intro k
    rw [USet.mem_insert,USet.mem_insert,(hs bk.session).2]
  simp only [BySetTrigger.actionForNewObject,hk,USet.size_eq_of_mem_iff hprep,
    USet.size_eq_of_mem_iff hk]
  split
  · split
    · exact .single ⟨rfl,(USet.perm_of_mem_iff hk).map _⟩
    · exact .refl _
  · exact .refl _

theorem dynamicGroup_sameActions {a b : DynamicGroupTrigger}
    (hd : SameSets a.dataGroupKeysMap b.dataGroupKeysMap)
    (hg : ∀ k,k∈a.controlGroup ↔ k∈b.controlGroup)
    (hc : ∀ k,k∈a.curControlKeys ↔ k∈b.curControlKeys) (target : Str) (bk : BucketKey) :
    SameActions (a.actionForNewObject target bk).2 (b.actionForNewObject target bk).2 := by
  simp only [DynamicGroupTrigger.actionForNewObject,hg]
  generalize hca : (if bk.key∈b.controlGroup then a.curControlKeys.insert bk.key
    else a.curControlKeys)=ca
  generalize hcb : (if bk.key∈b.controlGroup then b.curControlKeys.insert bk.key
    else b.curControlKeys)=cb
  have hctl : ∀ k,k∈ca ↔ k∈cb := by
    intro k
    rw [←hca,←hcb]
    split
    · rw [USet.mem_insert,USet.mem_insert,hc]
    · exact hc k
  rw [USet.size_eq_of_mem_iff hctl,USet.size_eq_of_mem_iff hg]
  split
  · split
    · obtain ⟨l,hperm,hl⟩ := hd.entries
      refine ⟨_,hperm.map _,?_⟩
      rw [List.forall₂_map_left_iff,List.forall₂_map_right_iff]
      exact hl.imp fun e e' he => ⟨rfl,(USet.perm_of_mem_iff he.2).map _⟩
    · exact .refl _
  · exact .refl _

/-- Same states answer an arrival with the same actions. -/
theorem sameActions_of_sameState {a b : TriggerState} (h : SameState a b) (target : Str)
    (now : ℤ) (bk : BucketKey) :
    SameActions (a.actionForNewObject target now bk).2 (b.actionForNewObject target now bk).2 := by
  cases a with
  | immediate a =>
    cases b with
    | immediate b => exact .refl _
    | _ => exact h.elim
  | byName a =>
    cases b with
    | byName b =>
      have hkey : a.keyName=b.keyName := h
      simp only [TriggerState.actionForNewObject,ByNameTrigger.actionForNewObject,hkey]
      exact .refl _
    | _ => exact h.elim
  | byBatchSize a =>
    cases b with
    | byBatchSize b =>
      obtain ⟨hcount,hbuffer⟩ := h
      have hthreshold : a.threshold=b.threshold := by
        rw [ByBatchSizeTrigger.threshold,hcount]
        rfl
      simp only [TriggerState.actionForNewObject,ByBatchSizeTrigger.actionForNewObject,hbuffer,
        hthreshold]
      split <;> exact .refl _
    | _ => exact h.elim
  | bySet a =>
    cases b with
    | bySet b => exact bySet_sameActions h.1 h.2 target bk
    | _ => exact h.elim
  | dynamicGroup a =>
    cases b with
    | dynamicGroup b => exact dynamicGroup_sameActions h.1 h.2.1 h.2.2 target bk
    | _ => exact h.elim
  | redundant a =>
    cases b with
    | redundant b =>
      obtain rfl : a=b := h
      exact .refl _
    | _ => exact h.elim
  | byTime a => cases b <;> exact h.elim

/-- A clear keeps the members the same. -/
theorem sameState_clear {a b : TriggerState} (h : SameState a b) (session : Session) :
    SameState (a.clear session) (b.clear session) := by
  cases a with
  | immediate a =>
    cases b with
    | immediate b => trivial
    | _ => exact h.elim
  | byName a =>
    cases b with
    | byName b => exact h
    | _ => exact h.elim
  | byBatchSize a =>
    cases b with
    | byBatchSize b => exact ⟨h.1,rfl⟩
    | _ => exact h.elim
  | bySet a =>
    cases b with
    | bySet b => exact ⟨h.1,h.2.erase session⟩
    | _ => exact h.elim
  | dynamicGroup a =>
    cases b with
    | dynamicGroup b => exact ⟨SameSets.refl _,h.2.1,fun _ => Iff.rfl⟩
    | _ => exact h.elim
  | redundant a =>
    cases b with
    | redundant b =>
      obtain rfl : a=b := h
      exact (rfl : a.clear=a.clear)
    | _ => exact h.elim
  | byTime a => cases b <;> exact h.elim

/-- Triggers for the same function with the same members. -/
structure Alike (W T : Trigger) : Prop where
  target : W.targetFunction=T.targetFunction
  members : SameMembers W.state T.state

/-- Triggers that are alike stay alike and answer with the same actions. -/
theorem alike_bisimulation : Bisimulation answer answer Alike SameActions where
  states W T c h := by
    cases c with
    | arrive now bk =>
      refine ⟨h.target,?_⟩
      show SameMembers (W.state.actionForNewObject W.targetFunction now bk).1
        (T.state.actionForNewObject T.targetFunction now bk).1
      rw [h.target]
      rcases h.members with hs|⟨t,hW,hT⟩
      · exact Or.inl (hs.stepsAlike T.targetFunction now now bk).1
      · rw [hW,hT]
        exact Or.inr ⟨_,rfl,rfl⟩
    | clear session =>
      refine ⟨h.target,?_⟩
      show SameMembers (W.state.clear session) (T.state.clear session)
      rcases h.members with hs|⟨t,hW,hT⟩
      · exact Or.inl (sameState_clear hs session)
      · rw [hW,hT]
        exact Or.inr ⟨_,rfl,rfl⟩
  answers W T c h := by
    cases c with
    | arrive now bk =>
      show SameActions (W.state.actionForNewObject W.targetFunction now bk).2
        (T.state.actionForNewObject T.targetFunction now bk).2
      rw [h.target]
      rcases h.members with hs|⟨t,hW,hT⟩
      · exact sameActions_of_sameState hs T.targetFunction now bk
      · rw [hW,hT]
        exact .refl _
    | clear session => exact .refl _

/-- The same primitive, up to the order of its keys. -/
structure SamePrimitive (p q : PrimitiveFields) : Prop where
  function : p.function=q.function
  /-- Texts agree up to their order. -/
  texts : p.texts.Perm q.texts
  number : p.number=q.number
  total : p.total=q.total

/-- A trigger as the coordinator constructs it at some time: from a request,
or for a dependency. -/
inductive Constructed (now : ℤ) : Trigger → Prop
  | parsed {t : Trigger} (type : PrimitiveType) (name : Str) (p : PrimitiveFields) (option : ℤ)
    (h : genTriggerPointer type name p now=some t) : Constructed now (t.setTriggerOption option)
  | dependency {t : Trigger} (tgt : Str) (dep : DataDependency)
    (h : dependencyTrigger now tgt dep=some (some t)) : Constructed now t

/-- A new trigger: nothing has arrived. -/
def New (now : ℤ) : TriggerState → Prop
  | .immediate s => s=⟨∅⟩
  | .byName s => s=⟨s.keyName,∅⟩
  | .byBatchSize s => s=⟨s.count,[],∅⟩
  | .bySet s => s=⟨s.keySet,∅,∅,∅⟩
  | .dynamicGroup s => s=⟨∅,s.controlGroup,∅⟩
  | .redundant s => s=⟨s.k,s.n,0,[]⟩
  | .byTime s => s=⟨s.timeWindow,[],now⟩

theorem Constructed.new {now : ℤ} {T : Trigger} (h : Constructed now T) : New now T.state := by
  cases h with
  | parsed type name p option h =>
    obtain ⟨s,hs,rfl⟩ := Option.map_eq_some_iff.mp h
    show New now s
    cases type <;> first | (cases hs; rfl) | cases hs
  | dependency tgt dep h =>
    unfold dependencyTrigger at h
    split at h
    · cases h
      rfl
    · simp only [Option.bind_eq_bind,Option.bind_eq_some_iff] at h
      obtain ⟨-,-,k,-,-,-,n,-,he⟩ := h
      cases he
      rfl
    · simp only [Option.bind_eq_bind,Option.bind_eq_some_iff] at h
      obtain ⟨window,-,he⟩ := h
      cases he
      rfl
    · cases h

/-- The copy of a new trigger, from its configuration with the keys in any
order. -/
theorem copy_alike {now now' : ℤ} {T : Trigger} (hT : New now T.state) {p : PrimitiveFields}
    (hp : SamePrimitive p T.dumpPritimive) (hclock : T.getType=.byTime → now'=now) :
    ∃ R,genTriggerPointer T.getType T.triggerName p now'=some R ∧ Alike R T ∧
      SamePrimitive R.dumpPritimive T.dumpPritimive ∧ R.getType=T.getType ∧
      R.triggerName=T.triggerName := by
  obtain ⟨target,name,option,state⟩ := T
  obtain ⟨function,texts,number,total⟩ := p
  obtain ⟨hfunction,htexts,hnumber,htotal⟩ := hp
  cases state with
  | immediate s =>
    exact ⟨_,rfl,⟨hfunction,Or.inl trivial⟩,⟨hfunction,.refl _,rfl,rfl⟩,rfl,rfl⟩
  | byName s =>
    have hkey : texts=[s.keyName] := List.perm_singleton.mp htexts
    subst hkey
    exact ⟨_,rfl,⟨hfunction,Or.inl rfl⟩,⟨hfunction,.refl _,rfl,rfl⟩,rfl,rfl⟩
  | byBatchSize s =>
    have hcount : number.toInt32=s.count := by
      rw [show number=s.count.toUInt32 from hnumber]
      exact Int32.toInt32_toUInt32 _
    have hbuffer : s.buffer=[] := congrArg ByBatchSizeTrigger.buffer hT
    refine ⟨_,rfl,⟨hfunction,Or.inl ⟨hcount,hbuffer.symm⟩⟩,⟨hfunction,.refl _,?_,rfl⟩,rfl,rfl⟩
    exact congrArg Int32.toUInt32 hcount
  | bySet s =>
    have hmem : ∀ k,k∈USet.ofList texts ↔ k∈s.keySet := fun k => by
      rw [USet.mem_ofList]
      exact htexts.mem_iff
    have hprepared : s.sessionPreparedKeysMap=∅ := congrArg BySetTrigger.sessionPreparedKeysMap hT
    refine ⟨_,rfl,⟨hfunction,Or.inl ⟨hmem,?_⟩⟩,⟨hfunction,USet.perm_of_mem_iff hmem,rfl,rfl⟩,rfl,rfl⟩
    rw [hprepared]
    exact SameSets.refl _
  | dynamicGroup s =>
    have hmem : ∀ k,k∈USet.ofList texts ↔ k∈s.controlGroup := fun k => by
      rw [USet.mem_ofList]
      exact htexts.mem_iff
    have hdata : s.dataGroupKeysMap=∅ := congrArg DynamicGroupTrigger.dataGroupKeysMap hT
    have hcontrol : s.curControlKeys=∅ := congrArg DynamicGroupTrigger.curControlKeys hT
    refine ⟨_,rfl,⟨hfunction,Or.inl ⟨?_,hmem,?_⟩⟩,⟨hfunction,USet.perm_of_mem_iff hmem,rfl,rfl⟩,
      rfl,rfl⟩
    · rw [hdata]
      exact SameSets.refl _
    · rw [hcontrol]
      exact fun _ => Iff.rfl
  | redundant s =>
    have hk : number=s.k := hnumber
    have hn : total=s.n := htotal
    subst hk hn
    exact ⟨_,rfl,⟨hfunction,Or.inl hT.symm⟩,⟨hfunction,.refl _,rfl,rfl⟩,rfl,rfl⟩
  | byTime s =>
    have hwindow : number=s.timeWindow := hnumber
    subst hwindow
    obtain rfl := hclock rfl
    refine ⟨_,rfl,⟨hfunction,Or.inr ⟨s,?_,rfl⟩⟩,⟨hfunction,.refl _,rfl,rfl⟩,rfl,rfl⟩
    exact congrArg TriggerState.byTime hT.symm

/-- Options and hints do not concern the actions. -/
theorem alike_setup {R T : Trigger} (h : Alike R T) (option : ℤ) (hints : List RerunMetadata) :
    Alike ((R.setTriggerOption option).setRerunMetadata hints) T := by
  obtain ⟨target,name,o,state⟩ := R
  cases state with
  | bySet s =>
    refine ⟨h.target,h.members.imp (fun hs => ?_) fun ⟨t,ht,_⟩ => by cases ht⟩
    show SameState (.bySet _) T.state
    have hs' : SameState (.bySet s) T.state := hs
    cases T with
    | mk target' name' o' state' =>
      cases state' with
      | bySet s' => exact hs'
      | _ => exact hs'.elim
  | _ => exact ⟨h.target,h.members⟩

/-- A copy answers every sequence of calls as the new trigger does. -/
theorem replica_faithful (now now' : ℤ) (T : Trigger) (hT : Constructed now T) (p : PrimitiveFields)
    (hp : SamePrimitive p T.dumpPritimive) (hclock : T.getType=.byTime → now'=now) :
    ∃ R,genTriggerPointer T.getType T.triggerName p now'=some R ∧
      (∀ option hints calls,List.Forall₂ SameActions
        (outputs answer ((R.setTriggerOption option).setRerunMetadata hints) calls)
        (outputs answer T calls)) ∧
      SamePrimitive R.dumpPritimive T.dumpPritimive ∧ R.getType=T.getType ∧
      R.triggerName=T.triggerName := by
  obtain ⟨R,hR,halike,hdump,htype,hname⟩ := copy_alike hT.new hp hclock
  refine ⟨R,hR,fun option hints calls => ?_,hdump,htype,hname⟩
  exact alike_bisimulation.outputs (alike_setup halike option hints) calls

/-- The trigger of a join of two functions. -/
def joinTrigger : Trigger :=
  ⟨str "h",dependencyTriggerName "1" (str "h"),0,
    .bySet ⟨USet.ofList [str "k_f",str "k_g"],∅,∅,∅⟩⟩

/-- The keys arrive in the other order. -/
theorem replica_faithful_join : ∃ R,
    genTriggerPointer .bySet joinTrigger.triggerName ⟨str "h",[str "k_g",str "k_f"],0,0⟩ 7=some R ∧
      outputs answer joinTrigger [.arrive 0 ⟨str "b_h",str "k_f",str "s"⟩,
        .arrive 0 ⟨str "b_h",str "k_g",str "s"⟩]=
          [[],[⟨str "h",[(str "s",str "k_f"),(str "s",str "k_g")]⟩]] ∧
      ∀ option hints calls,List.Forall₂ SameActions
        (outputs answer ((R.setTriggerOption option).setRerunMetadata hints) calls)
        (outputs answer joinTrigger calls) := by
  have hconstructed : Constructed 0 joinTrigger :=
    .dependency (str "h") ⟨.manyToOne,[str "f",str "g"],[str "h"],[]⟩ rfl
  have hp : SamePrimitive ⟨str "h",[str "k_g",str "k_f"],0,0⟩ joinTrigger.dumpPritimive :=
    ⟨rfl,by decide,rfl,rfl⟩
  obtain ⟨R,hR,hcalls,-⟩ := replica_faithful 0 7 joinTrigger hconstructed _ hp nofun
  exact ⟨R,hR,by decide +kernel,hcalls⟩

end Pheromone.ReplicaFaithfulness
