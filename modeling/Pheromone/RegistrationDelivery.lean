import Pheromone.CoordinatorOps
import Pheromone.WorkerUpdates

/-!
# What a registration brings to a worker

What the message of a registration holds, and what a worker knows after it:
triggers and applications of buckets, and direct targets of functions.
-/

namespace Pheromone.RegistrationDelivery

open UnorderedContainers CommonNames TriggerPrimitives OperationMessages CoordinatorNotify
open WorkerUpdates CoordinatorOps

/-- What the workers are told about a dependency that is not direct. -/
def Announces (now : ℤ) (dep : DataDependency) (entity : TriggerEntity) : Prop :=
  ∃ tgt t,dep.tgtFunctions.head?=some tgt ∧ dependencyTrigger now tgt dep=some t ∧
    entity=dependencyEntity (dependencyBucket tgt) t

variable {app : Str} {now : ℤ} {deps : List DataDependency}

/-- Direct dependencies are passed on, the others announced, both in order. -/
theorem foldlM_registerDependency_message {r r' : CoordState×List DataDependency×List TriggerEntity}
    (h : deps.foldlM (registerDependency app now) r=some r') :
    r'.2.1=r.2.1++deps.filter (fun d => decide (d.type=.direct)) ∧
      ∃ entities,r'.2.2=r.2.2++entities ∧
        List.Forall₂ (Announces now) (deps.filter fun d => decide (d.type≠.direct)) entities := by
  induction deps generalizing r with
  | nil =>
    cases h
    exact ⟨by simp,[],by simp,List.Forall₂.nil⟩
  | cons dep deps ih =>
    rw [List.foldlM_cons] at h
    obtain ⟨u,hu,hrest⟩ := Option.bind_eq_some_iff.mp h
    obtain ⟨hdirect,entities,hentities,hall⟩ := ih hrest
    unfold registerDependency at hu
    split at hu
    · rename_i hd
      cases hu
      refine ⟨?_,entities,hentities,?_⟩
      · simp [hdirect,hd]
      · simpa [hd] using hall
    · rename_i hd
      obtain ⟨tgt,htgt,hu⟩ := Option.bind_eq_some_iff.mp hu
      obtain ⟨t,ht,hu⟩ := Option.bind_eq_some_iff.mp hu
      cases hu
      refine ⟨?_,dependencyEntity (dependencyBucket tgt) t::entities,?_,?_⟩
      · simp [hdirect,hd]
      · simp [hentities]
      · rw [List.filter_cons_of_pos (by simpa using hd)]
        exact List.Forall₂.cons ⟨tgt,t,htgt,ht,rfl⟩ hall

/-- The update message of a registration. -/
structure Announcement (now : ℤ) (reg : AppRegistration) (msg : UpdateCoordMsg) : Prop where
  msgType : msg.msgType=0
  appName : msg.appName=reg.appName
  functions : msg.functions=reg.functions
  /-- The message passes on the direct dependencies. -/
  dependencies : msg.dependencies=reg.dependencies.filter fun d => decide (d.type=.direct)
  triggers : List.Forall₂ (Announces now)
    (reg.dependencies.filter fun d => decide (d.type≠.direct)) msg.triggers

variable {reg : AppRegistration} {msg : UpdateCoordMsg}

theorem announcement_of_mem {self : CoordIdentity} {st st' : CoordState} {out : List CoordOut}
    {node : Address} (h : appRegisterHandler self now st reg=some (st',out))
    (hm : .update node msg∈out) : Announcement now reg msg := by
  obtain ⟨r,hr,hout⟩ := Option.bind_eq_some_iff.mp h
  obtain ⟨hdirect,entities,hentities,hall⟩ := foldlM_registerDependency_message hr
  cases hout
  obtain ⟨e,-,he⟩ := List.mem_map.mp hm
  cases he
  have hlist : r.2.2=entities := by simpa using hentities
  refine ⟨rfl,rfl,rfl,?_,?_⟩
  · simpa using hdirect
  · rw [hlist]
    exact hall

variable {entities : List TriggerEntity}

/-- Only what is announced for a target concerns its bucket. -/
theorem flatMap_addedTo_target (h : List.Forall₂ (Announces now) deps entities) (recv : ℤ)
    (tgt : Str) :
    ∃ own,List.Forall₂ (Announces now)
        (deps.filter fun d => decide (d.tgtFunctions.head?=some tgt)) own ∧
      entities.flatMap (addedTo recv (dependencyBucket tgt))=
        own.flatMap (addedTo recv (dependencyBucket tgt)) := by
  induction h with
  | nil => exact ⟨[],List.Forall₂.nil,rfl⟩
  | @cons dep entity deps entities hhead _ ih =>
    obtain ⟨own,hown,hflat⟩ := ih
    obtain ⟨tgt',t,htgt,ht,hentity⟩ := id hhead
    by_cases he : tgt'=tgt
    · refine ⟨entity::own,?_,?_⟩
      · rw [List.filter_cons_of_pos (by simp [htgt,he])]
        exact List.Forall₂.cons hhead hown
      · rw [List.flatMap_cons,List.flatMap_cons,hflat]
    · refine ⟨own,?_,?_⟩
      · rw [List.filter_cons_of_neg (by simp [htgt,he])]
        exact hown
      · have hname : entity.bucketName=dependencyBucket tgt' := by
          rw [hentity,dependencyEntity.eq_def]
          split
          · rfl
          · split <;> rfl
        have hne : entity.bucketName≠dependencyBucket tgt := by
          rw [hname]
          intro hb
          exact he (List.append_cancel_left hb)
        rw [List.flatMap_cons,addedTo,if_neg hne,hflat]
        rfl

/-- Key under which a source of a join produces. -/
def sourceKey (func : Str) : Key := str "k_"++func

theorem sourceKey_injective : Function.Injective sourceKey :=
  fun _ _ h => List.append_cancel_left h

/-- The trigger of a join. -/
def joinTrigger (tgt : Str) (srcs : List Str) : Trigger :=
  ⟨tgt,dependencyTriggerName "1" tgt,0,.bySet ⟨USet.ofList (srcs.map sourceKey),∅,∅,∅⟩⟩

variable {dep : DataDependency} {entity : TriggerEntity} {tgt : Str}

/-- A join is announced with its trigger, and the worker's copy is a fresh one. -/
theorem addedTo_join (h : Announces now dep entity) (htype : dep.type=.manyToOne)
    (htgt : dep.tgtFunctions.head?=some tgt) (recv : ℤ) :
    addedTo recv (dependencyBucket tgt) entity=[joinTrigger tgt dep.srcFunctions] := by
  obtain ⟨tgt',t,htgt',ht,rfl⟩ := h
  cases htgt.symm.trans htgt'
  have hjoin : dependencyTrigger now tgt dep=some (some (joinTrigger tgt dep.srcFunctions)) := by
    unfold dependencyTrigger
    rw [htype]
    rfl
  cases hjoin.symm.trans ht
  have hset : USet.ofList (USet.ofList (dep.srcFunctions.map sourceKey)).elems=
      USet.ofList (dep.srcFunctions.map sourceKey) := USet.ofList_elems _
  have hbucket : (dependencyEntity (dependencyBucket tgt)
    (some (joinTrigger tgt dep.srcFunctions))).bucketName=dependencyBucket tgt := rfl
  rw [addedTo,if_pos hbucket]
  show [(⟨tgt,dependencyTriggerName "1" tgt,0,.bySet
    ⟨USet.ofList (USet.ofList (dep.srcFunctions.map sourceKey)).elems,∅,∅,∅⟩⟩ : Trigger)]=_
  rw [hset]
  rfl

variable {w v : WorkerTables}

/-- No application lets a function start others directly. -/
def Undirected (func : Str) (w : WorkerTables) : Prop :=
  ∀ app,(w.appInfoMap.getD app .unset).directDeps.find? func=none

variable {func : Str}

/-- The entry of one application is replaced. -/
theorem undirected_setApp {info : AppInfo} (h : Undirected func w)
    (hinfo : info.directDeps.find? func=none) (hm : v.appInfoMap=w.appInfoMap.set app info) :
    Undirected func v := by
  intro a
  rw [hm,UMap.getD_set]
  split
  · exact hinfo
  · exact h a

theorem undirected_addFunction (h : Undirected func w) (other : Str) :
    Undirected func (addFunction app w other) := by
  have hinfo : ({w.appInfoMap.getD app .unset with
      functions := (w.appInfoMap.getD app .unset).functions.insert other} : AppInfo).directDeps.find?
        func=none := h app
  exact undirected_setApp h hinfo rfl

theorem undirected_addTarget {src : Str} (h : Undirected func w) (hs : func≠src) (tgt : Str) :
    Undirected func (addTarget app src w tgt) := by
  refine undirected_setApp h ?_ rfl
  rw [UMap.find?_set_of_ne _ hs]
  exact h app

theorem undirected_addTrigger (h : Undirected func w) (now : ℤ) (coord : HandlerThread)
    (entity : TriggerEntity) : Undirected func (addTrigger now app coord w entity) := by
  have hmap : (addTrigger now app coord w entity).appInfoMap=w.appInfoMap.set app
      {w.appInfoMap.getD app .unset with
        buckets := (w.appInfoMap.getD app .unset).buckets++[entity.bucketName]} := by
    unfold addTrigger
    dsimp only
    split <;> rfl
  have hinfo : ({w.appInfoMap.getD app .unset with
      buckets := (w.appInfoMap.getD app .unset).buckets++[entity.bucketName]} : AppInfo).directDeps.find?
        func=none := h app
  exact undirected_setApp h hinfo hmap

/-- An added trigger gives its bucket to the application. -/
theorem addTrigger_bucketAppMap (now : ℤ) (app : Str) (coord : HandlerThread) (w : WorkerTables)
    (entity : TriggerEntity) :
    (addTrigger now app coord w entity).bucketAppMap=w.bucketAppMap.set entity.bucketName app := by
  unfold addTrigger
  dsimp only
  split <;> rfl

/-- A message gives all its buckets to the application. -/
theorem foldl_addTrigger_bucketAppMap {coord : HandlerThread} {bucket : Bucket}
    (h : (∃ entity∈entities,entity.bucketName=bucket) ∨ w.bucketAppMap.getD bucket []=app) :
    (entities.foldl (addTrigger now app coord) w).bucketAppMap.getD bucket []=app := by
  induction entities generalizing w with
  | nil => exact h.resolve_left fun ⟨_,hm,_⟩ => absurd hm List.not_mem_nil
  | cons entity entities ih =>
    apply ih
    rw [addTrigger_bucketAppMap,UMap.getD_set]
    by_cases he : bucket=entity.bucketName
    · exact Or.inr (if_pos he)
    · rw [if_neg he]
      rcases h with ⟨e,hm,hb⟩|h
      · rcases List.mem_cons.mp hm with rfl|hm
        · exact absurd hb.symm he
        · exact Or.inl ⟨e,hm,hb⟩
      · exact Or.inr h

/-- A worker without hints for re-execution. -/
def Hintless (w : WorkerTables) : Prop := ∀ func,w.funcTriggerTimeoutMap.getD func []=[]

theorem hintless_addTrigger {coord : HandlerThread} (h : Hintless w) (hints : entity.hints=[]) :
    Hintless (addTrigger now app coord w entity) := by
  unfold addTrigger
  dsimp only
  split
  · exact h
  · rw [hints]
    exact h

theorem announces_hints (h : Announces now dep entity) : entity.hints=[] := by
  obtain ⟨tgt,t,-,-,rfl⟩ := h
  unfold dependencyEntity
  split
  · rfl
  · split <;> rfl

theorem announces_of_mem (h : List.Forall₂ (Announces now) deps entities) (he : entity∈entities) :
    ∃ dep,Announces now dep entity := by
  induction h with
  | nil => cases he
  | @cons dep head deps entities hhead _ ih =>
    rcases List.mem_cons.mp he with rfl|he
    · exact ⟨dep,hhead⟩
    · exact ih he

/-- What a new worker knows about a join after the registration. -/
structure Delivered (app tgt : Str) (srcs : List Str) (w : WorkerTables) : Prop where
  /-- The bucket of the target has the trigger of the join and no other. -/
  triggers : w.bucketTriggers (dependencyBucket tgt)=[joinTrigger tgt srcs]
  /-- The bucket belongs to the application. -/
  owner : w.bucketAppMap.getD (dependencyBucket tgt) []=app
  /-- The sources start nothing directly. -/
  undirected : ∀ func∈srcs,Undirected func w
  hintless : Hintless w

/-- Exactly one dependency with a target needs a bucket, it is a join, and
its sources have no direct dependencies. -/
structure SoleJoin (reg : AppRegistration) (tgt : Str) (srcs : List Str) : Prop where
  sole : ∃ dep,(reg.dependencies.filter fun d =>
      decide (d.type≠.direct ∧ d.tgtFunctions.head?=some tgt))=[dep] ∧
    dep.type=.manyToOne ∧ dep.tgtFunctions.head?=some tgt ∧ dep.srcFunctions=srcs
  indirect : ∀ d∈reg.dependencies,d.type=.direct → ∀ func∈srcs,func∉d.srcFunctions

theorem SoleJoin.own {srcs : List Str} (h : SoleJoin reg tgt srcs) (hmsg : Announcement now reg msg)
    (recv : ℤ) :
    msg.triggers.flatMap (addedTo recv (dependencyBucket tgt))=[joinTrigger tgt srcs] := by
  obtain ⟨dep,hsole,htype,htgt,hsrcs⟩ := h.sole
  obtain ⟨own,hown,hflat⟩ := flatMap_addedTo_target hmsg.triggers recv tgt
  have hfilter : ((reg.dependencies.filter fun d => decide (d.type≠.direct)).filter
      fun d => decide (d.tgtFunctions.head?=some tgt))=[dep] := by
    rw [List.filter_filter,←hsole]
    congr 1
    funext d
    simp [Bool.and_comm]
  rw [hfilter] at hown
  obtain ⟨entity,rest,hentity,hrest,rfl⟩ := List.forall₂_cons_left_iff.mp hown
  cases hrest
  rw [hflat,List.flatMap_cons,addedTo_join hentity htype htgt,hsrcs]
  rfl

theorem delivered_of_announcement {srcs : List Str} (h : SoleJoin reg tgt srcs) {recv : ℤ}
    (hmsg : Announcement now reg msg) (hw : recvUpdate recv .start msg=some w) :
    Delivered reg.appName tgt srcs w := by
  have hadd : addUpdate recv .start msg=some w := by
    rwa [recvUpdate,if_pos hmsg.msgType] at hw
  have htriggers := addUpdate_bucketTriggers hadd (dependencyBucket tgt)
  rw [h.own hmsg recv] at htriggers
  refine ⟨htriggers,?_,fun func hf => ?_,?_⟩
  · obtain ⟨u,-,hv⟩ := Option.bind_eq_some_iff.mp hadd
    rw [←Option.some.inj hv,hmsg.appName]
    apply foldl_addTrigger_bucketAppMap
    left
    have hmem : joinTrigger tgt srcs∈msg.triggers.flatMap (addedTo recv (dependencyBucket tgt)) := by
      rw [h.own hmsg recv]
      exact List.mem_singleton_self _
    obtain ⟨entity,hentity,ht⟩ := List.mem_flatMap.mp hmem
    refine ⟨entity,hentity,?_⟩
    by_contra hb
    rw [addedTo,if_neg hb] at ht
    cases ht
  · refine addUpdate_invariant (I:=Undirected func) (fun w other _ hw => ?_)
      (fun w dep hdep htype src hsrc tgt _ hw => ?_)
      (fun w entity _ hw => undirected_addTrigger hw _ _ entity) (fun _ => rfl) hadd
    · exact undirected_addFunction hw other
    · rw [hmsg.dependencies] at hdep
      have hindirect := h.indirect dep (List.mem_filter.mp hdep).1 htype func hf
      exact undirected_addTarget hw (fun he => hindirect (he ▸ List.mem_of_mem_head? hsrc)) tgt
  · refine addUpdate_invariant (I:=Hintless) (fun _ _ _ hw => hw)
      (fun _ _ _ _ _ _ _ _ hw => hw) (fun w entity he hw => ?_) (fun _ => rfl) hadd
    obtain ⟨dep,hdep⟩ := announces_of_mem hmsg.triggers he
    exact hintless_addTrigger hw (announces_hints hdep)

end Pheromone.RegistrationDelivery
