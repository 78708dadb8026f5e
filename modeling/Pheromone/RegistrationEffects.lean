import Pheromone.CoordinatorOps
import Pheromone.WorkerUpdates

/-!
# What a registration does

A dependency is read as a target and, by its kind, a trigger; the maps after
a registration follow from the list of readings.
-/

namespace Pheromone.RegistrationEffects

open UnorderedContainers CommonNames TriggerPrimitives OperationMessages CoordinatorNotify
open CoordinatorOps

/-- A dependency as the handler reads it. -/
structure Reading where
  /-- Its target. -/
  tgt : Str
  /-- Its trigger, if its kind has one. -/
  trigger : Option Trigger

/-- The bucket of a reading. -/
def Reading.bucket (i : Reading) : Bucket := dependencyBucket i.tgt

/-- The handler reads the dependency so. -/
def Reads (now : ℤ) (dep : DataDependency) (i : Reading) : Prop :=
  dep.tgtFunctions.head?=some i.tgt ∧ dependencyTrigger now i.tgt dep=some i.trigger

/-- The dependencies that are passed on to the workers. -/
def directOnes (deps : List DataDependency) : List DataDependency :=
  deps.filter fun dep => decide (dep.type=.direct)

/-- The dependencies that have a bucket. -/
def bucketOnes (deps : List DataDependency) : List DataDependency :=
  deps.filter fun dep => decide (dep.type≠.direct)

/-- Set up what has been read. -/
def install (app : Str) (st : CoordState) (i : Reading) : CoordState :=
  i.trigger.elim (ownBucket app i.bucket st) fun t =>
    pushTrigger i.bucket t (ownBucket app i.bucket st)

/-- What the workers are told of it. -/
def Reading.entity (i : Reading) : TriggerEntity := dependencyEntity i.bucket i.trigger

theorem entity_bucketName (i : Reading) : i.entity.bucketName=i.bucket := by
  unfold Reading.entity dependencyEntity
  split
  · rfl
  · split <;> rfl

variable {dep : DataDependency}

variable {now : ℤ}

variable {app : Str} {r r' : CoordState×List DataDependency×List TriggerEntity}

theorem registerDependency_reads (h : dep.type≠.direct) :
    registerDependency app now r dep=some r' ↔ ∃ i,Reads now dep i ∧
      (install app r.1 i,r.2.1,r.2.2++[i.entity])=r' := by
  rw [registerDependency,if_neg h]
  constructor
  · intro hr
    obtain ⟨tgt,htgt,hr⟩ := Option.bind_eq_some_iff.mp hr
    obtain ⟨t,ht,hr⟩ := Option.bind_eq_some_iff.mp hr
    exact ⟨⟨tgt,t⟩,⟨htgt,ht⟩,Option.some.inj hr⟩
  · rintro ⟨i,⟨htgt,ht⟩,rfl⟩
    rw [htgt,Option.bind_eq_bind,Option.bind_some,ht]
    rfl

theorem directOnes_cons (dep : DataDependency) (deps : List DataDependency) :
    directOnes (dep::deps)=if dep.type=.direct then dep::directOnes deps else directOnes deps := by
  rw [directOnes,List.filter_cons]
  simp only [decide_eq_true_eq]
  rfl

theorem bucketOnes_cons (dep : DataDependency) (deps : List DataDependency) :
    bucketOnes (dep::deps)=if dep.type=.direct then bucketOnes deps else dep::bucketOnes deps := by
  rw [bucketOnes,List.filter_cons]
  simp only [decide_eq_true_eq]
  rw [ite_not]
  rfl

variable {deps : List DataDependency}

theorem foldlM_registerDependency :
    deps.foldlM (registerDependency app now) r=some r' ↔
      ∃ items,List.Forall₂ (Reads now) (bucketOnes deps) items ∧
        (items.foldl (install app) r.1,r.2.1++directOnes deps,
          r.2.2++items.map Reading.entity)=r' := by
  induction deps generalizing r with
  | nil =>
    rw [List.foldlM_nil]
    constructor
    · intro h
      refine ⟨[],.nil,?_⟩
      rw [←Option.some.inj h]
      simp [directOnes]
    · rintro ⟨items,hitems,rfl⟩
      cases hitems
      simp [directOnes]
  | cons dep deps ih =>
    rw [List.foldlM_cons,Option.bind_eq_bind,Option.bind_eq_some_iff,directOnes_cons,bucketOnes_cons]
    by_cases hdirect : dep.type=.direct
    · rw [if_pos hdirect,if_pos hdirect,registerDependency,if_pos hdirect]
      simp only [Option.some.injEq,exists_eq_left',ih,List.append_assoc,List.singleton_append]
    · rw [if_neg hdirect,if_neg hdirect]
      constructor
      · rintro ⟨r1,h1,hrest⟩
        obtain ⟨i,hi,rfl⟩ := (registerDependency_reads hdirect).mp h1
        obtain ⟨items,hitems,rfl⟩ := ih.mp hrest
        refine ⟨i::items,.cons hi hitems,?_⟩
        simp only [List.foldl_cons,List.map_cons,List.append_assoc,List.singleton_append]
      · rintro ⟨items,hitems,rfl⟩
        cases hitems with
        | cons hi hitems =>
          refine ⟨_,(registerDependency_reads hdirect).mpr ⟨_,hi,rfl⟩,ih.mpr ⟨_,hitems,?_⟩⟩
          simp only [List.foldl_cons,List.map_cons,List.append_assoc,List.singleton_append]

/-- The message of a registration. -/
def registrationMsg (self : CoordIdentity) (reg : AppRegistration) (items : List Reading) :
    UpdateCoordMsg :=
  ⟨self.privateIp,self.threadId,reg.appName,reg.functions,directOnes reg.dependencies,
    items.map Reading.entity,0⟩

/-- A registration succeeds where its dependencies can be read, and sets up
what has been read. -/
theorem appRegisterHandler_iff {self : CoordIdentity} {st st' : CoordState} {reg : AppRegistration}
    {out : List CoordOut} :
    appRegisterHandler self now st reg=some (st',out) ↔
      ∃ items,List.Forall₂ (Reads now) (bucketOnes reg.dependencies) items ∧
        st'=items.foldl (install reg.appName) st ∧
        out=broadcast st' (registrationMsg self reg items) := by
  rw [appRegisterHandler,Option.bind_eq_bind,Option.bind_eq_some_iff]
  constructor
  · rintro ⟨r,hr,hout⟩
    obtain ⟨items,hitems,rfl⟩ := foldlM_registerDependency.mp hr
    obtain ⟨hst,hout⟩ := Prod.mk.inj (Option.some.inj hout)
    refine ⟨items,hitems,hst.symm,?_⟩
    rw [←hst,←hout]
    rfl
  · rintro ⟨items,hitems,rfl,rfl⟩
    exact ⟨_,foldlM_registerDependency.mpr ⟨items,hitems,rfl⟩,rfl⟩

/-- The triggers that a list of readings adds to a bucket. -/
def addedTriggers (b : Bucket) (items : List Reading) : List Trigger :=
  items.flatMap fun i => if i.bucket=b then i.trigger.toList else []

variable {items : List Reading}

theorem mem_addedTriggers {b : Bucket} {t : Trigger} :
    t∈addedTriggers b items ↔ ∃ i∈items,i.bucket=b ∧ i.trigger=some t := by
  rw [addedTriggers,List.mem_flatMap]
  refine exists_congr fun i => and_congr_right fun _ => ?_
  split
  · rename_i hb
    rw [Option.mem_toList]
    exact (and_iff_right hb).symm
  · rename_i hb
    exact iff_of_false List.not_mem_nil fun h => hb h.1

theorem install_triggers (app : Str) (st : CoordState) (i : Reading) (b : Bucket) :
    (install app st i).bucketTriggersMap.getD b []=
      st.bucketTriggersMap.getD b []++if i.bucket=b then i.trigger.toList else [] := by
  unfold install
  cases ht : i.trigger with
  | none => simp [ownBucket]
  | some t =>
    show (st.bucketTriggersMap.set i.bucket _).getD b []=_
    rw [UMap.getD_set]
    by_cases hb : i.bucket=b
    · rw [if_pos hb.symm,if_pos hb,←hb]
      rfl
    · rw [if_neg (Ne.symm hb),if_neg hb,List.append_nil]

theorem install_bucketAppMap (app : Str) (st : CoordState) (i : Reading) :
    (install app st i).bucketAppMap=st.bucketAppMap.set i.bucket app := by
  unfold install
  cases i.trigger with
  | none => rfl
  | some t => rfl

theorem install_appBucketsMap (app : Str) (st : CoordState) (i : Reading) :
    (install app st i).appBucketsMap=
      st.appBucketsMap.set app ((st.appBucketsMap.getD app ∅).insert i.bucket) := by
  unfold install
  cases i.trigger with
  | none => rfl
  | some t => rfl

theorem install_nodeStatusMap (app : Str) (st : CoordState) (i : Reading) :
    (install app st i).nodeStatusMap=st.nodeStatusMap := by
  unfold install
  cases i.trigger with
  | none => rfl
  | some t => rfl

/-- A registration appends its triggers. -/
theorem foldl_install_triggers (app : Str) (items : List Reading) (st : CoordState) (b : Bucket) :
    (items.foldl (install app) st).bucketTriggersMap.getD b []=
      st.bucketTriggersMap.getD b []++addedTriggers b items := by
  induction items generalizing st with
  | nil => exact (List.append_nil _).symm
  | cons i items ih =>
    rw [List.foldl_cons,ih,install_triggers,List.append_assoc]
    rfl

/-- A registration gives its buckets to its application. -/
theorem foldl_install_owner (app : Str) (items : List Reading) (st : CoordState) (b : Bucket) :
    (items.foldl (install app) st).bucketAppMap.find? b=
      if ∃ i∈items,i.bucket=b then some app else st.bucketAppMap.find? b := by
  induction items generalizing st with
  | nil => rw [if_neg (by rintro ⟨i,hi,-⟩; exact absurd hi List.not_mem_nil)]; rfl
  | cons i items ih =>
    rw [List.foldl_cons,ih,install_bucketAppMap,UMap.find?_set]
    by_cases hb : i.bucket=b
    · rw [if_pos hb.symm,ite_self,if_pos ⟨i,List.mem_cons_self,hb⟩]
    · rw [if_neg (Ne.symm hb)]
      refine if_congr ?_ rfl rfl
      rw [List.exists_mem_cons_iff,or_iff_right hb]

/-- A registration records its buckets with its application. -/
theorem foldl_install_buckets (app : Str) (items : List Reading) (st : CoordState) (a : Str)
    (b : Bucket) : b∈(items.foldl (install app) st).appBucketsMap.getD a ∅ ↔
      (a=app ∧ ∃ i∈items,i.bucket=b) ∨ b∈st.appBucketsMap.getD a ∅ := by
  induction items generalizing st with
  | nil =>
    refine (or_iff_right ?_).symm
    rintro ⟨-,i,hi,-⟩
    exact absurd hi List.not_mem_nil
  | cons i items ih =>
    rw [List.foldl_cons,ih,install_appBucketsMap,UMap.getD_set,List.exists_mem_cons_iff]
    by_cases ha : a=app
    · rw [if_pos ha,USet.mem_insert,ha]
      simp only [true_and]
      rw [or_left_comm,eq_comm,or_assoc]
    · rw [if_neg ha]
      simp only [ha,false_and]

theorem foldl_install_nodes (app : Str) (items : List Reading) (st : CoordState) :
    (items.foldl (install app) st).nodeStatusMap=st.nodeStatusMap :=
  List.foldlRecOn (motive:=fun s => s.nodeStatusMap=st.nodeStatusMap) items (install app) rfl
    fun s hs i _ => (install_nodeStatusMap app s i).trans hs

variable {i : Reading}

/-- A dependency that has been read can be read at any time. -/
theorem Reads.again (h : Reads now dep i) (now' : ℤ) : ∃ i',Reads now' dep i' ∧ i'.tgt=i.tgt := by
  obtain ⟨htgt,ht⟩ := h
  have hsome : ∃ t,dependencyTrigger now' i.tgt dep=some t := by
    unfold dependencyTrigger at ht ⊢
    split at ht
    · exact ⟨_,rfl⟩
    · exact ⟨_,ht⟩
    · obtain ⟨window,hwindow,-⟩ := Option.bind_eq_some_iff.mp ht
      exact ⟨_,Option.bind_eq_some_iff.mpr ⟨window,hwindow,rfl⟩⟩
    · exact ⟨_,ht⟩
  obtain ⟨t,ht'⟩ := hsome
  exact ⟨⟨i.tgt,t⟩,⟨htgt,ht'⟩,rfl⟩

theorem readings_again (h : List.Forall₂ (Reads now) deps items) (now' : ℤ) :
    ∃ items',List.Forall₂ (Reads now') deps items' ∧
      items'.map Reading.bucket=items.map Reading.bucket := by
  induction h with
  | nil => exact ⟨[],.nil,rfl⟩
  | cons hi _ ih =>
    obtain ⟨i',hi',htgt⟩ := hi.again now'
    obtain ⟨items',hitems',hbuckets⟩ := ih
    refine ⟨i'::items',.cons hi' hitems',?_⟩
    rw [List.map_cons,List.map_cons,hbuckets,Reading.bucket,htgt]
    rfl

theorem mem_bucketOnes : dep∈bucketOnes deps ↔ dep∈deps ∧ dep.type≠.direct := by
  rw [bucketOnes,List.mem_filter,decide_eq_true_eq]

/-- Every reading is that of a dependency. -/
theorem exists_dep (h : List.Forall₂ (Reads now) deps items) (hi : i∈items) :
    ∃ dep∈deps,Reads now dep i := by
  induction h with
  | nil => exact absurd hi List.not_mem_nil
  | cons hd _ ih =>
    rcases List.mem_cons.mp hi with rfl|hi
    · exact ⟨_,List.mem_cons_self,hd⟩
    · obtain ⟨dep,hdep,hreads⟩ := ih hi
      exact ⟨dep,List.mem_cons_of_mem _ hdep,hreads⟩

/-- Every dependency with a bucket has been read. -/
theorem exists_reading (h : List.Forall₂ (Reads now) deps items) (hd : dep∈deps) :
    ∃ i∈items,Reads now dep i := by
  induction h with
  | nil => exact absurd hd List.not_mem_nil
  | cons hi _ ih =>
    rcases List.mem_cons.mp hd with rfl|hd
    · exact ⟨_,List.mem_cons_self,hi⟩
    · obtain ⟨i,hmem,hreads⟩ := ih hd
      exact ⟨i,List.mem_cons_of_mem _ hmem,hreads⟩

end Pheromone.RegistrationEffects
