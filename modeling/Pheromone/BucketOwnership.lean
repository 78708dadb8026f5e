import Pheromone.RegistrationEffects
import Pheromone.TriggerTables

/-!
# Owners of buckets

The owners of buckets and the buckets of applications are inverse maps
exactly if requests and registrations respect the owners.
-/

namespace Pheromone.BucketOwnership

open UnorderedContainers GuardedRuns CommonNames OperationMessages CoordinatorNotify
open CoordinatorOps TriggerTables RegistrationEffects

/-- The coordinator's tables after a request. -/
def step (self : CoordIdentity) (st : CoordState) (req : Request) : Option CoordState :=
  (handle self st req).map Prod.fst

/-- A coordinator that has handled no request. -/
def initial (nodes : UMap Address NodeStatus) (seed : UInt32) : CoordState :=
  ⟨∅,∅,∅,∅,∅,∅,nodes,seed⟩

/-- The buckets of an application are those that it owns. -/
def Inverse (st : CoordState) : Prop :=
  ∀ a b,b∈st.appBucketsMap.getD a ∅ ↔ st.bucketAppMap.find? b=some a

/-- Every bucket with triggers has an owner. -/
def TriggersOwned (st : CoordState) : Prop :=
  ∀ b,st.bucketTriggersMap.getD b []≠[] → ∃ a,st.bucketAppMap.find? b=some a

/-- The request respects the owners. -/
def Respects (st : CoordState) : Request → Prop
  | .register reg _ => ∀ dep∈reg.dependencies,dep.type≠.direct → ∀ tgt∈dep.tgtFunctions.head?,
      ∀ a∈st.bucketAppMap.find? (dependencyBucket tgt),a=reg.appName
  | .bucket req => req.operationType=.deleteBucket →
      ∀ a∈st.bucketAppMap.find? req.bucketName,a=req.appName
  | .trigger _ _ => True

instance (st : CoordState) (req : Request) : Decidable (Respects st req) :=
  match req with
  | .register reg _ => inferInstanceAs (Decidable (∀ dep∈reg.dependencies,_ → ∀ tgt∈_,∀ a∈_,_))
  | .bucket _ => inferInstanceAs (Decidable (_ → ∀ a∈_,_))
  | .trigger _ _ => inferInstanceAs (Decidable True)

/-- Delete a bucket in the name of an application. -/
def dropBucket (app : Str) (b : Bucket) (st : CoordState) : CoordState :=
  {st with
    appBucketsMap := st.appBucketsMap.set app ((st.appBucketsMap.getD app ∅).erase b)
    bucketAppMap := st.bucketAppMap.erase b
    bucketTriggersMap := st.bucketTriggersMap.erase b}

/-- Everything a request can do to the owners and to the triggers. -/
inductive Effect (st : CoordState) : Request → CoordState → Prop
  | registered {reg now items} (hitems : List.Forall₂ (Reads now) (bucketOnes reg.dependencies) items) :
      Effect st (.register reg now) (items.foldl (install reg.appName) st)
  | created {req} (hop : req.operationType=.createBucket)
      (hnew : st.bucketAppMap.find? req.bucketName=none) :
      Effect st (.bucket req) (ownBucket req.appName req.bucketName st)
  | deleted {req a} (hop : req.operationType=.deleteBucket)
      (howner : st.bucketAppMap.find? req.bucketName=some a) :
      Effect st (.bucket req) (dropBucket req.appName req.bucketName st)
  | untouched {req} (hdelete : req.operationType=.deleteBucket →
      st.bucketAppMap.find? req.bucketName=none) : Effect st (.bucket req) st
  | changed {req now st' a} (howner : st.bucketAppMap.find? req.bucketName=some a)
      (hother : ∀ b,b≠req.bucketName → st'.bucketTriggersMap.getD b []=st.bucketTriggersMap.getD b [])
      (hkept : st'.bucketAppMap=st.bucketAppMap ∧ st'.appBucketsMap=st.appBucketsMap) :
      Effect st (.trigger req now) st'
  | refused {req now} : Effect st (.trigger req now) st

theorem bucketOpHandler_effect (st : CoordState) (req : BucketOperationRequest) :
    Effect st (.bucket req) (bucketOpHandler st req).1 := by
  have hmissing : ¬st.bucketAppMap.contains req.bucketName=true →
      st.bucketAppMap.find? req.bucketName=none := by
    intro hc
    exact Option.not_isSome_iff_eq_none.mp hc
  unfold bucketOpHandler
  dsimp only
  split
  · rename_i hop
    split
    · refine .untouched fun hdelete => ?_
      rw [hop] at hdelete
      cases hdelete
    · rename_i hc
      exact .created hop (hmissing hc)
  · rename_i hop
    split
    · rename_i hc
      obtain ⟨a,ha⟩ := UMap.contains_eq_true_iff.mp hc
      exact .deleted hop ha
    · rename_i hc
      exact .untouched fun _ => hmissing hc
  · rename_i hop
    refine .untouched fun hdelete => ?_
    rw [hop] at hdelete
    cases hdelete

variable {now : ℤ} {st : CoordState}

theorem triggerOp_effect {req : TriggerOperationRequest} {r : TriggerOperation}
    (h : triggerOp now st req=some r) : Effect st (.trigger req now) r.st := by
  unfold triggerOp at h
  split at h
  · split at h
    · rename_i hc
      obtain ⟨a,ha⟩ := UMap.contains_eq_true_iff.mp hc
      obtain ⟨t,-,he⟩ := Option.bind_eq_some_iff.mp h
      rw [←Option.some.inj he]
      refine .changed ha (fun b hb => ?_) ⟨rfl,rfl⟩
      exact (UMap.getD_set _ _ _ _ _).trans (if_neg hb)
    · rw [←Option.some.inj h]
      exact .refused
  · split at h
    · rename_i hc
      obtain ⟨a,ha⟩ := UMap.contains_eq_true_iff.mp hc
      rw [←Option.some.inj h,deleteTriggerOp]
      dsimp only
      have hother : ∀ b,b≠req.bucketName → ∀ ts,
          (st.bucketTriggersMap.set req.bucketName ts).getD b []=st.bucketTriggersMap.getD b [] :=
        fun b hb ts => (UMap.getD_set _ _ _ _ _).trans (if_neg hb)
      split
      · exact .changed ha (fun b hb => hother b hb _) ⟨rfl,rfl⟩
      · exact .changed ha (fun b hb => hother b hb _) ⟨rfl,rfl⟩
    · rw [←Option.some.inj h]
      exact .refused
  · rw [←Option.some.inj h]
    exact .refused

variable {st' : CoordState} {req : Request}

theorem effect_of_step {self : CoordIdentity} (h : step self st req=some st') :
    Effect st req st' := by
  obtain ⟨⟨c,out⟩,hh,rfl⟩ := Option.map_eq_some_iff.mp h
  cases req with
  | register reg now =>
    obtain ⟨items,hitems,rfl,-⟩ := appRegisterHandler_iff.mp hh
    exact .registered hitems
  | bucket req =>
    have hpair : bucketOpHandler st req=(c,out) := Option.some.inj hh
    have heffect := bucketOpHandler_effect st req
    rw [hpair] at heffect
    exact heffect
  | trigger req now =>
    obtain ⟨r,hr,hs⟩ := Option.bind_eq_some_iff.mp hh
    have hst : r.st=c := congrArg Prod.fst (Option.some.inj hs)
    exact hst ▸ triggerOp_effect hr

theorem triggersOwned_effect (hst : TriggersOwned st) (h : Effect st req st') :
    TriggersOwned st' := by
  intro b hb
  cases h with
  | @registered reg now items _ =>
    rw [foldl_install_owner]
    split
    · exact ⟨_,rfl⟩
    · rename_i hnone
      refine hst b fun hnil => hb ?_
      have hadded : addedTriggers b items=[] := by
        refine List.eq_nil_iff_forall_not_mem.mpr fun t ht => hnone ?_
        obtain ⟨i,hi,hib,-⟩ := mem_addedTriggers.mp ht
        exact ⟨i,hi,hib⟩
      rw [foldl_install_triggers,hnil,hadded]
      rfl
  | @created req _ _ =>
    show ∃ a,(st.bucketAppMap.set req.bucketName req.appName).find? b=some a
    rw [UMap.find?_set]
    split
    · exact ⟨_,rfl⟩
    · exact hst b hb
  | @deleted req a _ _ =>
    replace hb : (st.bucketTriggersMap.erase req.bucketName).getD b []≠[] := hb
    show ∃ a,(st.bucketAppMap.erase req.bucketName).find? b=some a
    rw [UMap.getD_erase] at hb
    rw [UMap.find?_erase]
    split at hb
    · exact absurd rfl hb
    · rename_i hne
      rw [if_neg hne]
      exact hst b hb
  | untouched _ => exact hst b hb
  | @changed req now _ a howner hother hkept =>
    rw [hkept.1]
    by_cases hbucket : b=req.bucketName
    · exact ⟨a,hbucket ▸ howner⟩
    · rw [hother b hbucket] at hb
      exact hst b hb
  | refused => exact hst b hb

/-- The bucket of a reading belongs to nobody else. -/
theorem Respects.reading {reg : AppRegistration} {items : List Reading}
    (h : Respects st (.register reg now))
    (hitems : List.Forall₂ (Reads now) (bucketOnes reg.dependencies) items) {i : Reading}
    (hi : i∈items) {a : Str} (ha : st.bucketAppMap.find? i.bucket=some a) : a=reg.appName := by
  obtain ⟨dep,hdep,htgt,-⟩ := exists_dep hitems hi
  obtain ⟨hmem,htype⟩ := mem_bucketOnes.mp hdep
  exact h dep hmem htype i.tgt htgt a ha

theorem inverse_effect (hst : Inverse st) (hok : Respects st req) (h : Effect st req st') :
    Inverse st' := by
  intro a b
  cases h with
  | @registered reg now items hitems =>
    rw [foldl_install_buckets,foldl_install_owner,hst a b]
    by_cases hnew : ∃ i∈items,i.bucket=b
    · rw [if_pos hnew,Option.some.injEq]
      obtain ⟨i,hi,rfl⟩ := hnew
      constructor
      · rintro (⟨ha,-⟩|hold)
        · exact ha.symm
        · exact (hok.reading hitems hi hold).symm
      · exact fun ha => Or.inl ⟨ha.symm,i,hi,rfl⟩
    · rw [if_neg hnew]
      exact or_iff_right fun hc => hnew hc.2
  | @created req _ hnew =>
    show b∈(st.appBucketsMap.set req.appName _).getD a ∅ ↔
      (st.bucketAppMap.set req.bucketName req.appName).find? b=some a
    rw [UMap.getD_set,UMap.find?_set]
    by_cases hb : b=req.bucketName
    · rw [if_pos hb,Option.some.injEq]
      split
      · rename_i ha
        exact iff_of_true (USet.mem_insert.mpr (Or.inl hb)) ha.symm
      · rename_i ha
        refine iff_of_false (fun hmem => ?_) (Ne.symm ha)
        have howner := (hst a b).mp hmem
        rw [hb,hnew] at howner
        cases howner
    · rw [if_neg hb,←hst a b]
      split
      · rename_i ha
        rw [USet.mem_insert,or_iff_right hb,ha]
      · rfl
  | @deleted req owner hop howner =>
    have happ : owner=req.appName := hok hop owner howner
    show b∈(st.appBucketsMap.set req.appName _).getD a ∅ ↔
      (st.bucketAppMap.erase req.bucketName).find? b=some a
    rw [UMap.getD_set,UMap.find?_erase]
    by_cases hb : b=req.bucketName
    · rw [if_pos hb]
      refine iff_of_false (fun hmem => ?_) (fun hnone => by cases hnone)
      split at hmem
      · exact (USet.mem_erase.mp hmem).1 hb
      · rename_i ha
        have hold := (hst a b).mp hmem
        rw [hb,howner,happ] at hold
        exact ha (Option.some.inj hold).symm
    · rw [if_neg hb,←hst a b]
      split
      · rename_i ha
        rw [USet.mem_erase,and_iff_right hb,ha]
      · rfl
  | untouched _ => exact hst a b
  | changed _ _ hkept =>
    rw [hkept.1,hkept.2]
    exact hst a b
  | refused => exact hst a b

/-- A request that does not respect the owners breaks the maps. -/
theorem not_inverse_of_effect (hst : Inverse st) (hbad : ¬Respects st req) (h : Effect st req st') :
    ¬Inverse st' := by
  intro hst'
  cases h with
  | @registered reg now items hitems =>
    refine hbad fun dep hdep htype tgt htgt a ha => ?_
    obtain ⟨i,hi,hreads⟩ := exists_reading hitems (mem_bucketOnes.mpr ⟨hdep,htype⟩)
    have hbucket : dependencyBucket tgt=i.bucket :=
      congrArg dependencyBucket (Option.some.inj ((Option.mem_def.mp htgt).symm.trans hreads.1))
    rw [hbucket] at ha
    have hkept := (hst' a i.bucket).mp
      ((foldl_install_buckets reg.appName items st a i.bucket).mpr (Or.inr ((hst a i.bucket).mpr ha)))
    rw [foldl_install_owner,if_pos ⟨i,hi,rfl⟩] at hkept
    exact (Option.some.inj hkept).symm
  | @deleted req owner hop howner =>
    refine hbad fun _ a ha => ?_
    by_contra hne
    have hmem : req.bucketName∈(dropBucket req.appName req.bucketName st).appBucketsMap.getD a ∅ := by
      show _∈(st.appBucketsMap.set req.appName _).getD a ∅
      rw [UMap.getD_set,if_neg hne]
      exact (hst a req.bucketName).mpr ha
    have hgone := (hst' a req.bucketName).mp hmem
    rw [show (dropBucket req.appName req.bucketName st).bucketAppMap.find? req.bucketName=none from
      UMap.find?_erase_self _ _] at hgone
    cases hgone
  | created hop _ =>
    refine hbad fun hdelete => ?_
    rw [hop] at hdelete
    cases hdelete
  | untouched hdelete =>
    refine hbad fun hop a ha => ?_
    rw [hdelete hop] at ha
    cases ha
  | changed _ _ _ => exact hbad trivial
  | refused => exact hbad trivial

/-- Along every sequence of requests, the maps of owners are inverse to each
other and all triggers have owners in all states, exactly if every request
respects the owners. -/
theorem ownership_inverse_iff {self : CoordIdentity} {nodes : UMap Address NodeStatus} {seed : UInt32}
    {l : List Request} {st : CoordState} (h : run (step self) (initial nodes seed) l=some st) :
    AllStates (step self) (fun st => Inverse st ∧ TriggersOwned st) (initial nodes seed) l ↔
      StepsMeet (step self) Respects (initial nodes seed) l := by
  refine allStates_iff_stepsMeet (fun _ hst => hst) (fun st req st' hst hok hstep => ?_)
    (fun st req st' hst hbad hstep hgood => ?_) ⟨fun a b => ?_,fun b hb => ?_⟩ h
  · have heffect := effect_of_step hstep
    exact ⟨inverse_effect hst.1 hok heffect,triggersOwned_effect hst.2 heffect⟩
  · exact not_inverse_of_effect hst.1 hbad (effect_of_step hstep) hgood.1
  · exact iff_of_false (USet.not_mem_empty b) nofun
  · exact absurd rfl hb

/-- Two applications with a bucket each; the first deletes its own and
registers a join. -/
def respectfulRequests : List Request :=
  [.bucket ⟨.createBucket,str "a",str "x",[],[]⟩,.bucket ⟨.createBucket,str "c",str "y",[],[]⟩,
    .bucket ⟨.deleteBucket,str "a",str "x",[],[]⟩,
    .register ⟨str "a",[],[⟨.manyToOne,[str "f"],[str "h"],[]⟩]⟩ 0]

theorem ownership_inverse_respected : ∃ st,
    run (step ⟨[],0⟩) (initial ∅ 0) respectfulRequests=some st ∧
    AllStates (step ⟨[],0⟩) (fun st => Inverse st ∧ TriggersOwned st) (initial ∅ 0)
      respectfulRequests := by
  have hrun : ∃ st,run (step ⟨[],0⟩) (initial ∅ 0) respectfulRequests=some st :=
    Option.isSome_iff_exists.mp (by decide +kernel)
  obtain ⟨st,hst⟩ := hrun
  exact ⟨st,hst,(ownership_inverse_iff hst).mpr (by decide +kernel)⟩

/-- An application deletes the bucket of another one. -/
def foreignDelete : List Request :=
  [.bucket ⟨.createBucket,str "a",str "x",[],[]⟩,.bucket ⟨.deleteBucket,str "c",str "x",[],[]⟩]

/-- The bucket remains with its former owner. -/
theorem foreign_delete_keeps_bucket : ∃ st,run (step ⟨[],0⟩) (initial ∅ 0) foreignDelete=some st ∧
    str "x"∈st.appBucketsMap.getD (str "a") ∅ ∧ st.bucketAppMap.find? (str "x")=none ∧
    ¬Inverse st := by
  have hcomputed : ((run (step ⟨[],0⟩) (initial ∅ 0) foreignDelete).map fun st =>
      decide (str "x"∈st.appBucketsMap.getD (str "a") ∅ ∧
        st.bucketAppMap.find? (str "x")=none))=some true := by decide +kernel
  obtain ⟨st,hst,hmem,hnone⟩ := exists_of_decided hcomputed
  refine ⟨st,hst,hmem,hnone,fun hinverse => ?_⟩
  have howner := (hinverse (str "a") (str "x")).mp hmem
  rw [hnone] at howner
  cases howner

end Pheromone.BucketOwnership
