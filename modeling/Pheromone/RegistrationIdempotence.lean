import Pheromone.RegistrationEffects
import Pheromone.TableReactions
import Pheromone.TriggerTables

/-!
# Registering an application twice

A second registration leaves maps and sets as they are but appends the
triggers once more. It is without effect exactly if none of them can act.
-/

namespace Pheromone.RegistrationIdempotence

open UnorderedContainers GuardedRuns ReactiveMachines BroadcastReplicas CommonNames
open TriggerPrimitives OperationMessages CoordinatorNotify CoordinatorOps WorkerUpdates
open TriggerTables TableReactions RegistrationEffects

/-- What a registration tells a worker, apart from triggers. -/
inductive Fact where
  | function (func : Str)
  | target (src tgt : Str)
  | bucket (b : Bucket)

/-- A worker knows the fact for an application and its coordinator. -/
def Knows (app : Str) (coord : HandlerThread) (w : WorkerTables) : Fact → Prop
  | .function func => w.funcAppMap.find? func=some app
  | .target src tgt => ∃ s,(w.appInfoMap.getD app .unset).directDeps.find? src=some s ∧ tgt∈s
  | .bucket b => w.bucketCoordMap.find? b=some coord ∧ w.bucketAppMap.find? b=some app

theorem find?_set_same {κ ν : Type} [DecidableEq κ] {m : UMap κ ν} {k k' : κ} {v : ν}
    (h : k'=k ∨ m.find? k'=some v) : (m.set k v).find? k'=some v := by
  rw [UMap.find?_set]
  split
  · rfl
  · rename_i hk
    exact h.resolve_left hk

variable {app : Str} {coord : HandlerThread} {w : WorkerTables} {fact : Fact}

theorem knows_addFunction (func : Str) (h : fact=.function func ∨ Knows app coord w fact) :
    Knows app coord (addFunction app w func) fact := by
  cases fact with
  | function f => exact find?_set_same (h.imp_left Fact.function.inj)
  | target src tgt =>
    obtain ⟨s,hs,htgt⟩ := h.resolve_left (fun he => by cases he)
    refine ⟨s,?_,htgt⟩
    show ((w.appInfoMap.set app _).getD app .unset).directDeps.find? src=some s
    rw [UMap.getD_set_self]
    exact hs
  | bucket b => exact h.resolve_left fun he => by cases he

theorem knows_addTarget (src tgt : Str) (h : fact=.target src tgt ∨ Knows app coord w fact) :
    Knows app coord (addTarget app src w tgt) fact := by
  cases fact with
  | function f => exact h.resolve_left fun he => by cases he
  | target src' tgt' =>
    show ∃ s,((w.appInfoMap.set app _).getD app .unset).directDeps.find? src'=some s ∧ tgt'∈s
    rw [UMap.getD_set_self]
    dsimp only
    rw [UMap.find?_set]
    by_cases hsrc : src'=src
    · rw [if_pos hsrc]
      refine ⟨_,rfl,USet.mem_insert.mpr ?_⟩
      rcases h with he|⟨s,hs,htgt⟩
      · exact Or.inl (Fact.target.inj he).2
      · rw [hsrc] at hs
        rw [UMap.getD,hs]
        exact Or.inr htgt
    · rw [if_neg hsrc]
      exact h.resolve_left fun he => hsrc (Fact.target.inj he).1
  | bucket b => exact h.resolve_left fun he => by cases he

theorem knows_addTrigger (now : ℤ) (entity : TriggerEntity)
    (h : fact=.bucket entity.bucketName ∨ Knows app coord w fact) :
    Knows app coord (addTrigger now app coord w entity) fact := by
  have hbase : Knows app coord {w with
      bucketCoordMap := w.bucketCoordMap.set entity.bucketName coord
      appInfoMap := w.appInfoMap.set app {w.appInfoMap.getD app .unset with
        buckets := (w.appInfoMap.getD app .unset).buckets++[entity.bucketName]}
      bucketAppMap := w.bucketAppMap.set entity.bucketName app} fact := by
    cases fact with
    | function f => exact h.resolve_left fun he => by cases he
    | target src tgt =>
      obtain ⟨s,hs,htgt⟩ := h.resolve_left (fun he => by cases he)
      refine ⟨s,?_,htgt⟩
      dsimp only
      rw [UMap.getD_set_self]
      exact hs
    | bucket b =>
      have hb := h.imp_left Fact.bucket.inj
      exact ⟨find?_set_same (hb.imp_right And.left),find?_set_same (hb.imp_right And.right)⟩
  unfold addTrigger
  dsimp only
  split
  · exact hbase
  · exact hbase

/-- A worker knows what a message tells it. -/
structure Known (msg : UpdateCoordMsg) (w : WorkerTables) : Prop where
  functions : ∀ func∈msg.functions,Knows msg.appName ⟨msg.ip,msg.threadId⟩ w (.function func)
  targets : ∀ dep∈msg.dependencies,∀ src∈dep.srcFunctions.head?,∀ tgt∈dep.tgtFunctions,
    dep.type=.direct → Knows msg.appName ⟨msg.ip,msg.threadId⟩ w (.target src tgt)
  buckets : ∀ entity∈msg.triggers,
    Knows msg.appName ⟨msg.ip,msg.threadId⟩ w (.bucket entity.bucketName)

/-- What a fold establishes for its elements, and keeps, holds afterwards. -/
theorem foldl_establishes {σ α : Type} {f : σ → α → σ} {P : α → σ → Prop} {l : List α}
    (hnew : ∀ s,∀ x∈l,P x (f s x)) (hkeep : ∀ s x y,P x s → P x (f s y)) (s : σ) :
    ∀ x∈l,P x (l.foldl f s) := by
  induction l generalizing s with
  | nil => exact nofun
  | cons y l ih =>
    intro x hx
    rw [List.foldl_cons]
    rcases List.mem_cons.mp hx with rfl|hx
    · exact List.foldlRecOn (motive:=P x) l f (hnew s x List.mem_cons_self)
        fun s hs z _ => hkeep s x z hs
    · exact ih (fun s z hz => hnew s z (List.mem_cons_of_mem _ hz)) (f s y) x hx

variable {dep : DataDependency} {v : WorkerTables}

theorem knows_foldlM_addDependency {deps : List DataDependency}
    (h : deps.foldlM (addDependency app) w=some v) (hw : Knows app coord w fact) :
    Knows app coord v fact := by
  refine addDependencies_invariant (I:=fun w => Knows app coord w fact) ?_ hw h
  exact fun _ _ _ _ src _ tgt _ hw => knows_addTarget src tgt (Or.inr hw)

variable {tgt : Str}

theorem knows_targets (h : addDependency app w dep=some v) (hdirect : dep.type=.direct) {src : Str}
    (hsrc : src∈dep.srcFunctions.head?) (htgt : tgt∈dep.tgtFunctions) :
    Knows app coord v (.target src tgt) := by
  rw [addDependency,if_neg (not_not_intro hdirect)] at h
  obtain ⟨src',hsrc',hv⟩ := Option.bind_eq_some_iff.mp h
  have hsame : src=src' := Option.some.inj ((Option.mem_def.mp hsrc).symm.trans hsrc')
  rw [←Option.some.inj hv,hsame]
  exact foldl_establishes (P:=fun tgt w => Knows app coord w (.target src' tgt))
    (fun w t _ => knows_addTarget src' t (Or.inl rfl))
    (fun w t t' hw => knows_addTarget src' t' (Or.inr hw)) w tgt htgt

theorem knows_foldlM_targets {deps : List DataDependency}
    (h : deps.foldlM (addDependency app) w=some v) :
    ∀ dep∈deps,∀ src∈dep.srcFunctions.head?,∀ tgt∈dep.tgtFunctions,dep.type=.direct →
      Knows app coord v (.target src tgt) := by
  induction deps generalizing w with
  | nil => exact nofun
  | cons d deps ih =>
    rw [List.foldlM_cons] at h
    obtain ⟨u,hu,hv⟩ := Option.bind_eq_some_iff.mp h
    intro dep hdep src hsrc tgt htgt hdirect
    rcases List.mem_cons.mp hdep with rfl|hdep
    · exact knows_foldlM_addDependency hv (knows_targets hu hdirect hsrc htgt)
    · exact ih hv dep hdep src hsrc tgt htgt hdirect

theorem knows_foldl_addTrigger (now : ℤ) (entities : List TriggerEntity)
    (h : Knows app coord w fact) :
    Knows app coord (entities.foldl (addTrigger now app coord) w) fact :=
  List.foldlRecOn (motive:=fun w => Knows app coord w fact) entities _ h
    fun _ hw entity _ => knows_addTrigger now entity (Or.inr hw)

variable {now : ℤ} {msg : UpdateCoordMsg}

/-- A worker knows what it has been told. -/
theorem known_of_addUpdate (h : addUpdate now w msg=some v) : Known msg v := by
  obtain ⟨u,hu,hv⟩ := Option.bind_eq_some_iff.mp h
  rw [←Option.some.inj hv]
  refine ⟨fun func hfunc => ?_,fun dep hdep src hsrc tgt htgt hdirect => ?_,fun entity hentity => ?_⟩
  · refine knows_foldl_addTrigger now msg.triggers ?_
    refine knows_foldlM_addDependency hu ?_
    exact foldl_establishes
      (P:=fun func w => Knows msg.appName ⟨msg.ip,msg.threadId⟩ w (.function func))
      (fun w f _ => knows_addFunction f (Or.inl rfl))
      (fun w f f' hw => knows_addFunction f' (Or.inr hw)) _ func hfunc
  · refine knows_foldl_addTrigger now msg.triggers ?_
    exact knows_foldlM_targets hu dep hdep src hsrc tgt htgt hdirect
  · exact foldl_establishes
      (P:=fun entity w => Knows msg.appName ⟨msg.ip,msg.threadId⟩ w (.bucket entity.bucketName))
      (fun w e _ => knows_addTrigger now e (Or.inl rfl))
      (fun w e e' hw => knows_addTrigger now e' (Or.inr hw)) _ entity hentity

theorem known_workerReact (h : Known msg w) (i : WorkerInput) : Known msg (workerReact w i).1 := by
  cases i with
  | clear entity => exact ⟨h.functions,h.targets,h.buckets⟩
  | put src tgt bk now =>
    unfold workerReact
    dsimp only
    split
    · exact h
    · split
      · exact ⟨h.functions,h.targets,h.buckets⟩
      · exact h

theorem known_after (h : Known msg w) (inputs : List WorkerInput) :
    Known msg (after workerReact w inputs) := by
  have hstep : ∀ w i,Known msg w → Known msg (workerReact w i).1 :=
    fun _ i hk => known_workerReact hk i
  exact after_invariant hstep h inputs

/-- The same tables, apart from more triggers that never act. -/
structure Repeats (w' w : WorkerTables) : Prop extends WorkerExtends w' w where
  routes : w'.bucketCoordMap=w.bucketCoordMap
  owners : w'.bucketAppMap=w.bucketAppMap

theorem Repeats.refl (w : WorkerTables) : Repeats w w := ⟨.refl w,rfl,rfl⟩

theorem Repeats.trans {w'' w' : WorkerTables} (h : Repeats w'' w') (h' : Repeats w' w) :
    Repeats w'' w :=
  ⟨h.toWorkerExtends.trans h'.toWorkerExtends,h.routes.trans h'.routes,h.owners.trans h'.owners⟩

/-- What a worker knows it knows with more triggers too. -/
theorem Repeats.knows {w' : WorkerTables} (h : Repeats w' w) (hw : Knows app coord w fact) :
    Knows app coord w' fact := by
  cases fact with
  | function f =>
    show w'.funcAppMap.find? f=some app
    rw [h.funcApp]
    exact hw
  | target src tgt =>
    obtain ⟨s,hs,htgt⟩ := hw
    refine ⟨s,?_,htgt⟩
    rw [h.direct]
    exact hs
  | bucket b =>
    show w'.bucketCoordMap.find? b=some coord ∧ w'.bucketAppMap.find? b=some app
    rw [h.routes,h.owners]
    exact hw

/-- Changing an application's entry without its direct targets. -/
theorem directDeps_set {m : UMap Str AppInfo} {info : AppInfo}
    (h : info.directDeps=(m.getD app .unset).directDeps) (a : Str) :
    ((m.set app info).getD a .unset).directDeps=(m.getD a .unset).directDeps := by
  rw [UMap.getD_set]
  split
  · rename_i ha
    rw [ha]
    exact h
  · rfl

theorem repeats_addFunction {func : Str} (h : Knows app coord w (.function func)) :
    Repeats (addFunction app w func) w where
  funcApp := UMap.set_eq_self h
  direct := directDeps_set rfl
  triggers _ := .refl _ _
  routes := rfl
  owners := rfl

theorem repeats_addTarget {src : Str} (h : Knows app coord w (.target src tgt)) :
    Repeats (addTarget app src w tgt) w where
  funcApp := rfl
  direct := by
    obtain ⟨s,hs,htgt⟩ := h
    have hold : (w.appInfoMap.getD app .unset).directDeps.getD src ∅=s := by
      rw [UMap.getD,hs]
      rfl
    refine directDeps_set ?_
    dsimp only
    rw [hold,USet.insert_of_mem htgt]
    exact UMap.set_eq_self hs
  triggers _ := .refl _ _
  routes := rfl
  owners := rfl

theorem repeats_addTrigger {entity : TriggerEntity}
    (h : Knows app coord w (.bucket entity.bucketName))
    (hbarren : ∀ t,entityTrigger now entity=some t → Barren t.state) :
    Repeats (addTrigger now app coord w entity) w := by
  unfold addTrigger
  cases ht : entityTrigger now entity with
  | none => exact ⟨⟨rfl,directDeps_set rfl,fun _ => .refl _ _⟩,UMap.set_eq_self h.1,
      UMap.set_eq_self h.2⟩
  | some t =>
    refine ⟨⟨rfl,directDeps_set rfl,fun b => ?_⟩,UMap.set_eq_self h.1,UMap.set_eq_self h.2⟩
    dsimp only
    rw [UMap.getD_set]
    split
    · rename_i hb
      rw [hb]
      exact ⟨_,List.forall_mem_singleton.mpr (hbarren t ht),rfl⟩
    · exact .refl _ _

/-- What a worker knows it may be told again, with triggers that never act. -/
theorem repeats_of_addUpdate (hknown : Known msg w)
    (hbarren : ∀ entity∈msg.triggers,∀ t,entityTrigger now entity=some t → Barren t.state)
    (h : addUpdate now w msg=some v) : Repeats v w := by
  refine addUpdate_invariant (I:=fun v => Repeats v w) (fun v func hfunc hv => ?_)
    (fun v dep hdep hdirect src hsrc tgt htgt hv => ?_) (fun v entity he hv => ?_)
    ⟨⟨rfl,fun _ => rfl,fun _ => .refl _ _⟩,rfl,rfl⟩ h
  · exact (repeats_addFunction (hv.knows (hknown.functions func hfunc))).trans hv
  · exact (repeats_addTarget
      (hv.knows (hknown.targets dep hdep src hsrc tgt htgt hdirect))).trans hv
  · exact (repeats_addTrigger (hv.knows (hknown.buckets entity he)) (hbarren entity he)).trans hv

/-- Whether a message can be handled does not depend on the tables. -/
theorem addUpdate_again {msg' : UpdateCoordMsg} (h : addUpdate now w msg=some v)
    (hdeps : msg'.dependencies=msg.dependencies) (now' : ℤ) (w' : WorkerTables) :
    ∃ v',addUpdate now' w' msg'=some v' := by
  have hfold : ∀ (app app' : Str) (deps : List DataDependency) (w v w' : WorkerTables),
      deps.foldlM (addDependency app) w=some v → ∃ v',deps.foldlM (addDependency app') w'=some v' := by
    intro app app' deps
    induction deps with
    | nil => exact fun _ _ w' _ => ⟨w',rfl⟩
    | cons dep deps ih =>
      intro w v w' hfold
      rw [List.foldlM_cons] at hfold
      obtain ⟨u,hu,hrest⟩ := Option.bind_eq_some_iff.mp hfold
      have hdep : ∃ u',addDependency app' w' dep=some u' := by
        unfold addDependency at hu ⊢
        split
        · exact ⟨w',rfl⟩
        · rename_i hdirect
          rw [if_neg hdirect] at hu
          obtain ⟨src,hsrc,-⟩ := Option.bind_eq_some_iff.mp hu
          exact ⟨_,Option.bind_eq_some_iff.mpr ⟨src,hsrc,rfl⟩⟩
      obtain ⟨u',hu'⟩ := hdep
      obtain ⟨v',hv'⟩ := ih u v u' hrest
      refine ⟨v',?_⟩
      rw [List.foldlM_cons]
      exact Option.bind_eq_some_iff.mpr ⟨u',hu',hv'⟩
  obtain ⟨u,hu,-⟩ := Option.bind_eq_some_iff.mp h
  obtain ⟨u',hu'⟩ := hfold msg.appName msg'.appName msg.dependencies _ _
    (msg'.functions.foldl (addFunction msg'.appName) {w' with
      appCoordMap := w'.appCoordMap.set msg'.appName ⟨msg'.ip,msg'.threadId⟩}) hu
  refine ⟨_,Option.bind_eq_some_iff.mpr ⟨u',?_,rfl⟩⟩
  rw [hdeps]
  exact hu'

/-- The bucket belongs to the application on both sides. -/
def Owned (app : Str) (b : Bucket) (st : CoordState) : Prop :=
  st.bucketAppMap.find? b=some app ∧ ∃ s,st.appBucketsMap.find? app=some s ∧ b∈s

variable {b : Bucket} {st : CoordState} {i : Reading}

theorem owned_install (h : i.bucket=b ∨ Owned app b st) : Owned app b (install app st i) := by
  rw [Owned,install_bucketAppMap,install_appBucketsMap]
  refine ⟨find?_set_same (h.imp Eq.symm And.left),_,UMap.find?_set_self _ _ _,?_⟩
  rw [USet.mem_insert]
  refine h.imp Eq.symm fun ho => ?_
  obtain ⟨-,s,hs,hb⟩ := ho
  rw [UMap.getD,hs]
  exact hb

theorem owned_foldl_install (app : Str) (items : List Reading) (st : CoordState) :
    ∀ i∈items,Owned app i.bucket (items.foldl (install app) st) :=
  foldl_establishes (P:=fun (i : Reading) st => Owned app i.bucket st)
    (fun _ _ _ => owned_install (Or.inl rfl)) (fun _ _ _ ho => owned_install (Or.inr ho)) st

theorem owned_after (h : Owned app b st) (notes : List Report) :
    Owned app b (after coordReact st notes) := by
  have hstep : ∀ st i,Owned app b st → Owned app b (coordReact st i).1 := fun _ _ ho => ho
  exact after_invariant hstep h notes

/-- The owners of buckets are the same. -/
def SameOwners (st' st : CoordState) : Prop :=
  st'.bucketAppMap=st.bucketAppMap ∧ st'.appBucketsMap=st.appBucketsMap

theorem sameOwners_install (h : Owned app i.bucket st) : SameOwners (install app st i) st := by
  obtain ⟨hb,s,hs,hmem⟩ := h
  rw [SameOwners,install_bucketAppMap,install_appBucketsMap]
  refine ⟨UMap.set_eq_self hb,?_⟩
  rw [UMap.getD,hs,Option.getD_some,USet.insert_of_mem hmem]
  exact UMap.set_eq_self hs

theorem sameOwners_foldl_install {items : List Reading} (h : ∀ i∈items,Owned app i.bucket st) :
    SameOwners (items.foldl (install app) st) st := by
  refine List.foldlRecOn (motive:=fun s => SameOwners s st) items _ ⟨rfl,rfl⟩ fun s hs i hi => ?_
  have howned : Owned app i.bucket s := by
    rw [Owned,hs.1,hs.2]
    exact h i hi
  obtain ⟨happ,hbuckets⟩ := sameOwners_install howned
  exact ⟨happ.trans hs.1,hbuckets.trans hs.2⟩

/-- The dependency has no trigger, or one that never acts. -/
def Harmless (dep : DataDependency) : Prop :=
  match dep.type with
  | .direct => True
  | .manyToOne => dep.srcFunctions=[]
  | .kOutOfN => ∀ k,(split dep.description parameterDelimiter)[0]?.bind stoi=some k → UInt32.ofInt k=0
  | .periodic => False
  | .unrecognized _ => True

instance (dep : DataDependency) : Decidable (Harmless dep) := by
  unfold Harmless
  split <;> infer_instance

theorem split_kOutOfN {t : Option Trigger} (htype : dep.type=.kOutOfN)
    (h : dependencyTrigger now tgt dep=some t) :
    ∃ k n,(split dep.description parameterDelimiter)[0]?.bind stoi=some k ∧
      t=some ⟨tgt,dependencyTriggerName "2" tgt,0,.redundant ⟨UInt32.ofInt k,UInt32.ofInt n,0,[]⟩⟩ := by
  rw [dependencyTrigger,htype] at h
  simp only [Option.bind_eq_bind,Option.bind_eq_some_iff] at h
  obtain ⟨first,hfirst,k,hk,-,-,n,-,he⟩ := h
  refine ⟨k,n,?_,(Option.some.inj he).symm⟩
  rw [hfirst]
  exact hk

variable {t : Trigger}

theorem barren_of_harmless (hreads : Reads now dep i) (h : Harmless dep) (ht : i.trigger=some t) :
    Barren t.state := by
  obtain ⟨-,hdep⟩ := hreads
  rw [ht] at hdep
  unfold Harmless at h
  split at h
  · rename_i htype
    rw [dependencyTrigger,htype] at hdep
    cases Option.some.inj hdep
  · rename_i htype
    rw [dependencyTrigger,htype] at hdep
    rw [←Option.some.inj (Option.some.inj hdep),h]
    rfl
  · rename_i htype
    obtain ⟨k,n,hk,he⟩ := split_kOutOfN htype hdep
    rw [Option.some.inj he]
    exact ⟨h k hk,Or.inl rfl⟩
  · exact h.elim
  · rename_i htype
    rw [dependencyTrigger,htype] at hdep
    cases Option.some.inj hdep

/-- The workers' copy of a trigger that never acts never acts. -/
theorem barren_copy {t' : Trigger} (h : Barren t.state)
    (ht : entityTrigger now (dependencyEntity b (some t))=some t') : Barren t'.state := by
  obtain ⟨target,name,option,s⟩ := t
  rw [entityTrigger] at ht
  split at ht
  · cases ht
  · obtain ⟨u,hu,rfl⟩ := Option.map_eq_some_iff.mp ht
    cases s with
    | bySet t =>
      rw [←Option.some.inj hu]
      show (USet.ofList t.keySet.elems).elems=[]
      rw [USet.ofList_elems]
      exact h
    | redundant t =>
      rw [←Option.some.inj hu]
      exact ⟨h.1,Or.inl rfl⟩
    | _ => exact h.elim

theorem entity_barren {now' : ℤ} (hreads : Reads now dep i) (h : Harmless dep)
    (ht : entityTrigger now' i.entity=some t) : Barren t.state := by
  rw [Reading.entity] at ht
  cases hi : i.trigger with
  | none =>
    rw [hi,entityTrigger,if_pos (by rfl)] at ht
    cases ht
  | some u =>
    rw [hi] at ht
    exact barren_copy (barren_of_harmless hreads h hi) ht

theorem acts_of_not_harmless (hreads : Reads now dep i) (h : ¬Harmless dep) (b : Bucket) :
    ∃ t,i.trigger=some t ∧ Acts b t := by
  obtain ⟨-,hdep⟩ := hreads
  unfold Harmless at h
  split at h
  · exact absurd trivial h
  · rename_i htype
    rw [dependencyTrigger,htype] at hdep
    refine ⟨_,(Option.some.inj hdep).symm,_,?_,bySet_acts i.tgt _ 0 _ b []
      (dep.srcFunctions.map fun func => str "k_"++func) ?_ ?_ ∅ ?_ ?_ ∅ ∅⟩
    · intro o ho
      obtain ⟨k,-,rfl⟩ := List.mem_map.mp ho
      rfl
    · exact fun hnil => h (List.map_eq_nil_iff.mp hnil)
    · exact fun k hk => USet.mem_ofList.mpr hk
    · exact fun k hk => absurd hk (USet.not_mem_empty k)
    · exact fun k hk => Or.inr (USet.mem_ofList.mp hk)
  · rename_i htype
    obtain ⟨k,n,hk,he⟩ := split_kOutOfN htype hdep
    have hne : UInt32.ofInt k≠0 := by
      intro hzero
      refine h fun k' hk' => ?_
      rw [Option.some.inj (hk'.symm.trans hk)]
      exact hzero
    have hpos : 0<(UInt32.ofInt k).toNat := by
      refine Nat.pos_of_ne_zero fun hzero => hne ?_
      exact UInt32.toNat_inj.mp hzero
    refine ⟨_,he,_,?_,redundant_acts i.tgt _ 0 (UInt32.ofInt k) (UInt32.ofInt n) ⟨b,[],[]⟩
      (d:=(UInt32.ofInt k).toNat-1) ?_ []⟩
    · intro o ho
      rw [List.eq_of_mem_replicate ho]
    · rw [UInt32.toNat_zero]
      omega
  · rename_i htype
    rw [dependencyTrigger,htype] at hdep
    obtain ⟨window,-,he⟩ := Option.bind_eq_some_iff.mp hdep
    refine ⟨_,(Option.some.inj he).symm,_,?_,byTime_acts i.tgt _ 0 (UInt32.ofInt window) now ⟨b,[],[]⟩⟩
    exact List.forall_mem_singleton.mpr rfl
  · exact absurd trivial h

/-- Handle a registration and deliver its message to a worker. -/
def register (self : CoordIdentity) (node : Address) (now tick : ℤ) (reg : AppRegistration)
    (s : CoordState×WorkerTables) : Option (CoordState×WorkerTables) := do
  let r ← appRegisterHandler self now s.1 reg
  let w ← (addressed node (updatesOf r.2)).foldlM (recvUpdate tick) s.2
  some (r.1,w)

/-- The owners and routes of buckets and the direct dependencies are the same,
and all later objects start the same functions equally often. -/
structure SameEffect (s' s : CoordState×WorkerTables) : Prop where
  /-- Owners of buckets, on the coordinator. -/
  owners : SameOwners s'.1 s.1
  workerOwners : s'.2.bucketAppMap=s.2.bucketAppMap
  routes : s'.2.bucketCoordMap=s.2.bucketCoordMap
  direct : ∀ app,(s'.2.appInfoMap.getD app .unset).directDeps=
    (s.2.appInfoMap.getD app .unset).directDeps
  /-- Functions started by the coordinator. -/
  coordFires : ∀ is f,(fired coordReact s'.1 is).count f=(fired coordReact s.1 is).count f
  /-- Functions started by the worker. -/
  workerFires : ∀ is f,(fired workerReact s'.2 is).count f=(fired workerReact s.2 is).count f

theorem register_iff {self : CoordIdentity} {node : Address} {tick : ℤ} {reg : AppRegistration}
    {s s' : CoordState×WorkerTables} (hnode : s.1.nodeStatusMap.contains node=true) :
    register self node now tick reg s=some s' ↔
      ∃ items,List.Forall₂ (Reads now) (bucketOnes reg.dependencies) items ∧
        s'.1=items.foldl (install reg.appName) s.1 ∧
        addUpdate tick s.2 (registrationMsg self reg items)=some s'.2 := by
  have hsent : ∀ items,(addressed node (updatesOf (broadcast (items.foldl (install reg.appName) s.1)
      (registrationMsg self reg items)))).foldlM (recvUpdate tick) s.2=
        addUpdate tick s.2 (registrationMsg self reg items) := by
    intro items
    rw [addressed_broadcast (by rw [foldl_install_nodes]; exact hnode),List.foldlM_cons]
    exact bind_pure _
  rw [register,Option.bind_eq_bind,Option.bind_eq_some_iff]
  constructor
  · rintro ⟨r,hr,hw⟩
    obtain ⟨items,hitems,hst,hout⟩ := appRegisterHandler_iff.mp hr
    obtain ⟨w,hw,hs'⟩ := Option.bind_eq_some_iff.mp hw
    rw [hout,hst,hsent] at hw
    rw [←Option.some.inj hs']
    exact ⟨items,hitems,hst,hw⟩
  · rintro ⟨items,hitems,hst,hw⟩
    refine ⟨(s'.1,_),appRegisterHandler_iff.mpr ⟨items,hitems,hst,rfl⟩,?_⟩
    refine Option.bind_eq_some_iff.mpr ⟨s'.2,?_,rfl⟩
    dsimp only
    rw [hst,hsent]
    exact hw

theorem count_fired_eq {σ ι : Type} {react : σ → ι → σ×List Str} {rel : σ → σ → Prop}
    (h : Bisimulation react react rel Eq) {s' s : σ} (hs : rel s' s) (is : List ι) (f : Str) :
    (fired react s' is).count f=(fired react s is).count f := by
  have hsame : outputs react s' is=outputs react s is := List.forall₂_eq_eq_eq ▸ h.outputs hs is
  rw [fired,hsame]
  rfl

/-- A trigger that acts makes a registration felt. -/
theorem counts_differ (app : Str) {items : List Reading} (hi : i∈items) (ht : i.trigger=some t)
    (hacts : Acts i.bucket t) (st : CoordState) :
    ∃ is f,(fired coordReact (items.foldl (install app) st) is).count f≠
      (fired coordReact st is).count f := by
  obtain ⟨is,hb,hpos⟩ := hacts
  refine ⟨reports is,t.targetFunction,?_⟩
  have hle := firedCount_le_of_mem (mem_addedTriggers.mpr ⟨i,hi,rfl,ht⟩) t.targetFunction is
  rw [count_fired_reports _ hb,count_fired_reports _ hb,foldl_install_triggers,firedCount_append]
  omega

section Again

variable {self : CoordIdentity} {reg : AppRegistration} {items : List Reading}
  {u : WorkerTables} (hitems : List.Forall₂ (Reads now) (bucketOnes reg.dependencies) items)
include hitems

/-- A registration that is not felt has triggers that never act. -/
theorem harmless_of_sameEffect (hsame : SameEffect (items.foldl (install reg.appName) st,w) (st,u)) :
    ∀ dep∈reg.dependencies,Harmless dep := by
  intro dep hdep
  by_contra hnot
  have hbucket : dep.type≠.direct := by
    intro hdirect
    refine hnot ?_
    rw [Harmless,hdirect]
    trivial
  obtain ⟨i,hi,hreads⟩ := exists_reading hitems (mem_bucketOnes.mpr ⟨hdep,hbucket⟩)
  obtain ⟨t,ht,hacts⟩ := acts_of_not_harmless hreads hnot i.bucket
  obtain ⟨is,f,hne⟩ := counts_differ reg.appName hi ht hacts st
  exact hne (hsame.coordFires is f)

/-- A registration of what is known, with triggers that never act, is not felt. -/
theorem sameEffect_of_harmless (howned : ∀ i∈items,Owned reg.appName i.bucket st)
    (hknown : Known (registrationMsg self reg items) u) {tick : ℤ}
    (hw : addUpdate tick u (registrationMsg self reg items)=some w)
    (hharmless : ∀ dep∈reg.dependencies,Harmless dep) :
    SameEffect (items.foldl (install reg.appName) st,w) (st,u) := by
  have hread : ∀ i∈items,∃ dep,Reads now dep i ∧ Harmless dep := by
    intro i hi
    obtain ⟨dep,hdep,hreads⟩ := exists_dep hitems hi
    exact ⟨dep,hreads,hharmless dep (mem_bucketOnes.mp hdep).1⟩
  have hcoord : CoordExtends (items.foldl (install reg.appName) st) st := by
    intro b
    refine ⟨addedTriggers b items,fun t ht => ?_,foldl_install_triggers _ _ _ _⟩
    obtain ⟨i,hi,-,hit⟩ := mem_addedTriggers.mp ht
    obtain ⟨dep,hreads,hdep⟩ := hread i hi
    exact barren_of_harmless hreads hdep hit
  have hworker : Repeats w u := by
    refine repeats_of_addUpdate hknown (fun entity he t ht => ?_) hw
    obtain ⟨i,hi,rfl⟩ := List.mem_map.mp he
    obtain ⟨dep,hreads,hdep⟩ := hread i hi
    exact entity_barren hreads hdep ht
  exact ⟨sameOwners_foldl_install howned,hworker.owners,hworker.routes,hworker.direct,
    count_fired_eq coord_bisimulation hcoord,count_fired_eq worker_bisimulation hworker.toWorkerExtends⟩

end Again

/-- After a registration and any objects, the same registration succeeds
again, and it is without effect exactly if no dependency has a trigger that
can act. -/
theorem registration_idempotent_iff (self : CoordIdentity) (node : Address) (reg : AppRegistration)
    (now tick now' tick' : ℤ) {s s1 : CoordState×WorkerTables}
    (hnode : s.1.nodeStatusMap.contains node=true) (h : register self node now tick reg s=some s1)
    (notes : List Report) (inputs : List WorkerInput) :
    ∃ s2,register self node now' tick' reg
        (after coordReact s1.1 notes,after workerReact s1.2 inputs)=some s2 ∧
      (SameEffect s2 (after coordReact s1.1 notes,after workerReact s1.2 inputs) ↔
        ∀ dep∈reg.dependencies,Harmless dep) := by
  obtain ⟨items,hitems,hst,hw⟩ := (register_iff hnode).mp h
  obtain ⟨items',hitems',hbuckets⟩ := readings_again hitems now'
  have hnode1 : (after coordReact s1.1 notes).nodeStatusMap.contains node=true := by
    have hstep : ∀ st i,st.nodeStatusMap.contains node=true →
        (coordReact st i).1.nodeStatusMap.contains node=true := fun _ _ hc => hc
    refine after_invariant hstep ?_ notes
    rw [hst,foldl_install_nodes]
    exact hnode
  have hsource : ∀ i∈items',∃ j∈items,j.bucket=i.bucket := by
    intro i hi
    have hmem : i.bucket∈items.map Reading.bucket := hbuckets ▸ List.mem_map_of_mem hi
    exact List.mem_map.mp hmem
  have howned : ∀ i∈items',Owned reg.appName i.bucket (after coordReact s1.1 notes) := by
    intro i hi
    refine owned_after ?_ notes
    obtain ⟨j,hj,hjb⟩ := hsource i hi
    rw [hst,←hjb]
    exact owned_foldl_install reg.appName items s.1 j hj
  have hknown : Known (registrationMsg self reg items') (after workerReact s1.2 inputs) := by
    refine known_after ?_ inputs
    obtain ⟨hfunctions,htargets,hentities⟩ := known_of_addUpdate hw
    refine ⟨hfunctions,htargets,fun entity he => ?_⟩
    obtain ⟨i,hi,rfl⟩ := List.mem_map.mp he
    obtain ⟨j,hj,hjb⟩ := hsource i hi
    rw [entity_bucketName,←hjb,←entity_bucketName]
    exact hentities j.entity (List.mem_map_of_mem hj)
  have hagain : ∃ w2,addUpdate tick' (after workerReact s1.2 inputs)
      (registrationMsg self reg items')=some w2 := by
    refine addUpdate_again hw ?_ tick' _
    rfl
  obtain ⟨w2,hw2⟩ := hagain
  refine ⟨(items'.foldl (install reg.appName) (after coordReact s1.1 notes),w2),
    (register_iff hnode1).mpr ⟨items',hitems',rfl,hw2⟩,harmless_of_sameEffect hitems',?_⟩
  exact sameEffect_of_harmless hitems' howned hknown hw2

/-- A coordinator with one worker, both without tables. -/
def unregistered : CoordState×WorkerTables := (⟨∅,∅,∅,∅,∅,∅,oneNode,0⟩,.start)

/-- An application with one dependency. -/
def oneDependency (dep : DataDependency) : AppRegistration :=
  ⟨str "app",[str "f",str "g",str "h"],[dep]⟩

/-- Handle the same registration twice. -/
def registerTwice (dep : DataDependency) :
    Option ((CoordState×WorkerTables)×CoordState×WorkerTables) := do
  let s1 ← register ⟨str "10.0.0.9",0⟩ (str "10.0.0.1") 0 0 (oneDependency dep) unregistered
  let s2 ← register ⟨str "10.0.0.9",0⟩ (str "10.0.0.1") 0 0 (oneDependency dep) s1
  some (s1,s2)

/-- An object that an application without direct dependencies puts. -/
def putObject (bk : BucketKey) : WorkerInput := .put (str "f") [] bk 0

theorem registration_idempotent_direct : ∃ s1 s2,
    register ⟨str "10.0.0.9",0⟩ (str "10.0.0.1") 0 0 (oneDependency ⟨.direct,[str "f"],[str "g"],[]⟩)
      unregistered=some s1 ∧
    register ⟨str "10.0.0.9",0⟩ (str "10.0.0.1") 5 5 (oneDependency ⟨.direct,[str "f"],[str "g"],[]⟩)
      (s1.1,after workerReact s1.2 [putObject ⟨str "b_h",str "k_f",str "s"⟩])=some s2 ∧
    SameEffect s2 (s1.1,after workerReact s1.2 [putObject ⟨str "b_h",str "k_f",str "s"⟩]) := by
  have hfirst : ∃ s1,register ⟨str "10.0.0.9",0⟩ (str "10.0.0.1") 0 0
      (oneDependency ⟨.direct,[str "f"],[str "g"],[]⟩) unregistered=some s1 :=
    Option.isSome_iff_exists.mp (by decide +kernel)
  obtain ⟨s1,h1⟩ := hfirst
  obtain ⟨s2,h2,hiff⟩ := registration_idempotent_iff ⟨str "10.0.0.9",0⟩ (str "10.0.0.1")
    (oneDependency ⟨.direct,[str "f"],[str "g"],[]⟩) 0 0 5 5 (by decide +kernel) h1 []
    [putObject ⟨str "b_h",str "k_f",str "s"⟩]
  exact ⟨s1,s2,h1,h2,hiff.mpr (by decide +kernel)⟩

/-- Two objects that a join waits for. -/
def joinObjects : List BucketKey :=
  [⟨str "b_h",str "k_f",str "s"⟩,⟨str "b_h",str "k_g",str "s"⟩]

/-- A join of two functions that is registered twice starts its target twice. -/
theorem join_registered_twice : ∃ r,registerTwice ⟨.manyToOne,[str "f",str "g"],[str "h"],[]⟩=some r ∧
    (fired workerReact r.1.2 (joinObjects.map putObject)).count (str "h")=1 ∧
    (fired workerReact r.2.2 (joinObjects.map putObject)).count (str "h")=2 ∧
    (fired coordReact r.1.1 (joinObjects.map fun bk => ⟨bk,[],0⟩)).count (str "h")=1 ∧
    (fired coordReact r.2.1 (joinObjects.map fun bk => ⟨bk,[],0⟩)).count (str "h")=2 := by
  have hcomputed : ((registerTwice ⟨.manyToOne,[str "f",str "g"],[str "h"],[]⟩).map fun r =>
      decide ((fired workerReact r.1.2 (joinObjects.map putObject)).count (str "h")=1 ∧
        (fired workerReact r.2.2 (joinObjects.map putObject)).count (str "h")=2 ∧
        (fired coordReact r.1.1 (joinObjects.map fun bk => ⟨bk,[],0⟩)).count (str "h")=1 ∧
        (fired coordReact r.2.1 (joinObjects.map fun bk => ⟨bk,[],0⟩)).count (str "h")=2))=
      some true := by decide +kernel
  exact exists_of_decided hcomputed

end Pheromone.RegistrationIdempotence
