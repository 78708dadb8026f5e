import Pheromone.RequestAdmission

/-!
# Argument modes of fired actions

The mode of a call tells values from names and lengths. It is set to values
at the first cached action of a trigger and not set back after it.
-/

namespace Pheromone.ArgumentModes

open UnorderedContainers CommonNames TriggerPrimitives WorkerUpdates SchedulerState Scheduling
open SchedulingRules RequestAdmission

/-- Names of the objects of an action. -/
def objectNames (bucket : Bucket) (a : TriggerAction) : List Str :=
  a.sessionKeys.map fun sessionKey => getLocalObjectName bucket sessionKey.2 sessionKey.1

/-- The values of all objects of an action, if they are cached. -/
def cachedValues (st : SchedState) (bucket : Bucket) (a : TriggerAction) : Option (List Str) :=
  (objectNames bucket a).mapM fun name => st.keyValMap.find? name

/-- The values of all objects of an action are cached. -/
def Cached (st : SchedState) (bucket : Bucket) (a : TriggerAction) : Prop :=
  (cachedValues st bucket a).isSome=true

instance decidableCached (st : SchedState) (bucket : Bucket) (a : TriggerAction) :
    Decidable (Cached st bucket a) := inferInstanceAs (Decidable (_=true))

/-- The call for an action of a trigger with an option: the mode is that of
values exactly if the arguments are the cached values, and otherwise that of
the option with names and lengths. -/
structure Matches (st : SchedState) (bucket : Bucket) (option : ℤ) (a : TriggerAction)
    (m : TriggerFunctionMetadata) : Prop where
  function : m.funcName=a.function
  values : m.argFlag=0 ↔ cachedValues st bucket a=some m.funcArgs
  /-- Other arguments are names with lengths, in the mode of the option. -/
  pairs : cachedValues st bucket a≠some m.funcArgs →
    m.argFlag=option+1 ∧ m.funcArgs=keyedArgs st.keyLenMap (objectNames bucket a)

/-- The actions that an object fires, each with the option of its trigger. -/
def firedActions (cfg : SchedulerConfig) (st : SchedState) (bk : BucketKey) :
    List (ℤ×TriggerAction) :=
  (st.tables.bucketTriggersMap.getD bk.bucket []).flatMap fun p =>
    (p.trigger.actionForNewObject (cfg.clock st.tick) bk).2.map fun a => (p.trigger.triggerOption,a)

/-- Every call that an object asks for matches its action. -/
def ModesMatch (cfg : SchedulerConfig) (st : SchedState) (bk : BucketKey) : Prop :=
  List.Forall₂ (fun asked m => Matches st bk.bucket asked.1 asked.2 m) (firedActions cfg st bk)
    (checkObjectArrival cfg st bk).2.1

/-- No action with missing values comes after one with cached values, and
the mode of an action with missing values is not that of values. -/
def Sorted (st : SchedState) (bucket : Bucket) (option : ℤ) (acts : List TriggerAction) : Prop :=
  acts.Pairwise (fun a b => Cached st bucket a → Cached st bucket b) ∧
    ∀ a∈acts,¬Cached st bucket a → option≠-1

/-- The same values are cached and the same lengths known. -/
structure SameReads (st st' : SchedState) : Prop where
  keyValMap : st'.keyValMap=st.keyValMap
  lengths : ∀ name,st'.keyLenMap.getD name 0=st.keyLenMap.getD name 0

theorem SameReads.trans {st st' st'' : SchedState} (h : SameReads st st') (h' : SameReads st' st'') :
    SameReads st st'' :=
  ⟨h'.keyValMap.trans h.keyValMap,fun name => (h'.lengths name).trans (h.lengths name)⟩

/-- Reading lengths leaves them as they are. -/
theorem sameReads_sizedArgs (names : List Str) (st : SchedState) :
    SameReads st (sizedArgs names st).2 := by
  induction names generalizing st with
  | nil => exact ⟨rfl,fun _ => rfl⟩
  | cons name names ih =>
    have hread : SameReads st (keyLen st name).2 :=
      ⟨rfl,fun other => UMap.getD_touch st.keyLenMap name other 0⟩
    exact hread.trans (ih (keyLen st name).2)

variable {st st' : SchedState} {bucket : Bucket} {option : ℤ}

theorem SameReads.cachedValues (h : SameReads st st') (a : TriggerAction) :
    cachedValues st' bucket a=cachedValues st bucket a := by
  unfold ArgumentModes.cachedValues
  rw [h.keyValMap]

theorem SameReads.keyedArgs (h : SameReads st st') (names : List Str) :
    keyedArgs st'.keyLenMap names=keyedArgs st.keyLenMap names := by
  unfold RequestAdmission.keyedArgs
  refine List.flatMap_congr fun name _ => ?_
  rw [h.lengths]

/-- The first action, and the mode in which the others are handled. -/
theorem activeFuncMetadata_cons (st : SchedState) (bucket : Bucket) (mode : ℤ) (a : TriggerAction)
    (acts : List TriggerAction) : (activeFuncMetadata bucket mode (a::acts) st).1=
      match cachedValues st bucket a with
      | some values => ⟨a.function,values,0⟩::(activeFuncMetadata bucket 0 acts st).1
      | none => ⟨a.function,keyedArgs st.keyLenMap (objectNames bucket a),mode⟩::
          (activeFuncMetadata bucket mode acts (sizedArgs (objectNames bucket a) st).2).1 := by
  rw [activeFuncMetadata]
  cases hvalues : cachedValues st bucket a with
  | some values =>
    have hall : ((a.sessionKeys.map fun sessionKey =>
        getLocalObjectName bucket sessionKey.2 sessionKey.1).mapM fun name =>
          st.keyValMap.find? name)=some values := hvalues
    rw [hall]
  | none =>
    have hnone : ((a.sessionKeys.map fun sessionKey =>
        getLocalObjectName bucket sessionKey.2 sessionKey.1).mapM fun name =>
          st.keyValMap.find? name)=none := hvalues
    rw [hnone]
    exact congrArg (fun args => (⟨a.function,args,mode⟩ : TriggerFunctionMetadata)::_)
      (sizedArgs_fst (objectNames bucket a) st)

theorem matches_values {a : TriggerAction} {values : List Str}
    (h : cachedValues st bucket a=some values) :
    Matches st bucket option a ⟨a.function,values,0⟩ :=
  ⟨rfl,iff_of_true rfl h,fun hne => absurd h hne⟩

/-- A call with names and lengths matches if its mode is that of the option,
and not that of values. -/
theorem matches_pairs_iff {a : TriggerAction} (h : cachedValues st bucket a=none) (mode : ℤ) :
    Matches st bucket option a ⟨a.function,keyedArgs st.keyLenMap (objectNames bucket a),mode⟩ ↔
      mode=option+1 ∧ mode≠0 := by
  have hne : cachedValues st bucket a≠some (keyedArgs st.keyLenMap (objectNames bucket a)) := by
    rw [h]
    exact fun he => by cases he
  constructor
  · intro hm
    exact ⟨(hm.pairs hne).1,fun hzero => hne (hm.values.mp hzero)⟩
  · rintro ⟨hmode,hzero⟩
    exact ⟨rfl,iff_of_false hzero hne,fun _ => ⟨hmode,rfl⟩⟩

theorem SameReads.matches_iff (h : SameReads st st') {a : TriggerAction}
    {m : TriggerFunctionMetadata} :
    Matches st' bucket option a m ↔ Matches st bucket option a m := by
  constructor
  · intro hm
    refine ⟨hm.function,?_,fun hne => ?_⟩
    · rw [hm.values,h.cachedValues]
    · rw [←h.keyedArgs]
      exact hm.pairs (by rwa [h.cachedValues])
  · intro hm
    refine ⟨hm.function,?_,fun hne => ?_⟩
    · rw [hm.values,h.cachedValues]
    · rw [h.keyedArgs]
      exact hm.pairs (by rwa [h.cachedValues] at hne)

theorem SameReads.cached_iff (h : SameReads st st') {a : TriggerAction} :
    Cached st' bucket a ↔ Cached st bucket a := by
  unfold Cached
  rw [h.cachedValues]

/-- In the mode of values the calls match if all values are cached. -/
theorem values_match_iff (st : SchedState) (bucket : Bucket) (option : ℤ)
    (acts : List TriggerAction) :
    List.Forall₂ (Matches st bucket option) acts (activeFuncMetadata bucket 0 acts st).1 ↔
      ∀ a∈acts,Cached st bucket a := by
  induction acts with
  | nil => exact iff_of_true List.Forall₂.nil fun _ h => absurd h List.not_mem_nil
  | cons a acts ih =>
    rw [activeFuncMetadata_cons,List.forall_mem_cons]
    cases hvalues : cachedValues st bucket a with
    | some values =>
      have hcached : Cached st bucket a := by rw [Cached,hvalues]; rfl
      rw [List.forall₂_cons,ih]
      exact and_congr_left fun _ => iff_of_true (matches_values hvalues) hcached
    | none =>
      have hmissing : ¬Cached st bucket a := by rw [Cached,hvalues]; exact Bool.false_ne_true
      rw [List.forall₂_cons,matches_pairs_iff hvalues]
      exact iff_of_false (fun h => h.1.2 rfl) fun h => hmissing h.1

/-- The calls for the actions of a trigger match if its actions are sorted. -/
theorem option_match_iff (st : SchedState) (bucket : Bucket) (option : ℤ)
    (acts : List TriggerAction) :
    List.Forall₂ (Matches st bucket option) acts
      (activeFuncMetadata bucket (option+1) acts st).1 ↔ Sorted st bucket option acts := by
  induction acts generalizing st with
  | nil =>
    exact iff_of_true List.Forall₂.nil ⟨List.Pairwise.nil,fun _ h => absurd h List.not_mem_nil⟩
  | cons a acts ih =>
    rw [activeFuncMetadata_cons,Sorted,List.pairwise_cons,List.forall_mem_cons]
    cases hvalues : cachedValues st bucket a with
    | some values =>
      have hcached : Cached st bucket a := by rw [Cached,hvalues]; rfl
      rw [List.forall₂_cons,values_match_iff]
      constructor
      · rintro ⟨-,hall⟩
        refine ⟨⟨fun b hb _ => hall b hb,?_⟩,fun hc => absurd hcached hc,
          fun b hb hc => absurd (hall b hb) hc⟩
        exact List.pairwise_of_forall_mem_list fun b _ c hc _ => hall c hc
      · rintro ⟨⟨hfirst,-⟩,-⟩
        exact ⟨matches_values hvalues,fun b hb => hfirst b hb hcached⟩
    | none =>
      have hmissing : ¬Cached st bucket a := by rw [Cached,hvalues]; exact Bool.false_ne_true
      have hreads := sameReads_sizedArgs (objectNames bucket a) st
      have hrest := ih (sizedArgs (objectNames bucket a) st).2
      simp only [Sorted,hreads.cached_iff] at hrest
      have hmatches : List.Forall₂ (Matches (sizedArgs (objectNames bucket a) st).2 bucket option)
          acts (activeFuncMetadata bucket (option+1) acts
            (sizedArgs (objectNames bucket a) st).2).1 ↔
          List.Forall₂ (Matches st bucket option) acts (activeFuncMetadata bucket (option+1) acts
            (sizedArgs (objectNames bucket a) st).2).1 :=
        ⟨fun h => h.imp fun _ _ hm => hreads.matches_iff.mp hm,
          fun h => h.imp fun _ _ hm => hreads.matches_iff.mpr hm⟩
      rw [List.forall₂_cons,matches_pairs_iff hvalues,←hmatches,hrest]
      constructor
      · rintro ⟨⟨-,hmode⟩,hpairs,hoption⟩
        refine ⟨⟨fun b _ hc => absurd hc hmissing,hpairs⟩,fun _ => ?_,hoption⟩
        omega
      · rintro ⟨⟨-,hpairs⟩,hself,hoption⟩
        have hne := hself hmissing
        exact ⟨⟨rfl,by omega⟩,hpairs,hoption⟩

theorem sameReads_activeFuncMetadata (bucket : Bucket) (mode : ℤ) (acts : List TriggerAction)
    (st : SchedState) : SameReads st (activeFuncMetadata bucket mode acts st).2 := by
  induction acts generalizing mode st with
  | nil => exact ⟨rfl,fun _ => rfl⟩
  | cons a acts ih =>
    rw [activeFuncMetadata]
    dsimp only
    split
    · exact ih 0 st
    · exact (sameReads_sizedArgs _ st).trans (ih mode _)

theorem length_activeFuncMetadata (bucket : Bucket) (mode : ℤ) (acts : List TriggerAction)
    (st : SchedState) : (activeFuncMetadata bucket mode acts st).1.length=acts.length := by
  induction acts generalizing mode st with
  | nil => rfl
  | cons a acts ih =>
    rw [activeFuncMetadata]
    dsimp only
    split
    · exact congrArg Nat.succ (ih 0 st)
    · exact congrArg Nat.succ (ih mode _)

/-- Two lists are related part by part if the first parts are equally long. -/
theorem forall₂_append_iff {α β : Type*} {R : α → β → Prop} {l l' : List α} {m m' : List β}
    (h : l.length=m.length) :
    List.Forall₂ R (l++l') (m++m') ↔ List.Forall₂ R l m ∧ List.Forall₂ R l' m' := by
  constructor
  · intro hall
    have hfirst := List.forall₂_take_append _ _ _ hall
    have hrest := List.forall₂_drop_append _ _ _ hall
    rw [←h,List.take_left] at hfirst
    rw [←h,List.drop_left] at hrest
    exact ⟨hfirst,hrest⟩
  · rintro ⟨hfirst,hrest⟩
    exact List.rel_append hfirst hrest

/-- The calls for all triggers match if the actions of each are sorted. -/
theorem activeFuncMetadatas_match_iff (hreads : SameReads st st') (bucket : Bucket)
    (results : List (Trigger×List TriggerAction)) :
    List.Forall₂ (fun asked m => Matches st bucket asked.1 asked.2 m)
      (results.flatMap fun r => r.2.map fun a => (r.1.triggerOption,a))
      (activeFuncMetadatas bucket results st').1 ↔
    ∀ r∈results,Sorted st bucket r.1.triggerOption r.2 := by
  induction results generalizing st' with
  | nil => exact iff_of_true List.Forall₂.nil fun _ h => absurd h List.not_mem_nil
  | cons r results ih =>
    have hhead := option_match_iff st' bucket r.1.triggerOption r.2
    simp only [Sorted,hreads.cached_iff] at hhead
    have hlength : (r.2.map fun a => (r.1.triggerOption,a)).length=
        (activeFuncMetadata bucket (r.1.triggerOption+1) r.2 st').1.length := by
      rw [List.length_map,length_activeFuncMetadata]
    have hsame : List.Forall₂ (fun asked m => Matches st bucket asked.1 asked.2 m)
        (r.2.map fun a => (r.1.triggerOption,a))
        (activeFuncMetadata bucket (r.1.triggerOption+1) r.2 st').1 ↔
        List.Forall₂ (Matches st' bucket r.1.triggerOption) r.2
          (activeFuncMetadata bucket (r.1.triggerOption+1) r.2 st').1 := by
      rw [List.forall₂_map_left_iff]
      exact ⟨fun h => h.imp fun _ _ hm => hreads.matches_iff.mpr hm,
        fun h => h.imp fun _ _ hm => hreads.matches_iff.mp hm⟩
    rw [List.flatMap_cons,activeFuncMetadatas,forall₂_append_iff hlength,hsame,hhead,
      ih (hreads.trans (sameReads_activeFuncMetadata bucket _ r.2 st')),List.forall_mem_cons]
    rfl

/-- The modes of the calls that an object asks for match their arguments
exactly if the actions of every trigger are sorted. -/
theorem modes_match_iff (cfg : SchedulerConfig) (st : SchedState) (bk : BucketKey) :
    ModesMatch cfg st bk ↔ ∀ p∈st.tables.bucketTriggersMap.getD bk.bucket [],
      Sorted st bk.bucket p.trigger.triggerOption
        (p.trigger.actionForNewObject (cfg.clock st.tick) bk).2 := by
  have hreads : SameReads st (arrivedAt cfg st bk) := ⟨rfl,fun _ => rfl⟩
  have hall := activeFuncMetadatas_match_iff hreads bk.bucket (arrivals (cfg.clock st.tick)
    ((st.tables.bucketTriggersMap.getD bk.bucket []).map TriggerPointer.trigger) bk)
  rw [arrivals,List.map_map,List.flatMap_map,List.forall_mem_map] at hall
  rw [ModesMatch,checkObjectArrival_eq,arrivals,List.map_map]
  exact hall

/-- A group trigger with two groups and a missing control key. -/
def twoGroups : DynamicGroupTrigger :=
  ⟨(UMap.set ∅ (str "x") (USet.ofList [str "x:1"])).set (str "y") (USet.ofList [str "y:1"]),
    USet.ofList [str "ctrl:0"],∅⟩

/-- A worker with that trigger that has cached the object of the group `x`
only. It takes the groups in the order `x`, `y`, which a hash map of the
source has if `y:1` was put first. -/
def oneCached : SchedState :=
  let st := SchedState.start sampleConfig 1
  {st with
    tables := {st.tables with
      bucketTriggersMap := UMap.set ∅ (str "b") [⟨0,⟨str "h",str "t",0,.dynamicGroup twoGroups⟩⟩]}
    keyLenMap := UMap.set ∅ (getLocalObjectName (str "b") (str "y:1") (str "s")) 700
    keyValMap := UMap.set ∅ (getLocalObjectName (str "b") (str "x:1") (str "s")) (str "v")}

/-- The missing control key, as an object. -/
def lastControl : BucketKey := ⟨str "b",str "ctrl:0",str "s"⟩

/-- The call for the second group has the mode of values, but a name and a
length as its arguments. -/
theorem second_group_in_wrong_mode :
    (checkObjectArrival sampleConfig oneCached lastControl).2.1=
      [⟨str "h",[str "v"],0⟩,⟨str "h",[str "b|y:1s",str "700"],0⟩] ∧
    ¬ModesMatch sampleConfig oneCached lastControl := by
  have hcalls : (checkObjectArrival sampleConfig oneCached lastControl).2.1=
      [⟨str "h",[str "v"],0⟩,⟨str "h",[str "b|y:1s",str "700"],0⟩] := by decide +kernel
  have hfired : firedActions sampleConfig oneCached lastControl=
      [(0,⟨str "h",[(str "s",str "x:1")]⟩),(0,⟨str "h",[(str "s",str "y:1")]⟩)] := by decide +kernel
  have hmissing : cachedValues oneCached (str "b") ⟨str "h",[(str "s",str "y:1")]⟩=none := by
    decide +kernel
  refine ⟨hcalls,fun h => ?_⟩
  rw [ModesMatch,hcalls,hfired] at h
  have hsecond := (List.forall₂_cons.mp (List.forall₂_cons.mp h).2).1
  exact absurd (hmissing.symm.trans (hsecond.values.mp rfl)) fun he => by cases he

end Pheromone.ArgumentModes
