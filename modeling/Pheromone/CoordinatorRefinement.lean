import Pheromone.DispatchCapacity
import Pheromone.BucketNetwork

/-!
# The notification handler as a step of the bucket network

Where the objects held by triggers have recorded addresses the handler has a
result, and on the report of one object it does what a step of the bucket
network does.
-/

namespace Pheromone.CoordinatorRefinement

open UnorderedContainers CommonNames TriggerPrimitives OperationMessages
open CoordinatorNotify DispatchCapacity BucketNetwork

/-- Recorded addresses of an object. -/
def addressesOf (m : UMap Bucket (UMap Key (USet Address))) (bucket : Bucket) (key : Key) :
    USet Address := (m.getD bucket ∅).getD key ∅

/-- A set trigger only records keys of its set. -/
def Sound : TriggerState → Prop
  | .bySet t => ∀ session,∀ key∈t.sessionPreparedKeysMap.getD session ∅,key∈t.keySet
  | _ => True

/-- A trigger whose held objects all satisfy a condition on their keys. -/
structure HoldsOnly (known : Key → Prop) (s : TriggerState) : Prop where
  /-- The trigger is well formed. -/
  sound : Sound s
  /-- Every held object satisfies the condition. -/
  held : ∀ o,Holds s o → known o.2

/-- Every held object has an address, and every address a host part. -/
structure Located (st : CoordState) : Prop where
  triggers : ∀ bucket,∀ t∈st.bucketTriggersMap.getD bucket [],
    HoldsOnly (fun key => (addressesOf st.bucketKeyAddressMap bucket key).elems≠[]) t.state
  hosts : ∀ bucket key,∀ ip∈addressesOf st.bucketKeyAddressMap bucket key,6≤ ip.length

/-- An address entry names a data server with a host part. -/
def Addressed (address : BucketKeyAddress) : Prop := ∃ ip,address.ips.head?=some ip ∧ 6≤ ip.length

variable {ip : Address}

theorem hostOf_eq_some (h : 6≤ ip.length) :
    hostOf ip=some (DelimitedText.terminated 58 (ip.drop 6)) := if_neg (not_lt.mpr h)

theorem mem_addressesOf_update {m : UMap Bucket (UMap Key (USet Address))} {bk : BucketKey}
    {x : Address} {bucket : Bucket} {key : Key} :
    x∈addressesOf (updateAddress bk ip m) bucket key ↔
      (bucket=bk.bucket ∧ key=bk.key ∧ x=ip) ∨ x∈addressesOf m bucket key := by
  unfold addressesOf updateAddress
  dsimp only
  rw [UMap.getD_set]
  by_cases hb : bucket=bk.bucket
  · subst hb
    rw [if_pos rfl,UMap.getD_set]
    by_cases hk : key=bk.key
    · subst hk
      rw [if_pos rfl,USet.mem_insert]
      simp
    · simp [hk]
  · simp [hb]

theorem elems_ne_nil_iff {s : USet Address} : s.elems≠[] ↔ ∃ ip,ip∈s := by
  constructor
  · exact List.exists_mem_of_ne_nil _
  · rintro ⟨ip,hip⟩
    exact List.ne_nil_of_mem hip

section Arrival

variable {known : Session×Key → Prop} {target : Str} {now : ℤ} {bk : BucketKey}

/-- A trigger whose held objects all satisfy a condition. -/
structure Contents (known : Session×Key → Prop) (s : TriggerState) : Prop where
  /-- The trigger is well formed. -/
  sound : Sound s
  /-- Every held object satisfies the condition. -/
  held : ∀ o,Holds s o → known o

/-- Whether a trigger keeps keys without their sessions. -/
def keepsKeysOnly : TriggerState → Bool
  | .dynamicGroup _ => true
  | _ => false

/-- An arrived object satisfies the condition, in every session if the
trigger keeps the key only. -/
structure ArrivesKnown (known : Session×Key → Prop) (s : TriggerState) (bk : BucketKey) : Prop where
  object : known (bk.session,bk.key)
  key : keepsKeysOnly s=true → ∀ session,known (session,bk.key)

/-- An open buffer with the arrived object holds known objects only. -/
theorem known_of_mem_buffer {buffer : List (Session×Key)} (h : ∀ o∈buffer,known o)
    (hbk : known (bk.session,bk.key)) : ∀ o∈buffer++[(bk.session,bk.key)],known o := by
  intro o ho
  rcases List.mem_append.mp ho with ho|ho
  · exact h o ho
  · rw [List.mem_singleton.mp ho]
    exact hbk

variable {s : TriggerState} {o : Session×Key}

/-- A trigger hands out objects it holds and the arrived one. -/
theorem Contents.action (h : Contents known s) (hbk : known (bk.session,bk.key))
    {action : TriggerAction} (ha : action∈(s.actionForNewObject target now bk).2)
    (ho : o∈action.sessionKeys) : known o := by
  cases s with
  | immediate t =>
    simp only [TriggerState.actionForNewObject,ImmediateTrigger.actionForNewObject,
      List.mem_singleton] at ha
    subst ha
    rw [List.mem_singleton.mp ho]
    exact hbk
  | byName t =>
    simp only [TriggerState.actionForNewObject,ByNameTrigger.actionForNewObject] at ha
    split at ha
    · rw [List.mem_singleton] at ha
      subst ha
      rw [List.mem_singleton.mp ho]
      exact hbk
    · cases ha
  | byBatchSize t =>
    simp only [TriggerState.actionForNewObject,ByBatchSizeTrigger.actionForNewObject] at ha
    split at ha
    · rw [List.mem_singleton] at ha
      subst ha
      exact known_of_mem_buffer h.held hbk o ho
    · cases ha
  | bySet t =>
    simp only [TriggerState.actionForNewObject,BySetTrigger.actionForNewObject] at ha
    split at ha
    · rename_i hk
      split at ha
      · rename_i hsize
        rw [List.mem_singleton] at ha
        subst ha
        obtain ⟨key,hkey,rfl⟩ := List.mem_map.mp ho
        have hsub : ∀ a∈(t.sessionPreparedKeysMap.getD bk.session ∅).insert bk.key,a∈t.keySet := by
          intro a ha
          rcases USet.mem_insert.mp ha with rfl|ha
          · exact hk
          · exact h.sound bk.session a ha
        have hprep := USet.mem_of_subset_of_size_le hsub hsize.ge (USet.mem_def.mpr hkey)
        rcases USet.mem_insert.mp hprep with rfl|hprep
        · exact hbk
        · exact h.held (bk.session,key) hprep
      · cases ha
    · cases ha
  | dynamicGroup t =>
    simp only [TriggerState.actionForNewObject,DynamicGroupTrigger.actionForNewObject] at ha
    generalize (if bk.key∈t.controlGroup then t.curControlKeys.insert bk.key else
      t.curControlKeys)=control at ha
    split at ha
    · split at ha
      · obtain ⟨e,he,rfl⟩ := List.mem_map.mp ha
        obtain ⟨key,hkey,rfl⟩ := List.mem_map.mp ho
        exact h.held (bk.session,key) ⟨e,he,USet.mem_def.mpr hkey⟩
      · cases ha
    · cases ha
  | redundant t =>
    simp only [TriggerState.actionForNewObject,RedundantTrigger.actionForNewObject] at ha
    split at ha
    · split at ha
      · rw [List.mem_singleton] at ha
        subst ha
        exact known_of_mem_buffer h.held hbk o ho
      · cases ha
    · split at ha <;> cases ha
  | byTime t =>
    simp only [TriggerState.actionForNewObject,ByTimeTrigger.actionForNewObject] at ha
    split at ha
    · rw [List.mem_singleton] at ha
      subst ha
      exact known_of_mem_buffer h.held hbk o ho
    · cases ha

/-- A set trigger holds what it held and the arrived key at most. -/
theorem Contents.bySet_arrive {t : BySetTrigger} (h : Contents known (.bySet t))
    (hbk : known (bk.session,bk.key)) :
    Contents known ((TriggerState.bySet t).actionForNewObject target now bk).1 := by
  obtain ⟨hs,hh⟩ := h
  simp only [TriggerState.actionForNewObject,BySetTrigger.actionForNewObject]
  split
  · rename_i hk
    split
    · constructor
      · intro session key hkey
        rw [UMap.getD_erase] at hkey
        split at hkey
        · exact absurd hkey (USet.not_mem_empty _)
        · rename_i hne
          rw [UMap.getD_set,if_neg hne] at hkey
          exact hs session key hkey
      · intro o ho
        simp only [Holds,UMap.getD_erase] at ho
        split at ho
        · exact absurd ho (USet.not_mem_empty _)
        · rename_i hne
          rw [UMap.getD_set,if_neg hne] at ho
          exact hh o ho
    · constructor
      · intro session key hkey
        rw [UMap.getD_set] at hkey
        split at hkey
        · rcases USet.mem_insert.mp hkey with rfl|hkey
          · exact hk
          · exact hs _ key hkey
        · exact hs session key hkey
      · intro o ho
        simp only [Holds,UMap.getD_set] at ho
        split at ho
        · rename_i hsession
          have hpair : o=(bk.session,o.2) := Prod.ext hsession rfl
          rcases USet.mem_insert.mp ho with ho|ho
          · rw [hpair,ho]
            exact hbk
          · rw [hpair]
            exact hh (bk.session,o.2) ho
        · exact hh o ho
  · exact ⟨hs,hh⟩

/-- A group trigger holds known objects, whatever the session. -/
theorem Contents.dynamicGroup_arrive {t : DynamicGroupTrigger} (h : Contents known (.dynamicGroup t))
    (hkey : ∀ session,known (session,bk.key)) :
    Contents known ((TriggerState.dynamicGroup t).actionForNewObject target now bk).1 := by
  have hh := h.held
  simp only [TriggerState.actionForNewObject,DynamicGroupTrigger.actionForNewObject]
  generalize (if bk.key∈t.controlGroup then t.curControlKeys.insert bk.key else
    t.curControlKeys)=control
  split
  · split
    · refine ⟨trivial,?_⟩
      rintro o ⟨e,he,-⟩
      exact absurd he List.not_mem_nil
    · exact ⟨trivial,hh⟩
  · refine ⟨trivial,?_⟩
    rintro o ⟨⟨group,keys⟩,he,ho⟩
    rw [←UMap.find?_eq_some_iff,UMap.find?_set] at he
    split at he
    · rw [Option.some.injEq] at he
      dsimp only at ho
      rw [←he] at ho
      rcases USet.mem_insert.mp ho with ho|ho
      · have hpair : o=(o.1,bk.key) := Prod.ext rfl ho
        rw [hpair]
        exact hkey o.1
      · unfold UMap.getD at ho
        cases hf : t.dataGroupKeysMap.find? (groupOf bk.key) with
        | none => rw [hf] at ho; exact absurd ho (USet.not_mem_empty _)
        | some keys' =>
          rw [hf] at ho
          exact hh o ⟨_,UMap.find?_eq_some_iff.mp hf,ho⟩
    · exact hh o ⟨_,UMap.find?_eq_some_iff.mp he,ho⟩

/-- After an arrival a trigger holds what it held and the arrived object at most. -/
theorem Contents.arrive (h : Contents known s) (hnew : ArrivesKnown known s bk) :
    Contents known (s.actionForNewObject target now bk).1 := by
  obtain ⟨hs,hh⟩ := h
  have hbk := hnew.object
  cases s with
  | immediate t => exact ⟨trivial,fun _ ho => ho.elim⟩
  | byName t => exact ⟨trivial,fun _ ho => ho.elim⟩
  | byBatchSize t =>
    simp only [TriggerState.actionForNewObject,ByBatchSizeTrigger.actionForNewObject]
    split
    · exact ⟨trivial,fun _ ho => absurd ho List.not_mem_nil⟩
    · exact ⟨trivial,known_of_mem_buffer hh hbk⟩
  | bySet t => exact Contents.bySet_arrive ⟨hs,hh⟩ hbk
  | dynamicGroup t => exact Contents.dynamicGroup_arrive ⟨hs,hh⟩ (hnew.key rfl)
  | redundant t =>
    simp only [TriggerState.actionForNewObject,RedundantTrigger.actionForNewObject]
    split
    · split
      · exact ⟨trivial,fun _ ho => absurd ho List.not_mem_nil⟩
      · exact ⟨trivial,known_of_mem_buffer hh hbk⟩
    · split <;> exact ⟨trivial,hh⟩
  | byTime t =>
    simp only [TriggerState.actionForNewObject,ByTimeTrigger.actionForNewObject]
    split
    · exact ⟨trivial,fun _ ho => absurd ho List.not_mem_nil⟩
    · exact ⟨trivial,known_of_mem_buffer hh hbk⟩

theorem contents_iff_holdsOnly {known : Key → Prop} :
    Contents (fun o => known o.2) s ↔ HoldsOnly known s :=
  ⟨fun h => ⟨h.sound,h.held⟩,fun h => ⟨h.sound,h.held⟩⟩

theorem keepsKeysOnly_arrive (s : TriggerState) :
    keepsKeysOnly (s.actionForNewObject target now bk).1=keepsKeysOnly s := by
  cases s <;> rfl

end Arrival

section Progress

variable (cfg : CoordConfig) (req : KeyNotifyRequest) (bk : BucketKey) (trigger : Trigger)

/-- A list on which a partial function is defined everywhere is mapped, and
what holds of every value holds of the result. -/
theorem exists_mapM {α β : Type*} {f : α → Option β} {P : β → Prop} {l : List α}
    (h : ∀ x∈l,∃ y,f x=some y ∧ P y) : ∃ ys,l.mapM f=some ys ∧ ∀ y∈ys,P y := by
  induction l with
  | nil => exact ⟨[],rfl,by simp⟩
  | cons x l ih =>
    obtain ⟨y,hy,hp⟩ := h x List.mem_cons_self
    obtain ⟨ys,hys,hps⟩ := ih fun z hz => h z (List.mem_cons_of_mem _ hz)
    refine ⟨y::ys,?_,List.forall_mem_cons.mpr ⟨hp,hps⟩⟩
    rw [List.mapM_cons,hy,hys]
    rfl

/-- What a partial function has mapped, element by element. -/
theorem forall₂_mapM {α β : Type*} {f : α → Option β} {l : List α} {ys : List β}
    (h : l.mapM f=some ys) : List.Forall₂ (fun x y => f x=some y) l ys := by
  induction l generalizing ys with
  | nil =>
    cases h
    exact List.Forall₂.nil
  | cons x l ih =>
    rw [List.mapM_cons] at h
    obtain ⟨y,hy,h⟩ := Option.bind_eq_some_iff.mp h
    obtain ⟨ys',hys,h⟩ := Option.bind_eq_some_iff.mp h
    cases h
    exact List.Forall₂.cons hy (ih hys)

/-- A map that succeeds everywhere drops nothing. -/
theorem filterMap_of_mapM {α β : Type*} {f : α → Option β} {l : List α} {ys : List β}
    (h : l.mapM f=some ys) : l.filterMap f=ys := by
  have hall := forall₂_mapM h
  clear h
  induction hall with
  | nil => rfl
  | cons hx _ ih => rw [List.filterMap_cons_some hx,ih]

/-- Where a mapped element comes from. -/
theorem exists_of_mem_mapM {α β : Type*} {f : α → Option β} {l : List α} {ys : List β}
    (h : l.mapM f=some ys) {y : β} (hy : y∈ys) : ∃ x∈l,f x=some y := by
  rw [←filterMap_of_mapM h] at hy
  exact List.mem_filterMap.mp hy

variable {st : CoordState} {action : TriggerAction}

/-- The arguments of an action of located objects can be built. -/
theorem packArguments_isSome (hl : Located st) {bucket : Bucket} (argFlag : ℤ)
    (h : ∀ o∈action.sessionKeys,(addressesOf st.bucketKeyAddressMap bucket o.2).elems≠[]) :
    ∃ r,packArguments cfg st bucket argFlag action=some r := by
  unfold packArguments
  split
  · exact ⟨_,rfl⟩
  · have hkeys : ∃ arguments,keyArguments cfg st bucket argFlag action=some arguments ∧
        ∀ arg∈arguments,6≤arg.dataAddress.length := by
      apply exists_mapM
      intro o ho
      obtain ⟨ip,hip,hfirst⟩ : ∃ ip∈addressesOf st.bucketKeyAddressMap bucket o.2,
        ((st.bucketKeyAddressMap.getD bucket ∅).getD o.2 ∅).first cfg.firstPlace=some ip :=
        USet.exists_first (h o ho)
      dsimp only
      rw [hfirst]
      exact ⟨_,rfl,hl.hosts bucket o.2 ip hip⟩
    obtain ⟨arguments,hargs,hlong⟩ := hkeys
    obtain ⟨hosts,hhosts,-⟩ := exists_mapM (f:=fun arg : Argument => hostOf arg.dataAddress)
      (P:=fun _ => True) fun arg harg => ⟨_,hostOf_eq_some (hlong arg harg),trivial⟩
    refine ⟨(arguments,USet.ofList hosts),?_⟩
    simp only [hargs,dataNodes,hhosts,Option.bind_eq_bind,Option.bind_some]

theorem Located.congr {st' : CoordState} (h : Located st)
    (ht : st'.bucketTriggersMap=st.bucketTriggersMap)
    (ha : st'.bucketKeyAddressMap=st.bucketKeyAddressMap) : Located st' := by
  constructor
  · rw [ht,ha]
    exact h.triggers
  · rw [ha]
    exact h.hosts

/-- Routing one action of located objects succeeds and touches no object table. -/
theorem dispatchAction_isSome (hl : Located st)
    (h : ∀ o∈action.sessionKeys,(addressesOf st.bucketKeyAddressMap bk.bucket o.2).elems≠[]) :
    ∃ st' d,dispatchAction cfg req bk trigger st action=some (st',d) ∧
      st'.bucketTriggersMap=st.bucketTriggersMap ∧
      st'.bucketKeyAddressMap=st.bucketKeyAddressMap := by
  obtain ⟨⟨arguments,nodes⟩,hp⟩ := packArguments_isSome cfg hl (trigger.triggerOption+1) h
  obtain ⟨st',d,hd,-⟩ := @dispatchAction_of_pack _ st cfg req bk trigger action _ hp
  obtain ⟨-,-,-,-,-,-,hst,-⟩ := dispatchAction_eq_some hd
  exact ⟨st',d,hd,by rw [hst],by rw [hst]⟩

theorem dispatchActions_isSome {actions : List TriggerAction} (hl : Located st)
    (h : ∀ action∈actions,∀ o∈action.sessionKeys,
      (addressesOf st.bucketKeyAddressMap bk.bucket o.2).elems≠[]) :
    ∃ st' ds,dispatchActions cfg req bk trigger actions st=some (st',ds) ∧
      st'.bucketTriggersMap=st.bucketTriggersMap ∧
      st'.bucketKeyAddressMap=st.bucketKeyAddressMap := by
  induction actions generalizing st with
  | nil => exact ⟨st,[],rfl,rfl,rfl⟩
  | cons action actions ih =>
    obtain ⟨st1,d,h1,ht1,ha1⟩ :=
      dispatchAction_isSome cfg req bk trigger hl (h action List.mem_cons_self)
    obtain ⟨st2,ds,h2,ht2,ha2⟩ := ih (hl.congr ht1 ha1) (by
      rw [ha1]
      exact fun x hx => h x (List.mem_cons_of_mem _ hx))
    refine ⟨st2,d::ds,?_,ht2.trans ht1,ha2.trans ha1⟩
    simp only [dispatchActions,Option.bind_eq_bind,h1,h2,Option.bind_some]

theorem dispatchResults_isSome {results : List (Trigger×List TriggerAction)} (hl : Located st)
    (h : ∀ r∈results,∀ action∈r.2,∀ o∈action.sessionKeys,
      (addressesOf st.bucketKeyAddressMap bk.bucket o.2).elems≠[]) :
    ∃ st' ds,dispatchResults cfg req bk results st=some (st',ds) ∧
      st'.bucketTriggersMap=st.bucketTriggersMap ∧
      st'.bucketKeyAddressMap=st.bucketKeyAddressMap := by
  induction results generalizing st with
  | nil => exact ⟨st,[],rfl,rfl,rfl⟩
  | cons r results ih =>
    have hr : ∀ action∈(if r.1.triggerName∈req.activeTriggerNames then [] else r.2),
        ∀ o∈action.sessionKeys,(addressesOf st.bucketKeyAddressMap bk.bucket o.2).elems≠[] := by
      intro action ha
      split at ha
      · cases ha
      · exact h r List.mem_cons_self action ha
    obtain ⟨st1,ds1,h1,ht1,ha1⟩ := dispatchActions_isSome cfg req bk r.1 hl hr
    obtain ⟨st2,ds2,h2,ht2,ha2⟩ := ih (hl.congr ht1 ha1) (by
      rw [ha1]
      exact fun x hx => h x (List.mem_cons_of_mem _ hx))
    refine ⟨st2,ds1++ds2,?_,ht2.trans ht1,ha2.trans ha1⟩
    simp only [dispatchResults,Option.bind_eq_bind,h1,h2,Option.bind_some]

/-- Advancing and routing a bucket's triggers after a located arrival. -/
theorem notifyTriggers_isSome (now : ℤ) (hl : Located st)
    (hbk : (addressesOf st.bucketKeyAddressMap bk.bucket bk.key).elems≠[]) :
    ∃ st' out,notifyTriggers cfg now req bk st=some (st',out) ∧ Located st' := by
  have hheld : ∀ r∈arrivals now (st.bucketTriggersMap.getD bk.bucket []) bk,
      HoldsOnly (fun key => (addressesOf st.bucketKeyAddressMap bk.bucket key).elems≠[]) r.1.state ∧
      ∀ action∈r.2,∀ o∈action.sessionKeys,
        (addressesOf st.bucketKeyAddressMap bk.bucket o.2).elems≠[] := by
    intro r hr
    obtain ⟨t,ht,rfl⟩ := List.mem_map.mp hr
    have hT := contents_iff_holdsOnly.mpr (hl.triggers bk.bucket t ht)
    exact ⟨contents_iff_holdsOnly.mp (hT.arrive ⟨hbk,fun _ _ => hbk⟩),
      fun action ha o ho => hT.action hbk ha ho⟩
  have hl1 : Located {st with
      bucketTriggersMap := st.bucketTriggersMap.set bk.bucket
        ((arrivals now (st.bucketTriggersMap.getD bk.bucket []) bk).map Prod.fst)} := by
    refine ⟨?_,hl.hosts⟩
    intro bucket t ht
    dsimp only at ht ⊢
    rw [UMap.getD_set] at ht
    split at ht
    · rename_i hb
      obtain ⟨r,hr,rfl⟩ := List.mem_map.mp ht
      rw [hb]
      exact (hheld r hr).1
    · exact hl.triggers bucket t ht
  obtain ⟨st1,ds,h1,ht1,ha1⟩ := dispatchResults_isSome cfg req bk hl1 fun r hr => (hheld r hr).2
  simp only [notifyTriggers,Option.bind_eq_bind,h1,Option.bind_some]
  exact ⟨st1,_,rfl,hl1.congr ht1 ha1⟩

theorem registerObject_isSome {address : BucketKeyAddress} (hl : Located st)
    (ha : Addressed address) : registerObject st address=some none ∨
      ∃ st',registerObject st address=some (some st') ∧ Located st' ∧
        (addressesOf st'.bucketKeyAddressMap address.bucket address.key).elems≠[] := by
  obtain ⟨ip,hip,hlong⟩ := ha
  have hmono : ∀ bucket key,(addressesOf st.bucketKeyAddressMap bucket key).elems≠[] →
      (addressesOf (updateAddress (getBucketKeyFromAddr address) ip st.bucketKeyAddressMap)
        bucket key).elems≠[] := by
    intro bucket key hne
    obtain ⟨x,hx⟩ := elems_ne_nil_iff.mp hne
    exact elems_ne_nil_iff.mpr ⟨x,mem_addressesOf_update.mpr (Or.inr hx)⟩
  have hnew : ∀ st' : CoordState,st'.bucketTriggersMap=st.bucketTriggersMap →
      st'.bucketKeyAddressMap=updateAddress (getBucketKeyFromAddr address) ip
        st.bucketKeyAddressMap →
      Located st' ∧ (addressesOf st'.bucketKeyAddressMap address.bucket address.key).elems≠[] := by
    intro st' ht hm
    refine ⟨⟨?_,?_⟩,?_⟩
    · rw [ht,hm]
      intro bucket t hT
      obtain ⟨hs,hh⟩ := hl.triggers bucket t hT
      exact ⟨hs,fun o ho => hmono bucket o.2 (hh o ho)⟩
    · rw [hm]
      intro bucket key x hx
      rcases mem_addressesOf_update.mp hx with ⟨-,-,rfl⟩|hx
      · exact hlong
      · exact hl.hosts bucket key x hx
    · rw [hm,elems_ne_nil_iff]
      exact ⟨ip,mem_addressesOf_update.mpr (Or.inl ⟨rfl,rfl,rfl⟩)⟩
  simp only [registerObject,Option.bind_eq_bind,hip,hostOf_eq_some hlong,Option.bind_some]
  split
  · exact Or.inr ⟨_,rfl,hnew _ rfl rfl⟩
  · split
    · exact Or.inr ⟨_,rfl,hnew _ rfl rfl⟩
    · exact Or.inl rfl

/-- On a located state the handler has a result for every request about
addressed objects, and leaves a located state. -/
theorem notifyHandler_isSome (now : ℤ) (hl : Located st) (h : ∀ a∈req.addresses,Addressed a) :
    ∃ st' out,notifyHandler cfg now st req=some (st',out) ∧ Located st' := by
  unfold notifyHandler
  generalize req.addresses=addresses at h
  induction addresses generalizing st with
  | nil => exact ⟨st,[],rfl,hl⟩
  | cons address rest ih =>
    obtain ⟨ha,hrest⟩ := List.forall_mem_cons.mp h
    rcases registerObject_isSome hl ha with h1|⟨st1,h1,hl1,hne⟩
    · refine ⟨st,[],?_,hl⟩
      simp only [notifyAddresses,Option.bind_eq_bind,h1,Option.bind_some]
    · obtain ⟨st2,out1,h2,hl2⟩ :=
        notifyTriggers_isSome cfg req (getBucketKeyFromAddr address) now hl1 hne
      obtain ⟨st3,out2,h3,hl3⟩ := ih hl2 hrest
      refine ⟨st3,out1++out2,?_,hl3⟩
      simp only [notifyAddresses,Option.bind_eq_bind,h1,h2,h3,Option.bind_some]

end Progress

/-- The produced actions are the unskipped ones of the bucket network. -/
theorem produced_named (active : List Str) (results : List (Trigger×List TriggerAction)) :
    (produced active results).map (fun p => (p.1.triggerName,p.2))=
      namedActions (unskipped active results) := by
  induction results with
  | nil => rfl
  | cons r results ih =>
    unfold produced unskipped namedActions at ih ⊢
    rw [List.flatMap_cons,List.map_append,ih]
    by_cases hr : r.1.triggerName∈active
    · rw [if_pos hr,List.filter_cons_of_neg (by simpa using hr)]
      rfl
    · rw [if_neg hr,List.filter_cons_of_pos (by simpa using hr),List.flatMap_cons,List.map_map]
      rfl

theorem filter_map_elems {α β : Type*} [DecidableEq α] (s : USet α) (a : α) (msg : β) :
    ((s.elems.map fun ip => (ip,msg)).filter fun e => decide (e.1=a)).map Prod.snd=
      if a∈s then [msg] else [] := by
  have hf : s.elems.filter (fun ip => decide (ip=a))=if a∈s then [a] else [] := by
    rw [List.filter_eq,List.Nodup.count s.nodup]
    split
    · rename_i h
      rw [if_pos (USet.mem_def.mpr h)]
      rfl
    · rename_i h
      rw [if_neg (mt USet.mem_def.mp h)]
      rfl
  rw [List.filter_map,List.map_map]
  show (s.elems.filter (fun ip => decide (ip=a))).map (fun _ => msg)=_
  rw [hf]
  split <;> rfl

variable {ι : Type*} [DecidableEq ι]

/-- The coordinator's tables hold the network's view of a bucket; workers
are known by their addresses. -/
structure Agrees (node : ι → Address) (bucket : Bucket) (n : BucketNet ι) (st : CoordState) : Prop where
  registered : st.bucketAppMap.contains bucket=true
  /-- The same triggers in the same states. -/
  triggers : st.bucketTriggersMap.getD bucket []=n.coord
  /-- The same workers have reported. -/
  nodes : ∀ w,node w∈st.bucketNodeMap.getD bucket ∅ ↔ w∈n.nodes

/-- On the report of one object the handler does what a step of the bucket
network does: the tables agree again, the dispatched actions are the fired
ones and every worker is sent the same clears. -/
theorem notifyHandler_refines_notify {node : ι → Address} (hinj : Function.Injective node)
    {cfg : CoordConfig} {now : ℤ} {n : BucketNet ι} {st st' : CoordState} {out : List CoordOut}
    {address : BucketKeyAddress} {w : ι} {msg : Notification} {rest : List Notification}
    {responseAddress : Address} (h : Agrees node address.bucket n st)
    (hmsg : msg.bucketKey=getBucketKeyFromAddr address) (hip : address.ips.head?=some ip)
    (hhost : hostOf ip=some (node w))
    (hs : notifyHandler cfg now st ⟨responseAddress,[address],msg.activeTriggerNames⟩=
      some (st',out)) :
    Agrees node address.bucket (BucketNetwork.notify n w msg rest now) st' ∧
      (BucketNetwork.notify n w msg rest now).fired=
        n.fired++(dispatches out).map (fun d => ⟨none,d.trigger.triggerName,d.action⟩) ∧
      ∀ v,(BucketNetwork.notify n w msg rest now).updates v=
        n.updates v++((updates out).filter fun e => decide (e.1=node v)).map Prod.snd := by
  simp only [notifyHandler,notifyAddresses,Option.bind_eq_bind,Option.bind_eq_some_iff] at hs
  obtain ⟨r,hr,hs⟩ := hs
  obtain ⟨ip',host,st1,hip',hhost',rfl,htrig,-,happ,hnodes⟩ := registerObject_spec h.registered hr
  obtain rfl : ip=ip' := Option.some.inj (hip.symm.trans hip')
  obtain rfl : node w=host := Option.some.inj (hhost.symm.trans hhost')
  obtain ⟨⟨st2,out1⟩,h1,hs⟩ := Option.bind_eq_some_iff.mp hs
  simp only [Option.bind_some,List.append_nil,Option.some.injEq,Prod.mk.injEq] at hs
  obtain ⟨rfl,rfl⟩ := hs
  have hres : arrivals now n.coord msg.bucketKey=
      arrivals now (st1.bucketTriggersMap.getD (getBucketKeyFromAddr address).bucket [])
        (getBucketKeyFromAddr address) := by
    rw [htrig,←h.triggers,hmsg]
    rfl
  obtain ⟨hp,hu,hk⟩ := notifyTriggers_spec hres h1
  have hmem : ∀ v,node v∈(st.bucketNodeMap.getD address.bucket ∅).insert (node w) ↔
      v∈insert w n.nodes := by
    intro v
    rw [USet.mem_insert,hinj.eq_iff,h.nodes v,Finset.mem_insert]
  have hset : st1.bucketNodeMap.getD address.bucket ∅=
      (st.bucketNodeMap.getD address.bucket ∅).insert (node w) := by
    rw [hnodes,UMap.getD_set_self]
  refine ⟨⟨?_,?_,?_⟩,?_,?_⟩
  · apply hk.registered
    show st1.bucketAppMap.contains address.bucket=true
    rw [happ]
    exact h.registered
  · rw [hk.triggers]
    exact UMap.getD_set_self _ _ _ _
  · intro v
    rw [hk.nodes]
    show node v∈st1.bucketNodeMap.getD address.bucket ∅ ↔ v∈insert w n.nodes
    rw [hset]
    exact hmem v
  · unfold BucketNetwork.notify
    dsimp only
    rw [←produced_named,←hp,List.map_map,List.map_map]
    rfl
  · intro v
    rw [hu]
    unfold BucketNetwork.notify clears
    dsimp only
    generalize hn : triggeredNames msg.activeTriggerNames (arrivals now n.coord msg.bucketKey)=names
    by_cases hz : names=[]
    · rw [if_pos hz,if_pos hz]
      simp
    · rw [if_neg hz,if_neg hz,filter_map_elems,hmsg]
      show (if v∈insert w n.nodes then _ else _)=n.updates v++if
        node v∈st1.bucketNodeMap.getD address.bucket ∅ then _ else _
      rw [hset]
      by_cases hv : v∈insert w n.nodes
      · rw [if_pos hv,if_pos ((hmem v).mpr hv)]
      · rw [if_neg hv,if_neg (mt (hmem v).mp hv),List.append_nil]

/-- A worker reports an object on which the only trigger fires. -/
theorem notifyHandler_refines_notify_one : ∃ st' out,
    notifyHandler oneThread 0 (oneWorker 1) oneObject=some (st',out) ∧ dispatches out≠[] ∧
    Agrees (fun _ : Unit => str "10.0.0.2") (str "b") (BucketNetwork.notify
      (.start (fun _ => []) [⟨str "f",str "t",0,.immediate ⟨∅⟩⟩]) ()
        ⟨⟨str "b",str "k",str "s"⟩,[]⟩ [] 0) st' := by
  have hagrees : Agrees (fun _ : Unit => str "10.0.0.2") (str "b")
      (.start (fun _ => []) [⟨str "f",str "t",0,.immediate ⟨∅⟩⟩]) (oneWorker 1) :=
    ⟨by decide,by decide,fun _ => iff_of_false (USet.not_mem_empty _) (Finset.notMem_empty _)⟩
  have hinj : Function.Injective fun _ : Unit => str "10.0.0.2" :=
    Function.injective_of_subsingleton _
  have hs : notifyHandler oneThread 0 (oneWorker 1) oneObject=some (_,_) := rfl
  have hhost : hostOf (str "tcp://10.0.0.2:6000")=some (str "10.0.0.2") := by decide
  have hmsg : (⟨⟨str "b",str "k",str "s"⟩,[]⟩ : Notification).bucketKey=getBucketKeyFromAddr
      ⟨str "b",str "k",str "s",[str "tcp://10.0.0.2:6000"],[]⟩ := rfl
  exact ⟨_,_,hs,by decide,
    (notifyHandler_refines_notify hinj (w:=()) hagrees hmsg rfl hhost hs).1⟩

end Pheromone.CoordinatorRefinement
