import Pheromone.ClosingReplicas
import Pheromone.BucketNetwork

/-!
# A dynamic group trigger on many workers fires once per round

The control keys are the closing objects of a closing collector. A round has
one action for every group of data keys.
-/

namespace Pheromone.DynamicGroupReplication

open UnorderedContainers GuardedRuns ReplicaNetwork ClosingReplicas CommonNames TriggerPrimitives
open BucketNetwork

/-- The dynamic group trigger as a collector of session keys. -/
def dynamicGroup : Replica DynamicGroupTrigger (Session×Key) (List (Session×Key)) Session where
  arrive t o :=
    let r := t.actionForNewObject [] ⟨[],o.2,o.1⟩
    (r.1,r.2.map TriggerAction.sessionKeys)
  clear t _ := t.clear
  session := Prod.fst

/-- A dynamic group trigger of a target, with the same control keys. -/
def Groups (target : Str) (T : Trigger) (s : DynamicGroupTrigger) : Prop :=
  T.targetFunction=target ∧ ∃ b : DynamicGroupTrigger,T.state=.dynamicGroup b ∧
    b.dataGroupKeysMap=s.dataGroupKeysMap ∧ b.curControlKeys=s.curControlKeys ∧
    ∀ k,k∈b.controlGroup ↔ k∈s.controlGroup

/-- An action of the target with the objects. -/
def Calls (target : Str) (a : TriggerAction) (objs : List (Session×Key)) : Prop :=
  a.function=target ∧ a.sessionKeys=objs

/-- Record a key without looking whether the round is complete. -/
def gather (s : DynamicGroupTrigger) (key : Key) : DynamicGroupTrigger :=
  if groupOf key=controlGroupPrefix then
    {s with curControlKeys := if key∈s.controlGroup then s.curControlKeys.insert key else s.curControlKeys}
  else
    {s with dataGroupKeysMap :=
      s.dataGroupKeysMap.set (groupOf key) ((s.dataGroupKeysMap.getD (groupOf key) ∅).insert key)}

/-- The objects of a round, group by group. -/
def groupActions (s : DynamicGroupTrigger) (session : Session) : List (List (Session×Key)) :=
  s.dataGroupKeysMap.entries.map fun groupKeys => groupKeys.2.elems.map fun key => (session,key)

/-- A key is recorded, and a control key that completes the round fires it. -/
theorem actionForNewObject_eq (target : Str) (s : DynamicGroupTrigger) (bk : BucketKey) :
    s.actionForNewObject target bk=
      if groupOf bk.key=controlGroupPrefix ∧
          (gather s bk.key).curControlKeys.size=s.controlGroup.size then
        (⟨∅,s.controlGroup,∅⟩,(groupActions s bk.session).map fun objs => ⟨target,objs⟩)
      else (gather s bk.key,[]) := by
  rw [DynamicGroupTrigger.actionForNewObject]
  dsimp only
  by_cases hg : groupOf bk.key=controlGroupPrefix
  · rw [if_pos hg]
    have hcur : (gather s bk.key).curControlKeys=
        if bk.key∈s.controlGroup then s.curControlKeys.insert bk.key else s.curControlKeys := by
      rw [gather,if_pos hg]
    rw [hcur]
    by_cases hsize : (if bk.key∈s.controlGroup then s.curControlKeys.insert bk.key
        else s.curControlKeys).size=s.controlGroup.size
    · rw [if_pos hsize,if_pos ⟨hg,hsize⟩,groupActions,List.map_map]
      rfl
    · have hopen : ¬(groupOf bk.key=controlGroupPrefix ∧ (if bk.key∈s.controlGroup then
          s.curControlKeys.insert bk.key else s.curControlKeys).size=s.controlGroup.size) :=
        fun h => hsize h.2
      rw [if_neg hsize,if_neg hopen,gather,if_pos hg]
  · rw [if_neg hg,if_neg fun h => hg h.1,gather,if_neg hg]

variable {s : DynamicGroupTrigger}

theorem gather_congr {b : DynamicGroupTrigger} (hdata : b.dataGroupKeysMap=s.dataGroupKeysMap)
    (hcur : b.curControlKeys=s.curControlKeys) (hcontrol : ∀ k,k∈b.controlGroup ↔ k∈s.controlGroup)
    (key : Key) : (gather b key).dataGroupKeysMap=(gather s key).dataGroupKeysMap ∧
      (gather b key).curControlKeys=(gather s key).curControlKeys ∧
      ∀ k,k∈(gather b key).controlGroup ↔ k∈(gather s key).controlGroup := by
  unfold gather
  split
  · exact ⟨hdata,by simp only [hcur,hcontrol],hcontrol⟩
  · exact ⟨by simp only [hdata],hcur,hcontrol⟩

/-- An arrival at the dynamic group trigger is one at the collector. -/
theorem groups_arrive {target : Str} {T : Trigger} (now : ℤ) (bk : BucketKey)
    (h : Groups target T s) :
    Groups target (T.actionForNewObject now bk).1 (dynamicGroup.arrive s (bk.session,bk.key)).1 ∧
      List.Forall₂ (Calls target) (T.actionForNewObject now bk).2
        (dynamicGroup.arrive s (bk.session,bk.key)).2 := by
  obtain ⟨ht,b,hb,hdata,hcur,hcontrol⟩ := h
  obtain ⟨gdata,gcur,gcontrol⟩ := gather_congr hdata hcur hcontrol bk.key
  have hsize := USet.size_eq_of_mem_iff hcontrol
  have hactions : groupActions b bk.session=groupActions s bk.session := by
    rw [groupActions,groupActions,hdata]
  simp only [Trigger.actionForNewObject,hb,TriggerState.actionForNewObject,dynamicGroup,
    actionForNewObject_eq,gcur,hsize,hactions]
  split
  · refine ⟨⟨ht,_,rfl,rfl,rfl,hcontrol⟩,?_⟩
    rw [List.map_map,List.forall₂_map_left_iff,List.forall₂_map_right_iff]
    exact List.forall₂_same.mpr fun objs _ => ⟨ht,rfl⟩
  · exact ⟨⟨ht,_,rfl,gdata,gcur,gcontrol⟩,List.Forall₂.nil⟩

/-- The dynamic group trigger as a collector of the bucket network. -/
def groupAbstraction (target : Str) :
    Abstraction DynamicGroupTrigger (Session×Key) (List (Session×Key)) where
  replica := dynamicGroup
  object bk := (bk.session,bk.key)
  Represents := Groups target
  Performs := Calls target
  arrive := groups_arrive
  clear := by
    rintro T s session ⟨ht,b,hb,-,-,hcontrol⟩
    exact ⟨ht,b.clear,by simp only [Trigger.clear,hb,TriggerState.clear],rfl,rfl,hcontrol⟩
  note := by
    rintro T s call session ⟨ht,b,hb,hrest⟩
    exact ⟨ht,b,by simp only [Trigger.notifySourceFunc,hb,TriggerState.notifySourceFunc],hrest⟩
  session _ := rfl
  cleared := by
    rintro T s ⟨-,b,hb,-⟩
    simp [Trigger.getType,hb,TriggerState.getType]

/-- A trigger that has gathered objects since its round was opened. -/
def gathered (G : USet Key) (objs : List (Session×Key)) : DynamicGroupTrigger :=
  objs.foldl (fun s o => gather s o.2) ⟨∅,G,∅⟩

theorem gathered_append (G : USet Key) (objs : List (Session×Key)) (o : Session×Key) :
    gathered G (objs++[o])=gather (gathered G objs) o.2 := by
  rw [gathered,List.foldl_append]
  rfl

theorem gather_controlGroup (s : DynamicGroupTrigger) (key : Key) :
    (gather s key).controlGroup=s.controlGroup := by
  unfold gather
  split <;> rfl

theorem gathered_controlGroup (G : USet Key) (objs : List (Session×Key)) :
    (gathered G objs).controlGroup=G := by
  induction objs using List.reverseRecOn with
  | nil => rfl
  | append_singleton objs o ih => rw [gathered_append,gather_controlGroup,ih]

variable {G : USet Key} {objs : List (Session×Key)} {k : Key}

theorem mem_gathered_control (hG : ∀ k∈G,groupOf k=controlGroupPrefix) :
    k∈(gathered G objs).curControlKeys ↔ k∈G ∧ k∈objs.map Prod.snd := by
  induction objs using List.reverseRecOn with
  | nil => simp [gathered]
  | append_singleton objs o ih =>
    rw [gathered_append,List.map_append,List.mem_append,List.map_singleton,List.mem_singleton]
    by_cases hgroup : groupOf o.2=controlGroupPrefix
    · rw [gather,if_pos hgroup]
      dsimp only
      rw [gathered_controlGroup]
      by_cases ho : o.2∈G
      · rw [if_pos ho,USet.mem_insert,ih]
        constructor
        · rintro (rfl | h)
          · exact ⟨ho,Or.inr rfl⟩
          · exact ⟨h.1,Or.inl h.2⟩
        · rintro ⟨hk,h | h⟩
          · exact Or.inr ⟨hk,h⟩
          · exact Or.inl h
      · rw [if_neg ho,ih]
        constructor
        · exact fun h => ⟨h.1,Or.inl h.2⟩
        · rintro ⟨hk,h | h⟩
          · exact ⟨hk,h⟩
          · exact absurd (h ▸ hk) ho
    · rw [gather,if_neg hgroup,ih]
      constructor
      · exact fun h => ⟨h.1,Or.inl h.2⟩
      · rintro ⟨hk,h | h⟩
        · exact ⟨hk,h⟩
        · exact absurd (h ▸ hG k hk) hgroup

variable {g : Str}

theorem mem_gathered_data :
    k∈(gathered G objs).dataGroupKeysMap.getD g ∅ ↔
      k∈objs.map Prod.snd ∧ groupOf k=g ∧ g≠controlGroupPrefix := by
  induction objs using List.reverseRecOn with
  | nil => simp [gathered]
  | append_singleton objs o ih =>
    rw [gathered_append,List.map_append,List.mem_append,List.map_singleton,List.mem_singleton]
    by_cases hgroup : groupOf o.2=controlGroupPrefix
    · rw [gather,if_pos hgroup,ih]
      constructor
      · exact fun h => ⟨Or.inl h.1,h.2⟩
      · rintro ⟨h | h,hg⟩
        · exact ⟨h,hg⟩
        · rw [h] at hg
          exact absurd (hg.1.symm.trans hgroup) hg.2
    · rw [gather,if_neg hgroup]
      dsimp only
      rw [UMap.getD_set]
      by_cases hg : g=groupOf o.2
      · rw [if_pos hg,USet.mem_insert,←hg,ih]
        constructor
        · rintro (rfl | h)
          · exact ⟨Or.inr rfl,hg.symm,hg ▸ hgroup⟩
          · exact ⟨Or.inl h.1,h.2⟩
        · rintro ⟨h | h,hk⟩
          · exact Or.inr ⟨h,hk⟩
          · exact Or.inl h
      · rw [if_neg hg,ih]
        constructor
        · exact fun h => ⟨Or.inl h.1,h.2⟩
        · rintro ⟨h | h,hk⟩
          · exact ⟨h,hk⟩
          · exact absurd (h ▸ hk.1).symm hg

/-- A group has an entry as soon as it has a key. -/
theorem contains_gathered_data :
    (gathered G objs).dataGroupKeysMap.contains g=true ↔
      ∃ k∈objs.map Prod.snd,groupOf k=g ∧ g≠controlGroupPrefix := by
  induction objs using List.reverseRecOn with
  | nil => simp [gathered,UMap.contains]
  | append_singleton objs o ih =>
    have hsplit : (∃ k∈(objs++[o]).map Prod.snd,groupOf k=g ∧ g≠controlGroupPrefix) ↔
        (∃ k∈objs.map Prod.snd,groupOf k=g ∧ g≠controlGroupPrefix) ∨
          groupOf o.2=g ∧ g≠controlGroupPrefix := by
      simp only [List.map_append,List.map_singleton,List.mem_append,List.mem_singleton,or_and_right,
        exists_or,exists_eq_left]
    rw [hsplit,gathered_append,←ih]
    by_cases hgroup : groupOf o.2=controlGroupPrefix
    · rw [gather,if_pos hgroup]
      refine (or_iff_left fun h => ?_).symm
      exact h.2 (h.1.symm.trans hgroup)
    · rw [gather,if_neg hgroup]
      dsimp only
      rw [UMap.contains_set]
      by_cases hg : g=groupOf o.2
      · subst hg
        simp [hgroup]
      · simp [hg,Ne.symm hg]

/-- The control keys as objects of a session. -/
def closingKeys (G : USet Key) (session : Session) : Finset (Session×Key) :=
  (G.elems.map fun k => (session,k)).toFinset

theorem mem_closingKeys {session : Session} {o : Session×Key} :
    o∈closingKeys G session ↔ o.1=session ∧ o.2∈G := by
  rw [closingKeys,List.mem_toFinset,List.mem_map]
  constructor
  · rintro ⟨k,hk,rfl⟩
    exact ⟨rfl,hk⟩
  · rintro ⟨hs,hk⟩
    exact ⟨o.2,hk,Prod.ext hs.symm rfl⟩

/-- Objects of the session whose control keys are among the known ones. -/
def Expected (G : USet Key) (session : Session) (o : Session×Key) : Prop :=
  o.1=session ∧ (groupOf o.2=controlGroupPrefix → o.2∈G)

/-- What a round fires. -/
def roundOutput (G : USet Key) (objs : List (Session×Key)) (o : Session×Key) :
    List (List (Session×Key)) := groupActions (gathered G objs) o.1

theorem closing_dynamicGroup (hG : ∀ k∈G,groupOf k=controlGroupPrefix) (session : Session) :
    Closing dynamicGroup (closingKeys G session) (Expected G session) (gathered G) (roundOutput G) := by
  constructor
  intro objs o hU
  have ho := hU o (by simp)
  have hkey : ∀ k,(session,k)∈objs++[o] ↔ k∈(objs++[o]).map Prod.snd := by
    intro k
    rw [List.mem_map]
    constructor
    · intro h
      exact ⟨_,h,rfl⟩
    · rintro ⟨x,hx,rfl⟩
      rw [←(hU x hx).1]
      exact hx
  have hsub : ∀ k∈(gathered G (objs++[o])).curControlKeys,k∈G :=
    fun k hk => ((mem_gathered_control hG).mp hk).1
  have hcond : (o∈closingKeys G session ∧ ∀ c∈closingKeys G session,c∈objs++[o]) ↔
      groupOf o.2=controlGroupPrefix ∧
        (gather (gathered G objs) o.2).curControlKeys.size=(gathered G objs).controlGroup.size := by
    rw [gathered_controlGroup,←gathered_append,USet.size_eq_iff_of_subset hsub,mem_closingKeys]
    constructor
    · rintro ⟨⟨-,hmem⟩,hall⟩
      refine ⟨hG _ hmem,fun k hk => (mem_gathered_control hG).mpr ⟨hk,(hkey k).mp ?_⟩⟩
      exact hall (session,k) (mem_closingKeys.mpr ⟨rfl,hk⟩)
    · rintro ⟨hgroup,hall⟩
      refine ⟨⟨ho.1,ho.2 hgroup⟩,fun c hc => ?_⟩
      obtain ⟨hs,hk⟩ := mem_closingKeys.mp hc
      have hmem := (hkey c.2).mpr ((mem_gathered_control hG).mp (hall c.2 hk)).2
      rw [←hs] at hmem
      exact hmem
  simp only [dynamicGroup,actionForNewObject_eq]
  by_cases h : groupOf o.2=controlGroupPrefix ∧
      (gather (gathered G objs) o.2).curControlKeys.size=(gathered G objs).controlGroup.size
  · rw [if_pos h,if_pos (hcond.mpr h),gathered_controlGroup,List.map_map]
    refine Prod.ext rfl ?_
    exact List.map_id _
  · rw [if_neg h,if_neg (mt hcond.mp h),gathered_append]
    rfl

/-- The control key of a producer. -/
def controlKey (i : ℕ) : Key := str "ctrl:"++DelimitedText.decimal i

theorem groupOf_controlKey (i : ℕ) : groupOf (controlKey i)=controlGroupPrefix := by
  have hkey : controlKey i=controlGroupPrefix++groupDelimiter::DelimitedText.decimal i := rfl
  have hplain : groupDelimiter∉controlGroupPrefix := by decide
  rw [groupOf,hkey,DelimitedText.terminated_append hplain]
  simp [DelimitedText.terminated]

/-- Producers that put data objects and then a control key, each on one
worker. The data keys are distinct and none is in the control group. -/
structure Production (ι : Type*) (m : ℕ) where
  /-- The worker of a producer. -/
  home : Fin m → ι
  /-- Its data keys, in order. -/
  data : Fin m → List Key
  /-- No data key is in the control group. -/
  ungrouped : ∀ i,∀ k∈data i,groupOf k≠controlGroupPrefix
  /-- A producer puts a key once. -/
  distinct : ∀ i,(data i).Nodup
  /-- Producers put different keys. -/
  disjoint : ∀ i j,i≠j → ∀ k∈data i,k∉data j

/-- What a producer puts. -/
def Production.program {ι : Type*} {m : ℕ} (p : Production ι m) (i : Fin m) : List Key :=
  p.data i++[controlKey i]

/-- All data keys. -/
def Production.allData {ι : Type*} {m : ℕ} (p : Production ι m) : List Key :=
  (List.finRange m).flatMap p.data

/-- The control keys of all producers. -/
def controlKeys (m : ℕ) : USet Key := USet.ofList ((List.finRange m).map fun i : Fin m => controlKey i)

theorem mem_controlKeys {m : ℕ} : k∈controlKeys m ↔ ∃ i : Fin m,k=controlKey i := by
  rw [controlKeys,USet.mem_ofList,List.mem_map]
  exact ⟨fun ⟨i,_,h⟩ => ⟨i,h.symm⟩,fun ⟨i,h⟩ => ⟨i,List.mem_finRange i,h.symm⟩⟩

/-- The puts are an interleaving of the programs in one session: each put is
one of a producer, and those of a producer are its program on its worker. -/
structure Interleaved {ι : Type*} {m : ℕ} (p : Production ι m) (session : Session)
    (puts : List (ι×Session×Key)) : Prop where
  /-- Every put belongs to a producer. -/
  owned : ∀ q∈puts,∃ i,q.2.2∈p.program i
  /-- The puts of a producer. -/
  program : ∀ i,puts.filter (fun q => decide (q.2.2∈p.program i))=
    (p.program i).map fun k => (p.home i,session,k)

section Plans

variable {ι : Type*} {m : ℕ} {p : Production ι m} {session : Session} {Q : List (ι×Session×Key)}

theorem program_nodup (i : Fin m) : (p.program i).Nodup := by
  rw [Production.program,List.nodup_append]
  refine ⟨p.distinct i,List.nodup_singleton _,fun a ha b hb hab => ?_⟩
  rw [hab,List.mem_singleton.mp hb] at ha
  exact p.ungrouped i _ ha (groupOf_controlKey i)

variable {i : Fin m}

/-- A put is where and when its producer runs. -/
theorem Interleaved.place (h : Interleaved p session Q) {q : ι×Session×Key} (hq : q∈Q)
    (hi : q.2.2∈p.program i) : q=(p.home i,session,q.2.2) := by
  have hm : q∈Q.filter fun q => decide (q.2.2∈p.program i) :=
    List.mem_filter.mpr ⟨hq,by simpa using hi⟩
  rw [h.program i] at hm
  obtain ⟨k,-,rfl⟩ := List.mem_map.mp hm
  rfl

variable {k : Key}

/-- Everything a producer has to put is put. -/
theorem Interleaved.put (h : Interleaved p session Q) (hk : k∈p.program i) :
    (p.home i,session,k)∈Q := by
  have hm : (p.home i,session,k)∈(p.program i).map fun k => (p.home i,session,k) :=
    List.mem_map_of_mem hk
  rw [←h.program i] at hm
  exact List.mem_of_mem_filter hm

/-- No object is put twice. -/
theorem Interleaved.nodup (h : Interleaved p session Q) : (Q.map Prod.snd).Nodup := by
  rw [List.nodup_iff_count_le_one]
  intro a
  by_cases ha : a∈Q.map Prod.snd
  · obtain ⟨q,hq,rfl⟩ := List.mem_map.mp ha
    obtain ⟨i,hi⟩ := h.owned q hq
    have hprogram : ((Q.filter fun q => decide (q.2.2∈p.program i)).map Prod.snd).Nodup := by
      rw [h.program i,List.map_map]
      exact (program_nodup i).map fun k k' hk => (Prod.mk.inj hk).2
    have hcount : (Q.map Prod.snd).count q.2=
        ((Q.filter fun q => decide (q.2.2∈p.program i)).map Prod.snd).count q.2 := by
      rw [List.count_eq_countP,List.count_eq_countP,List.countP_map,List.countP_map,List.countP_filter]
      refine List.countP_congr fun x _ => ?_
      simp only [Function.comp,beq_iff_eq,Bool.and_eq_true,decide_eq_true_eq]
      exact ⟨fun hx => ⟨hx,hx ▸ hi⟩,fun hx => hx.1⟩
    rw [hcount]
    exact List.nodup_iff_count_le_one.mp hprogram q.2
  · rw [List.count_eq_zero_of_not_mem ha]
    exact Nat.zero_le 1

/-- At every worker the last object is a control key. -/
theorem Interleaved.last [DecidableEq ι] (h : Interleaved p session Q) (w : ι) (x : Session×Key)
    (hx : (atLeaf w Q).getLast?=some x) : x∈closingKeys (controlKeys m) session := by
  have hmem : (w,x)∈Q := mem_atLeaf.mp (List.mem_of_getLast? hx)
  obtain ⟨i,hi⟩ := h.owned (w,x) hmem
  have hplace := h.place hmem hi
  have hw : w=p.home i := congrArg Prod.fst hplace
  have hfilter : (Q.filter fun q => decide (q.1=w)).filter (fun q => decide (q.2.2∈p.program i))=
      (p.program i).map fun k => (p.home i,session,k) := by
    rw [List.filter_filter,←h.program i]
    refine List.filter_congr fun q hq => ?_
    by_cases hown : q.2.2∈p.program i
    · have hq1 : q.1=w := (congrArg Prod.fst (h.place hq hown)).trans hw.symm
      simp [hown,hq1]
    · simp [hown]
  have hlast : (Q.filter fun q => decide (q.1=w)).getLast?=some (w,x) := by
    rw [atLeaf,List.getLast?_map] at hx
    obtain ⟨q,hq,hqx⟩ := Option.map_eq_some_iff.mp hx
    have hqw : q.1=w := by simpa using (List.mem_filter.mp (List.mem_of_getLast? hq)).2
    rw [hq,←hqw,←hqx]
  obtain ⟨init,hinit⟩ := List.getLast?_eq_some_iff.mp hlast
  have hend : ((p.program i).map fun k => (p.home i,session,k)).getLast?=some (w,x) := by
    rw [←hfilter,hinit,List.filter_append,List.filter_cons_of_pos (by simpa using hi),List.filter_nil,
      List.getLast?_concat]
  rw [Production.program,List.map_append,List.map_singleton,List.getLast?_concat] at hend
  have hxc : x=(session,controlKey i) := (congrArg Prod.snd (Option.some.inj hend)).symm
  rw [mem_closingKeys,hxc]
  exact ⟨rfl,mem_controlKeys.mpr ⟨i,rfl⟩⟩

theorem groupOf_controlKeys : ∀ k∈controlKeys m,groupOf k=controlGroupPrefix := by
  intro k hk
  obtain ⟨i,rfl⟩ := mem_controlKeys.mp hk
  exact groupOf_controlKey i

/-- A data key is one of some producer. -/
theorem mem_allData : k∈p.allData ↔ ∃ i,k∈p.data i := by
  rw [Production.allData,List.mem_flatMap]
  exact ⟨fun ⟨i,_,h⟩ => ⟨i,h⟩,fun ⟨i,h⟩ => ⟨i,List.mem_finRange i,h⟩⟩

/-- The data keys are the put keys outside the control group. -/
theorem Interleaved.mem_data (h : Interleaved p session Q) :
    (k∈(Q.map Prod.snd).map Prod.snd ∧ groupOf k≠controlGroupPrefix) ↔ k∈p.allData := by
  rw [mem_allData]
  constructor
  · rintro ⟨hk,hgroup⟩
    obtain ⟨o,ho,rfl⟩ := List.mem_map.mp hk
    obtain ⟨q,hq,rfl⟩ := List.mem_map.mp ho
    obtain ⟨i,hi⟩ := h.owned q hq
    refine ⟨i,(List.mem_append.mp hi).resolve_right fun hc => hgroup ?_⟩
    rw [List.mem_singleton.mp hc]
    exact groupOf_controlKey i
  · rintro ⟨i,hi⟩
    refine ⟨?_,p.ungrouped i k hi⟩
    exact List.mem_map_of_mem (List.mem_map_of_mem (h.put (List.mem_append_left _ hi)))

theorem Interleaved.task [DecidableEq ι] (h : Interleaved p session Q) (hdata : ∃ i,p.data i≠[]) :
    Task dynamicGroup (closingKeys (controlKeys m) session) (Expected (controlKeys m) session)
      (gathered (controlKeys m)) (roundOutput (controlKeys m)) Q := by
  refine ⟨closing_dynamicGroup groupOf_controlKeys session,⟨h.nodup,?_,h.last⟩,?_,?_⟩
  · intro c hc
    obtain ⟨hs,hk⟩ := mem_closingKeys.mp hc
    obtain ⟨i,hi⟩ := mem_controlKeys.mp hk
    have hput : (p.home i,session,controlKey i)∈Q :=
      h.put (List.mem_append_right _ (List.mem_singleton.mpr rfl))
    rw [show c=(session,controlKey i) from Prod.ext hs hi]
    exact List.mem_map_of_mem hput
  · intro q hq
    obtain ⟨i,hi⟩ := h.owned q hq
    refine ⟨congrArg (fun x => x.2.1) (h.place hq hi),fun hgroup => mem_controlKeys.mpr ⟨i,?_⟩⟩
    refine List.mem_singleton.mp ((List.mem_append.mp hi).resolve_left fun hd => ?_)
    exact p.ungrouped i _ hd hgroup
  · intro l o hperm ho hnil
    obtain ⟨i,hi⟩ := hdata
    obtain ⟨k,hk⟩ := List.exists_mem_of_ne_nil _ hi
    have hgroup := p.ungrouped i k hk
    have hmem : k∈(l++[o]).map Prod.snd := by
      rw [(hperm.map Prod.snd).mem_iff]
      exact (h.mem_data.mpr (mem_allData.mpr ⟨i,hk⟩)).1
    have hkl : k∈l.map Prod.snd := by
      rw [List.map_append,List.mem_append] at hmem
      refine hmem.resolve_right fun hko => hgroup ?_
      rw [List.mem_singleton.mp hko]
      exact groupOf_controlKeys _ (mem_closingKeys.mp ho).2
    have hcontains : (gathered (controlKeys m) l).dataGroupKeysMap.contains (groupOf k)=true :=
      contains_gathered_data.mpr ⟨k,hkl,rfl,hgroup⟩
    rw [roundOutput,groupActions,List.map_eq_nil_iff,UMap.entries_eq_nil_iff] at hnil
    rw [hnil (groupOf k)] at hcontains
    cases hcontains

theorem allData_nodup (p : Production ι m) : p.allData.Nodup := by
  rw [Production.allData,List.nodup_flatMap]
  refine ⟨fun i _ => p.distinct i,(List.nodup_finRange m).imp_of_mem fun {i j} _ _ hij => ?_⟩
  intro k hi hj
  exact p.disjoint i j hij k hi hj

/-- The actions of a round: one for every group, with the data of the group. -/
theorem roundOutput_partition (h : Interleaved p session Q) {l : List (Session×Key)} {o : Session×Key}
    (hperm : (l++[o]).Perm (Q.map Prod.snd)) (ho : o∈closingKeys (controlKeys m) session) :
    ∃ groups : List Str,groups.Nodup ∧ (∀ g,g∈groups ↔ ∃ k∈p.allData,groupOf k=g) ∧
      List.Forall₂ (fun g objs => objs.Perm
        ((p.allData.filter fun k => decide (groupOf k=g)).map fun k => (session,k)))
        groups (roundOutput (controlKeys m) l o) := by
  obtain ⟨hs,hcontrol⟩ := mem_closingKeys.mp ho
  have hdata : ∀ k,(k∈l.map Prod.snd ∧ groupOf k≠controlGroupPrefix) ↔ k∈p.allData := by
    intro k
    rw [←h.mem_data,←(hperm.map Prod.snd).mem_iff,List.map_append,List.mem_append]
    refine and_congr_left fun hgroup => (or_iff_left fun hk => hgroup ?_).symm
    rw [List.mem_singleton.mp hk]
    exact groupOf_controlKeys _ hcontrol
  generalize hmap : (gathered (controlKeys m) l).dataGroupKeysMap=data
  refine ⟨data.keys,data.nodup,fun g => ?_,?_⟩
  · rw [←UMap.contains_iff_mem_keys,←hmap,contains_gathered_data]
    constructor
    · rintro ⟨k,hk,rfl,hg⟩
      exact ⟨k,(hdata k).mp ⟨hk,hg⟩,rfl⟩
    · rintro ⟨k,hk,rfl⟩
      obtain ⟨hkl,hg⟩ := (hdata k).mpr hk
      exact ⟨k,hkl,rfl,hg⟩
  · rw [roundOutput,groupActions,hmap,UMap.keys,List.forall₂_map_left_iff,List.forall₂_map_right_iff]
    refine List.forall₂_same.mpr fun e he => ?_
    have hfind : data.find? e.1=some e.2 := UMap.find?_eq_some_iff.mpr he
    have hmem : ∀ k,k∈e.2 ↔ k∈p.allData ∧ groupOf k=e.1 := by
      intro k
      have hget : data.getD e.1 ∅=e.2 := by rw [UMap.getD,hfind]; rfl
      rw [←hget,←hmap,mem_gathered_data]
      constructor
      · rintro ⟨hk,hg,hne⟩
        exact ⟨(hdata k).mp ⟨hk,hg ▸ hne⟩,hg⟩
      · rintro ⟨hk,hg⟩
        obtain ⟨hkl,hne⟩ := (hdata k).mpr hk
        exact ⟨hkl,hg,hg ▸ hne⟩
    rw [hs]
    refine List.Perm.map _ ((List.perm_ext_iff_of_nodup e.2.nodup ((allData_nodup p).filter _)).mpr
      fun k => ?_)
    rw [List.mem_filter,decide_eq_true_eq]
    exact hmem k

end Plans

/-- One trigger of the name, a dynamic group trigger of the producers' control
keys whose round is empty. -/
def Installed (t target : Str) (m : ℕ) (triggers : List Trigger) : Prop :=
  ∃ T,named t triggers=[T] ∧ Groups target T ⟨∅,controlKeys m,∅⟩

section Runs

variable {ι : Type*} [DecidableEq ι]

/-- A step of the bucket that also notes what the trigger of a name fires in
it, if anything. -/
def recordedStep (bucket : Bucket) (t : Str) (s : BucketNet ι×List (List (Fired ι))) (l : Label ι) :
    Option (BucketNet ι×List (List (Fired ι))) :=
  (step bucket s.1 l).map fun n =>
    let new := (n.fired.drop s.1.fired.length).filter fun f => decide (f.trigger=t)
    (n,if new=[] then s.2 else s.2++[new])

/-- The puts as objects. -/
def putObjects (n : BucketNet ι) : List (ι×Session×Key) :=
  n.puts.map fun q => (q.1,q.2.session,q.2.key)

/-- One action for every group of the data keys, with all keys of the group,
by one node. -/
def Partitions {m : ℕ} (p : Production ι m) (session : Session) (target : Str) (node : Option ι)
    (firing : List (Fired ι)) : Prop :=
  ∃ groups : List Str,groups.Nodup ∧ (∀ g,g∈groups ↔ ∃ k∈p.allData,groupOf k=g) ∧
    List.Forall₂ (fun g (f : Fired ι) => f.node=node ∧ f.action.function=target ∧
      f.action.sessionKeys.Perm
        ((p.allData.filter fun k => decide (groupOf k=g)).map fun k => (session,k))) groups firing

variable {n : BucketNet ι} {l : Label ι}

theorem step_grows {bucket : Bucket} {n' : BucketNet ι} (h : step bucket n l=some n') :
    n.puts<+:n'.puts ∧ n.fired<+:n'.fired := by
  obtain ⟨w,key,session,now,-,rfl⟩|⟨w,now,msg,rest,-,hu,rfl⟩|⟨w,msg,rest,-,hd,rfl⟩|
    ⟨w,index,call,session,-,rfl⟩ := step_cases h
  · exact ⟨List.prefix_append _ _,List.prefix_append _ _⟩
  · exact ⟨List.prefix_rfl,List.prefix_append _ _⟩
  · exact ⟨List.prefix_rfl,List.prefix_rfl⟩
  · exact ⟨List.prefix_rfl,List.prefix_rfl⟩

/-- The network of the collector. -/
abbrev GroupNet (ι : Type*) := Net ι DynamicGroupTrigger (Session×Key) (List (Session×Key)) Session

variable {bucket : Bucket} {t target : Str} {m : ℕ} {p : Production ι m} {session : Session}
variable {Q : List (ι×Session×Key)}

/-- What the trigger of a name has fired. -/
def firedBy (t : Str) (n : BucketNet ι) : List (Fired ι) := n.fired.filter fun f => decide (f.trigger=t)

/-- Nothing has been noted before the firing, and the firing after it. -/
def Noted (t target : Str) (bucket : Bucket) (m : ℕ) (session : Session) (Q : List (ι×Session×Key))
    (s : BucketNet ι×List (List (Fired ι))) : Prop :=
  putObjects s.1<+:Q → ∃ net : GroupNet ι,Refines (groupAbstraction target) bucket t s.1 net ∧
    Replica.Fifo net ∧
    (Open (closingKeys (controlKeys m) session) (gathered (controlKeys m)) net ∧ s.2=[] ∨
      Closed (closingKeys (controlKeys m) session) (gathered (controlKeys m))
        (roundOutput (controlKeys m)) Q net ∧ s.2=[firedBy t s.1])

variable {net : GroupNet ι}

omit [DecidableEq ι] in
theorem puts_eq (h : Refines (groupAbstraction target) bucket t n net) :
    puts net=putObjects n := h.puts

omit [DecidableEq ι] in
theorem firedBy_length (h : Refines (groupAbstraction target) bucket t n net) :
    (firedBy t n).length=net.fired.length :=
  h.fired.length_eq

theorem noted_step (h : Interleaved p session Q) (hdata : ∃ i,p.data i≠[])
    {s s' : BucketNet ι×List (List (Fired ι))} (hs : Noted t target bucket m session Q s)
    (hstep : recordedStep bucket t s l=some s') : Noted t target bucket m session Q s' := by
  intro hQ
  obtain ⟨n',hn,hs'⟩ := Option.map_eq_some_iff.mp hstep
  obtain ⟨⟨morePuts,hputs⟩,⟨new,hnew⟩⟩ := step_grows hn
  have hfst : s'.1=n' := by rw [←hs']
  rw [hfst] at hQ
  have hgrown : putObjects s.1<+:putObjects n' := by
    rw [putObjects,putObjects,←hputs,List.map_append]
    exact List.prefix_append _ _
  obtain ⟨net,href,hfifo,hphase⟩ := hs (hgrown.trans hQ)
  obtain ⟨es,net',hrun,href'⟩ := refines_step href hn
  have task := h.task hdata
  have hnetQ : puts net'<+:Q := (puts_eq href').symm ▸ hQ
  have hsum : firedBy t n'=firedBy t s.1++new.filter fun f => decide (f.trigger=t) := by
    rw [firedBy,←hnew,List.filter_append]
    rfl
  have hdrop : n'.fired.drop s.1.fired.length=new := by rw [←hnew,List.drop_left]
  have hsnd : s'.2=if new.filter (fun f => decide (f.trigger=t))=[] then s.2
      else s.2++[new.filter fun f => decide (f.trigger=t)] := by
    rw [←hs']
    dsimp only
    rw [hdrop]
  rw [hfst]
  rcases hphase with ⟨hopen,hnone⟩ | ⟨hclosed,hone⟩
  · have hbefore : firedBy t s.1=[] := by
      rw [←List.length_eq_zero_iff,firedBy_length href,hopen.fired]
      rfl
    rw [hbefore,List.nil_append] at hsum
    rw [hnone,←hsum] at hsnd
    obtain ⟨hfifo',-,hphase',-⟩ := phase_run task (Or.inl hopen) hfifo hrun hnetQ
    refine ⟨net',href',hfifo',?_⟩
    rcases hphase' with hopen' | hclosed'
    · have hafter : firedBy t n'=[] := by
        rw [←List.length_eq_zero_iff,firedBy_length href',hopen'.fired]
        rfl
      rw [if_pos hafter] at hsnd
      exact Or.inl ⟨hopen',hsnd⟩
    · obtain ⟨node,objs,o,hperm,ho,hfired⟩ := hclosed'.fired
      have hafter : firedBy t n'≠[] := by
        intro hnil
        have hlen := firedBy_length href'
        rw [hnil,hfired,List.length_map,List.length_nil] at hlen
        exact task.output objs o hperm ho (List.eq_nil_of_length_eq_zero hlen.symm)
      rw [if_neg hafter] at hsnd
      exact Or.inr ⟨hclosed',hsnd⟩
  · obtain ⟨hfifo',-,-,hkeep⟩ := phase_run task (Or.inr hclosed) hfifo hrun hnetQ
    obtain ⟨hclosed',hfired⟩ := hkeep hclosed
    have hquiet : new.filter (fun f => decide (f.trigger=t))=[] := by
      have hlen := congrArg List.length hsum
      rw [List.length_append,firedBy_length href,firedBy_length href',hfired] at hlen
      exact List.eq_nil_of_length_eq_zero (by omega)
    rw [if_pos hquiet,hone] at hsnd
    rw [hquiet,List.append_nil] at hsum
    exact ⟨net',href',hfifo',Or.inr ⟨hclosed',hsnd.trans (by rw [hsum])⟩⟩

/-- Two lists related to a third one, member by member. -/
theorem forall₂_through {α β γ : Type*} {r : α → β → Prop} {s : γ → β → Prop} {q : α → γ → Prop}
    {as : List α} {bs : List β} {cs : List γ} (hr : List.Forall₂ r as bs) (hs : List.Forall₂ s cs bs)
    (h : ∀ a b c,r a b → s c b → q a c) : List.Forall₂ q as cs := by
  induction hr generalizing cs with
  | nil =>
    rw [List.forall₂_nil_right_iff.mp hs]
    exact List.Forall₂.nil
  | cons hab _ ih =>
    obtain ⟨c,cs,hc,hcs,rfl⟩ := List.forall₂_cons_right_iff.mp hs
    exact List.Forall₂.cons (h _ _ _ hab hc) (ih hcs)

/-- Producers put their data objects and then their control keys, each on its
worker, in any interleaving with each other and with the links. When all of
it has been put and all notifications are consumed, the trigger has fired in
exactly one step, on one node, with one action for every group of data keys,
each with all data keys of the group. -/
theorem group_fires_once (bucket : Bucket) (t : Str) {target : Str} {m : ℕ} (hm : 0< m)
    (p : Production ι m) (hdata : ∃ i,p.data i≠[]) (session : Session) {workers : ι → List Trigger}
    {coord : List Trigger} (hw : ∀ w,Installed t target m (workers w)) (hc : Installed t target m coord)
    (l : List (Label ι)) {n : BucketNet ι} {firings : List (List (Fired ι))}
    (hr : run (recordedStep bucket t) (BucketNet.start workers coord,[]) l=some (n,firings))
    (hputs : Interleaved p session (putObjects n)) (hnotified : ∀ w,n.notifications w=[]) :
    ∃ firing node,firings=[firing] ∧ Partitions p session target node firing := by
  have hnonempty : (closingKeys (controlKeys m) session).Nonempty :=
    ⟨(session,controlKey 0),mem_closingKeys.mpr ⟨rfl,mem_controlKeys.mpr ⟨⟨0,hm⟩,rfl⟩⟩⟩
  have hstart : Noted t target bucket m session (putObjects n) (BucketNet.start workers coord,[]) := by
    intro _
    exact ⟨Net.start ⟨∅,controlKeys m,∅⟩,refines_start hw hc,Replica.fifo_start _,
      Or.inl ⟨open_start hnonempty,rfl⟩⟩
  obtain ⟨net,href,hfifo,hphase⟩ := run_invariant
    (fun _ _ _ hs hstep => noted_step hputs hdata hs hstep) hstart hr List.prefix_rfl
  have task := hputs.task hdata
  have hup : ∀ w,net.up w=[] := by
    intro w
    rw [href.up,hnotified w,List.map_nil]
  have hclosed := Phase.closed task (hphase.imp And.left And.left) hfifo (puts_eq href) hup
  have hone : firings=[firedBy t n] := by
    rcases hphase with ⟨hopen,-⟩ | ⟨-,hone⟩
    · obtain ⟨node,objs,o,hperm,ho,hfired⟩ := hclosed.fired
      rw [hopen.fired] at hfired
      exact absurd (List.map_eq_nil_iff.mp hfired.symm) (task.output objs o hperm ho)
    · exact hone
  obtain ⟨node,objs,o,hperm,ho,hfired⟩ := hclosed.fired
  obtain ⟨groups,hnodup,hgroups,hparts⟩ := roundOutput_partition hputs hperm ho
  refine ⟨firedBy t n,node,hone,groups,hnodup,hgroups,?_⟩
  have hrel := href.fired
  rw [hfired,List.forall₂_map_right_iff] at hrel
  refine forall₂_through hparts hrel fun g keys f hpart hf => ?_
  exact ⟨hf.1,hf.2.1,hf.2.2 ▸ hpart⟩

end Runs

/-- A trigger that waits for two producers. -/
def shuffle : Trigger := ⟨str "f",str "t",0,.dynamicGroup ⟨∅,controlKeys 2,∅⟩⟩

/-- Each puts one data object of the same group. -/
def twoProducers : Production Bool 2 where
  home := fun i => i=1
  data := fun i => if i=0 then [str "a:0"] else [str "a:1"]
  ungrouped := by decide
  distinct := by decide
  disjoint := by decide

/-- The control keys are put and notified after the data. -/
def twoProducersRun : List (Label Bool) :=
  [.put false (str "a:0") (str "s") 0,.put true (str "a:1") (str "s") 0,.notify true 0,
    .put true (str "ctrl:1") (str "s") 0,.put false (str "ctrl:0") (str "s") 0,.notify false 0,
    .notify true 0,.notify false 0]

theorem group_fires_once_twoProducers : ∃ n firings,
    run (recordedStep (str "b") (str "t"))
      (BucketNet.start (fun _ : Bool => [shuffle]) [shuffle],[]) twoProducersRun=some (n,firings) ∧
    ∃ firing node,firings=[firing] ∧ Partitions twoProducers (str "s") (str "f") node firing := by
  have hi : Installed (str "t") (str "f") 2 [shuffle] :=
    ⟨shuffle,by decide,rfl,_,rfl,rfl,rfl,fun _ => Iff.rfl⟩
  refine ⟨_,_,rfl,group_fires_once (str "b") (str "t") (by decide) twoProducers ⟨0,by decide⟩ (str "s")
    (fun _ : Bool => hi) hi twoProducersRun rfl ⟨by decide,by decide⟩ ?_⟩
  decide

end Pheromone.DynamicGroupReplication
