import Pheromone.BarrierReplicas
import Pheromone.BucketNetwork

/-!
# A set trigger on many workers fires once per session

The set trigger is the abstract barrier. Its counts compare sets of which one
contains the other, so equal counts mean all keys.
-/

namespace Pheromone.BySetReplication

open UnorderedContainers GuardedRuns BarrierReplicas CommonNames TriggerPrimitives
open BucketNetwork

/-- A set trigger of the keys that has collected what the barrier has. -/
def Collects (target : Str) (keys : USet Key) (T : Trigger) (st : Session → Finset Key) : Prop :=
  T.targetFunction=target ∧ ∃ b : BySetTrigger,T.state=.bySet b ∧ (∀ k,k∈b.keySet ↔ k∈keys) ∧
    ∀ s k,(k∈b.sessionPreparedKeysMap.getD s ∅ ↔ k∈st s) ∧ (k∈st s → k∈keys)

/-- An action of the target with all keys of one session. -/
def Gathers (target : Str) (keys : USet Key) (a : TriggerAction) (s : Session) : Prop :=
  a.function=target ∧ a.sessionKeys.Perm (keys.elems.map fun k => (s,k))

variable {target : Str} {keys : USet Key}

variable {T : Trigger} {st : Session → Finset Key}

/-- An arrival at the set trigger is one at the barrier. -/
theorem collects_arrive (now : ℤ) (bk : BucketKey) (h : Collects target keys T st) :
    Collects target keys (T.actionForNewObject now bk).1
        ((barrier keys.elems.toFinset).arrive st (bk.session,bk.key)).1 ∧
      List.Forall₂ (Gathers target keys) (T.actionForNewObject now bk).2
        ((barrier keys.elems.toFinset).arrive st (bk.session,bk.key)).2 := by
  obtain ⟨ht,b,hb,hkeys,hst⟩ := h
  have hmem : ∀ k,k∈keys.elems.toFinset ↔ k∈keys := fun k => List.mem_toFinset
  simp only [Trigger.actionForNewObject,hb,TriggerState.actionForNewObject,
    BySetTrigger.actionForNewObject]
  by_cases hk : bk.key∈b.keySet
  · have hkK : bk.key∈keys.elems.toFinset := (hmem _).mpr ((hkeys _).mp hk)
    generalize hp : (b.sessionPreparedKeysMap.getD bk.session ∅).insert bk.key=prepared
    have hprep : ∀ k,k∈prepared ↔ k∈insert bk.key (st bk.session) := by
      intro k
      rw [←hp,USet.mem_insert,Finset.mem_insert,(hst bk.session k).1]
    have hsub : ∀ k∈insert bk.key (st bk.session),k∈keys := by
      intro k hk'
      rcases Finset.mem_insert.mp hk' with rfl|hk'
      · exact (hkeys _).mp hk
      · exact (hst _ _).2 hk'
    have hsize : prepared.size=b.keySet.size ↔
        keys.elems.toFinset⊆insert bk.key (st bk.session) := by
      rw [USet.size_eq_iff_of_subset fun k hk' => (hkeys k).mpr (hsub k ((hprep k).mp hk'))]
      refine forall_congr' fun k => ?_
      rw [hkeys,hmem,hprep]
    rw [if_pos hk]
    by_cases hf : keys.elems.toFinset⊆insert bk.key (st bk.session)
    · rw [if_pos (hsize.mpr hf),arrive_complete hkK hf]
      refine ⟨⟨ht,_,rfl,hkeys,?_⟩,List.Forall₂.cons ⟨ht,?_⟩ List.Forall₂.nil⟩
      · intro s k
        by_cases hs : s=bk.session
        · subst hs
          simp [UMap.getD_erase]
        · simpa [UMap.getD_erase,UMap.getD_set,hs] using hst s k
      · exact (USet.perm_of_mem_iff hkeys).map _
    · rw [if_neg (mt hsize.mp hf),arrive_incomplete hkK hf]
      refine ⟨⟨ht,_,rfl,hkeys,?_⟩,List.Forall₂.nil⟩
      intro s k
      by_cases hs : s=bk.session
      · subst hs
        rw [UMap.getD_set_self]
        dsimp only
        rw [Function.update_self]
        exact ⟨hprep k,hsub k⟩
      · simpa [UMap.getD_set,hs] using hst s k
  · have hkK : bk.key∉keys.elems.toFinset := fun h => hk ((hkeys _).mpr ((hmem _).mp h))
    simp only [if_neg hk,barrier,hkK,if_false]
    exact ⟨⟨ht,b,rfl,hkeys,hst⟩,List.Forall₂.nil⟩

theorem collects_clear (session : Session) (h : Collects target keys T st) :
    Collects target keys (T.clear session) (Function.update st session ∅) := by
  obtain ⟨ht,b,hb,hkeys,hst⟩ := h
  refine ⟨ht,b.clear session,?_,hkeys,?_⟩
  · simp only [Trigger.clear,hb,TriggerState.clear]
  intro s k
  by_cases hs : s=session
  · subst hs
    simp [BySetTrigger.clear,UMap.getD_erase]
  · simpa [BySetTrigger.clear,UMap.getD_erase,hs] using hst s k

/-- A re-execution note leaves the collection alone. -/
theorem collects_note (call : TriggerFunctionMetadata) (session : Session)
    (h : Collects target keys T st) :
    Collects target keys (T.notifySourceFunc call session) st := by
  obtain ⟨ht,b,hb,hkeys,hst⟩ := h
  refine ⟨ht,b.notifySourceFunc call session,?_,?_,?_⟩
  · simp only [Trigger.notifySourceFunc,hb,TriggerState.notifySourceFunc]
  · intro k
    unfold BySetTrigger.notifySourceFunc
    split <;> exact hkeys k
  · intro s k
    unfold BySetTrigger.notifySourceFunc
    split <;> exact hst s k

/-- The set trigger as a collector. -/
def bySetAbstraction (target : Str) (keys : USet Key) :
    Abstraction (Session → Finset Key) (Session×Key) Session where
  replica := barrier keys.elems.toFinset
  object bk := (bk.session,bk.key)
  Represents := Collects target keys
  Performs := Gathers target keys
  arrive := collects_arrive
  clear := collects_clear
  note := collects_note
  session _ := rfl
  cleared := by
    rintro T st ⟨-,b,hb,-⟩
    simp [Trigger.getType,hb,TriggerState.getType]

/-- One trigger of the name, a set trigger that has collected nothing. -/
def Installed (t target : Str) (keys : USet Key) (triggers : List Trigger) : Prop :=
  ∃ T b,named t triggers=[T] ∧ T.targetFunction=target ∧ T.state=.bySet b ∧
    (∀ k,k∈b.keySet ↔ k∈keys) ∧ b.sessionPreparedKeysMap=∅

theorem Installed.collects {t : Str} {triggers : List Trigger}
    (h : Installed t target keys triggers) :
    ∃ T,named t triggers=[T] ∧ Collects target keys T fun _ => ∅ := by
  obtain ⟨T,b,hT,ht,hb,hkeys,hempty⟩ := h
  refine ⟨T,hT,ht,b,hb,hkeys,fun s k => ?_⟩
  simp [hempty]

/-- Whether an action was fired by the trigger of the name for a session. -/
def firedFor {ι : Type*} (t : Str) (s : Session) (f : Fired ι) : Bool :=
  decide (f.trigger=t) && f.action.sessionKeys.any fun sessionKey => decide (sessionKey.1=s)

/-- An action that gathers the keys of a session is fired for that session only. -/
theorem Gathers.any_session {a : TriggerAction} {s s' : Session} (hK : keys.elems≠[])
    (h : Gathers target keys a s') :
    (a.sessionKeys.any fun sessionKey => decide (sessionKey.1=s))=decide (s'=s) := by
  obtain ⟨k,hk⟩ := List.exists_mem_of_ne_nil _ hK
  rw [Bool.eq_iff_iff,List.any_eq_true,decide_eq_true_iff]
  constructor
  · rintro ⟨x,hx,hs⟩
    obtain ⟨k',-,rfl⟩ := List.mem_map.mp (h.2.mem_iff.mp hx)
    exact of_decide_eq_true hs
  · intro hs
    exact ⟨(s',k),h.2.mem_iff.mpr (List.mem_map_of_mem hk),decide_eq_true hs⟩

variable {ι : Type*} [DecidableEq ι]

/-- When every key of the set was put exactly once in a session, over any
workers and in any interleaving with notifications and clears, and all
notifications are consumed, the target was fired exactly once for the
session, by a worker or by the coordinator, with exactly the keys of the set. -/
theorem bySet_fires_exactly_once (bucket : Bucket) (t : Str) (hK : keys.elems≠[])
    {workers : ι → List Trigger} {coord : List Trigger}
    (hw : ∀ w,Installed t target keys (workers w)) (hc : Installed t target keys coord)
    (l : List (Label ι)) {n : BucketNet ι}
    (hr : run (step bucket) (BucketNet.start workers coord) l=some n) (s : Session)
    (hput : ∀ k∈keys,n.puts.countP (fun p => decide (p.2.session=s ∧ p.2.key=k))=1)
    (hq : ∀ w,n.notifications w=[]) :
    ∃ f,n.fired.filter (firedFor t s)=[f] ∧ f.action.function=target ∧
      f.action.sessionKeys.Perm (keys.elems.map fun k => (s,k)) := by
  obtain ⟨es,m,hm,href⟩ := refines_run (A:=bySetAbstraction target keys) (t:=t)
    (fun w => (hw w).collects) hc.collects hr
  have hne : keys.elems.toFinset.Nonempty := List.toFinset_nonempty_iff _ |>.mpr hK
  have hsent : ∀ k∈keys.elems.toFinset,m.sent.countP (fun e => decide (e.2.1=(s,k)))=1 := by
    intro k hk
    rw [←hput k (List.mem_toFinset.mp hk)]
    have hl : m.sent.countP (fun e => decide (e.2.1=(s,k)))=
        (m.sent.map fun e => (e.1,e.2.1)).countP fun p => decide (p.2=(s,k)) := by
      rw [List.countP_map]
      rfl
    rw [hl,href.puts,List.countP_map]
    refine List.countP_congr fun p _ => ?_
    simp [bySetAbstraction]
  obtain ⟨x,hx⟩ := fires_once hne hm hsent fun w => by rw [href.up,hq,List.map_nil]
  have hrel := List.rel_filter (p:=fun f : Fired ι => f.action.sessionKeys.any
    fun sessionKey => decide (sessionKey.1=s)) (q:=fun a => decide (a.2=s))
    (fun _ _ hfa => iff_of_eq (congrArg (·=true) (Gathers.any_session hK hfa.2))) href.fired
  rw [hx,List.filter_filter] at hrel
  obtain ⟨f,l',hf,hnil,hl'⟩ := List.forall₂_cons_right_iff.mp hrel
  rw [List.forall₂_nil_right_iff] at hnil
  refine ⟨f,?_,hf.2.1,hf.2.2⟩
  rw [←hnil,←hl']
  refine List.filter_congr fun f _ => ?_
  rw [firedFor,Bool.and_comm]

/-- A set trigger of two keys, as it is when installed. -/
def twoKeyTrigger : Trigger :=
  ⟨str "join",str "t",0,.bySet ⟨USet.ofList [str "x",str "y"],∅,∅,∅⟩⟩

/-- The keys come from different workers; the coordinator fires and clears. -/
def twoWorkerRun : List (Label Bool) :=
  [.put false (str "x") (str "s") 0,.put true (str "y") (str "s") 0,.notify true 0,
    .notify false 0,.update true]

theorem bySet_fires_exactly_once_two_workers : ∃ n,
    run (step (str "b")) (BucketNet.start (fun _ : Bool => [twoKeyTrigger]) [twoKeyTrigger])
      twoWorkerRun=some n ∧
    ∃ f,n.fired.filter (firedFor (str "t") (str "s"))=[f] ∧ f.action.function=str "join" ∧
      f.action.sessionKeys.Perm ((USet.ofList [str "x",str "y"]).elems.map fun k => (str "s",k)) := by
  have hi : Installed (str "t") (str "join") (USet.ofList [str "x",str "y"]) [twoKeyTrigger] :=
    ⟨twoKeyTrigger,_,by decide,rfl,rfl,fun _ => Iff.rfl,rfl⟩
  refine ⟨_,rfl,bySet_fires_exactly_once (str "b") (str "t") (by decide) (fun _ => hi) hi
    twoWorkerRun rfl (str "s") ?_ ?_⟩
  · intro k hk
    rw [USet.mem_ofList] at hk
    rcases List.mem_cons.mp hk with rfl|hk
    · decide
    · rcases List.mem_singleton.mp hk with rfl
      decide
  · decide

end Pheromone.BySetReplication
