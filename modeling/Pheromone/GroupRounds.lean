import Pheromone.StreamRounds
import Pheromone.ReactiveMachines
import Pheromone.DynamicGroupReplication

/-!
# Rounds of a dynamic group trigger

A group trigger records control keys of its own only and never all of them,
so that equal numbers say that all have arrived.
-/

namespace Pheromone.GroupRounds

open UnorderedContainers StreamRounds ReactiveMachines CommonNames TriggerPrimitives
open DynamicGroupReplication

/-- The trigger as it is built. -/
def initial (control : USet Key) : DynamicGroupTrigger := ⟨∅,control,∅⟩

/-- All control keys are among the arrivals. -/
def Complete (control : USet Key) (w : List BucketKey) : Prop :=
  ∀ k∈control.elems,k∈w.map BucketKey.key

instance decidableComplete (control : USet Key) : DecidablePred (Complete control) :=
  fun _ => List.decidableBAll _ _

/-- An action with the distinct keys of a group among the arrivals. -/
def ActsFor (target : Str) (session : Session) (w : List BucketKey) (group : Str)
    (a : TriggerAction) : Prop :=
  a.function=target ∧ ∃ keys : List Key,keys.Nodup ∧
    (∀ k,k∈keys ↔ k∈w.map BucketKey.key ∧ groupOf k=group) ∧
    a.sessionKeys=keys.map fun k => (session,k)

/-- One action for each group of data keys among the arrivals. -/
def OnePerGroup (target : Str) (session : Session) (w : List BucketKey)
    (acts : List TriggerAction) : Prop :=
  ∃ groups : List Str,groups.Nodup ∧
    (∀ g,g∈groups ↔ g≠controlGroupPrefix ∧ ∃ k∈w.map BucketKey.key,groupOf k=g) ∧
    List.Forall₂ (ActsFor target session w) groups acts

/-- An action of an arrival is given the object of another arrival of the
same round. -/
def Covers (target : Str) (control : USet Key) (l : List BucketKey) (i j m : ℕ) : Prop :=
  InRound (Complete control) l i j ∧
    ∃ bk∈l[i]?,∃ acts∈(outputs (DynamicGroupTrigger.actionForNewObject target) (initial control) l)[j]?,
      ∃ a∈acts[m]?,(bk.session,bk.key)∈a.sessionKeys

/-- What a dynamic group trigger does on the arrivals of a session. -/
structure Rounds (target : Str) (control : USet Key) (session : Session) (l : List BucketKey) :
    Prop where
  /-- The arrival that completes the control keys fires for each group, and
  the trigger is as it was built. -/
  fires : ∀ j bk,l[j]?=some bk →
    Complete control (openRound (Complete control) (l.take j)++[bk]) →
    (∃ acts,(outputs (DynamicGroupTrigger.actionForNewObject target) (initial control) l)[j]?=
        some acts ∧
      OnePerGroup target session (openRound (Complete control) (l.take j)++[bk]) acts) ∧
    after (DynamicGroupTrigger.actionForNewObject target) (initial control) (l.take (j+1))=
      initial control
  /-- Any other arrival produces nothing. -/
  silent : ∀ j bk,l[j]?=some bk →
    ¬Complete control (openRound (Complete control) (l.take j)++[bk]) →
    (outputs (DynamicGroupTrigger.actionForNewObject target) (initial control) l)[j]?=some []
  /-- A data key is covered by one action of the next firing and by no other. -/
  covered : ∀ i bk,l[i]?=some bk → groupOf bk.key≠controlGroupPrefix → ∀ j,
    NextClosing (Complete control) l i j →
      ∃ m,∀ j' m',Covers target control l i j' m' ↔ j'=j ∧ m'=m

variable {target : Str} {control : USet Key} {session : Session}

/-- The trigger with the arrivals of its open round. -/
def holding (control : USet Key) (w : List BucketKey) : DynamicGroupTrigger :=
  gathered control (w.map fun bk => (bk.session,bk.key))

theorem keys_of_objects (w : List BucketKey) :
    (w.map fun bk => (bk.session,bk.key)).map Prod.snd=w.map BucketKey.key := by
  rw [List.map_map]
  rfl

theorem holding_concat (w : List BucketKey) (bk : BucketKey) :
    holding control (w++[bk])=gather (holding control w) bk.key := by
  rw [holding,List.map_append]
  exact gathered_append _ _ _

/-- The number of control keys tells whether they are complete. -/
theorem size_eq_iff_complete (hcontrol : ∀ k∈control,groupOf k=controlGroupPrefix)
    (w : List BucketKey) :
    (holding control w).curControlKeys.size=control.size ↔ Complete control w := by
  have hmem : ∀ k,k∈(holding control w).curControlKeys ↔
      k∈control ∧ k∈w.map BucketKey.key := by
    intro k
    rw [holding,mem_gathered_control hcontrol,keys_of_objects]
  rw [USet.size_eq_iff_of_subset fun k hk => ((hmem k).mp hk).1]
  refine forall_congr' fun k => forall_congr' fun hk => ?_
  rw [hmem]
  exact and_iff_right hk

variable {w : List BucketKey} {bk : BucketKey}

/-- An arrival completes the control keys only as one of them. -/
theorem group_of_complete (hcontrol : ∀ k∈control,groupOf k=controlGroupPrefix)
    (hopen : ¬Complete control w) (hfull : Complete control (w++[bk])) :
    groupOf bk.key=controlGroupPrefix := by
  apply hcontrol
  by_contra hother
  refine hopen fun k hk => ?_
  have hmem := hfull k hk
  rw [List.map_append,List.mem_append] at hmem
  refine hmem.resolve_right fun hself => hother ?_
  rw [List.map_singleton,List.mem_singleton] at hself
  rw [←hself]
  exact hk

/-- An arrival fires if it completes the control keys, and is recorded otherwise. -/
theorem arrive_holding (hcontrol : ∀ k∈control,groupOf k=controlGroupPrefix)
    (hopen : ¬Complete control w) (bk : BucketKey) :
    (holding control w).actionForNewObject target bk=
      if Complete control (w++[bk]) then
        (initial control,(groupActions (holding control w) bk.session).map fun objs => ⟨target,objs⟩)
      else (holding control (w++[bk]),[]) := by
  have hgroup : (holding control w).controlGroup=control := gathered_controlGroup _ _
  have hsize := size_eq_iff_complete hcontrol (w++[bk])
  rw [actionForNewObject_eq,hgroup,←holding_concat]
  by_cases hfull : Complete control (w++[bk])
  · rw [if_pos ⟨group_of_complete hcontrol hopen hfull,hsize.mpr hfull⟩,if_pos hfull]
    rfl
  · rw [if_neg fun h => hfull (hsize.mp h.2),if_neg hfull]

theorem find?_holding {g : Str} {keys : USet Key}
    (h : (holding control w).dataGroupKeysMap.find? g=some keys) {k : Key} :
    k∈keys ↔ k∈w.map BucketKey.key ∧ groupOf k=g ∧ g≠controlGroupPrefix := by
  have hkeys : (holding control w).dataGroupKeysMap.getD g ∅=keys := by
    rw [UMap.getD,h,Option.getD_some]
  rw [←hkeys,holding,mem_gathered_data,keys_of_objects]

/-- A firing has an action for each group of the open round. -/
theorem onePerGroup_groupActions (w : List BucketKey) (hbk : groupOf bk.key=controlGroupPrefix) :
    OnePerGroup target bk.session (w++[bk])
      ((groupActions (holding control w) bk.session).map fun objs => ⟨target,objs⟩) := by
  have hkeys : ∀ g,g≠controlGroupPrefix → ∀ k,groupOf k=g →
      (k∈(w++[bk]).map BucketKey.key ↔ k∈w.map BucketKey.key) := by
    intro g hg k hk
    rw [List.map_append,List.mem_append,List.map_singleton,List.mem_singleton]
    refine or_iff_left fun hself => hg ?_
    rw [←hk,hself,hbk]
  refine ⟨(holding control w).dataGroupKeysMap.keys,(holding control w).dataGroupKeysMap.nodup,
    fun g => ?_,?_⟩
  · rw [←UMap.contains_iff_mem_keys,holding,contains_gathered_data,keys_of_objects]
    constructor
    · rintro ⟨k,hk,hgroup,hg⟩
      exact ⟨hg,k,(hkeys g hg k hgroup).mpr hk,hgroup⟩
    · rintro ⟨hg,k,hk,hgroup⟩
      exact ⟨k,(hkeys g hg k hgroup).mp hk,hgroup,hg⟩
  · rw [UMap.keys,groupActions,List.map_map,List.forall₂_map_left_iff,List.forall₂_map_right_iff,
      List.forall₂_same]
    intro e he
    have hfind := UMap.find?_eq_some_iff.mpr he
    refine ⟨rfl,e.2.elems,e.2.nodup,fun k => ?_,rfl⟩
    have hmem := find?_holding hfind (k:=k)
    have hsome : (holding control w).dataGroupKeysMap.contains e.1=true :=
      UMap.contains_eq_true_iff.mpr ⟨_,hfind⟩
    rw [holding,contains_gathered_data] at hsome
    obtain ⟨-,-,-,hg⟩ := hsome
    rw [←USet.mem_def,hmem]
    constructor
    · rintro ⟨hk,hgroup,-⟩
      exact ⟨(hkeys e.1 hg k hgroup).mpr hk,hgroup⟩
    · rintro ⟨hk,hgroup⟩
      exact ⟨(hkeys e.1 hg k hgroup).mp hk,hgroup,hg⟩

theorem OnePerGroup.exists_unique {acts : List TriggerAction}
    (h : OnePerGroup target session w acts) (hbk : bk∈w) (hsession : bk.session=session)
    (hdata : groupOf bk.key≠controlGroupPrefix) :
    ∃ m,∀ m' : ℕ,(∃ a∈acts[m']?,(bk.session,bk.key)∈a.sessionKeys) ↔ m'=m := by
  obtain ⟨groups,hnodup,hgroups,hacts⟩ := h
  have hkey : bk.key∈w.map BucketKey.key := List.mem_map_of_mem hbk
  obtain ⟨m,hm⟩ := List.getElem?_of_mem ((hgroups _).mpr ⟨hdata,bk.key,hkey,rfl⟩)
  have hacted : ∀ g a,ActsFor target session w g a →
      ((bk.session,bk.key)∈a.sessionKeys ↔ groupOf bk.key=g) := by
    rintro g a ⟨-,keys,-,hkeys,hobjs⟩
    rw [hobjs,hsession,List.mem_map]
    constructor
    · rintro ⟨k,hk,he⟩
      rw [←(Prod.mk.inj he).2]
      exact ((hkeys k).mp hk).2
    · exact fun hg => ⟨bk.key,(hkeys _).mpr ⟨hkey,hg⟩,rfl⟩
  refine ⟨m,fun m' => ⟨?_,?_⟩⟩
  · rintro ⟨a,ha,hmem⟩
    obtain ⟨hlt,rfl⟩ := List.getElem?_eq_some_iff.mp ha
    have hltg : m'<groups.length := hacts.length_eq ▸ hlt
    have hg := (hacted _ _ (hacts.get hltg hlt)).mp hmem
    have hsame : groups[m']?=some (groupOf bk.key) := by
      rw [hg]
      exact List.getElem?_eq_getElem hltg
    exact (List.getElem?_inj hltg hnodup).mp (hsame.trans hm.symm)
  · rintro rfl
    obtain ⟨hlt,hg⟩ := List.getElem?_eq_some_iff.mp hm
    have hlta : m'<acts.length := hacts.length_eq ▸ hlt
    exact ⟨acts[m'],List.getElem?_eq_getElem hlta,(hacted _ _ (hacts.get hlt hlta)).mpr hg.symm⟩

theorem not_complete_nil (hsome : ∃ k,k∈control) : ¬Complete control [] := by
  obtain ⟨k,hk⟩ := hsome
  exact fun h => absurd (h k hk) List.not_mem_nil

/-- The trigger holds the arrivals of the open round. -/
theorem after_eq_holding (hcontrol : ∀ k∈control,groupOf k=controlGroupPrefix)
    (hsome : ∃ k,k∈control) (l : List BucketKey) :
    after (DynamicGroupTrigger.actionForNewObject target) (initial control) l=
      holding control (openRound (Complete control) l) := by
  have hnil := not_complete_nil hsome
  induction l using List.reverseRecOn with
  | nil => rfl
  | append_singleton l bk ih =>
    rw [after_concat,ih,arrive_holding hcontrol (not_full_openRound hnil l),openRound_concat,advance]
    by_cases hfull : Complete control (openRound (Complete control) l++[bk])
    · rw [if_pos hfull,if_pos hfull]
      rfl
    · rw [if_neg hfull,if_neg hfull]

variable {l : List BucketKey} {j : ℕ}

/-- What the trigger produces on the arrival at a position. -/
theorem outputs_eq (target : Str) (hcontrol : ∀ k∈control,groupOf k=controlGroupPrefix)
    (hsome : ∃ k,k∈control) (hbk : l[j]?=some bk) :
    (outputs (DynamicGroupTrigger.actionForNewObject target) (initial control) l)[j]?=
      some (if Complete control (openRound (Complete control) (l.take j)++[bk]) then
        (groupActions (holding control (openRound (Complete control) (l.take j))) bk.session).map
          fun objs => ⟨target,objs⟩
      else []) := by
  have hnil := not_complete_nil hsome
  rw [getElem?_outputs,hbk,Option.map_some,after_eq_holding hcontrol hsome,
    arrive_holding hcontrol (not_full_openRound hnil _)]
  split <;> rfl

/-- A data key is given to one action, that of its group at the next firing. -/
theorem covered_once (hcontrol : ∀ k∈control,groupOf k=controlGroupPrefix) (hsome : ∃ k,k∈control)
    {i : ℕ} (hbk : l[i]?=some bk) (hdata : groupOf bk.key≠controlGroupPrefix)
    (hnext : NextClosing (Complete control) l i j) (hfire : ∀ bk',l[j]?=some bk' → ∃ acts,
      (outputs (DynamicGroupTrigger.actionForNewObject target) (initial control) l)[j]?=some acts ∧
        OnePerGroup target bk.session (openRound (Complete control) (l.take j)++[bk']) acts) :
    ∃ m,∀ j' m',Covers target control l i j' m' ↔ j'=j ∧ m'=m := by
  obtain ⟨bk',hbk',-⟩ := hnext.closes
  obtain ⟨acts,hacts,hone⟩ := hfire bk' hbk'
  have hround := (inRound_iff_nextClosing hnext.closes).mpr hnext
  obtain ⟨m,hm⟩ := hone.exists_unique (mem_round_of_inRound hbk hbk' hround) rfl hdata
  refine ⟨m,fun j' m' => ⟨?_,?_⟩⟩
  · rintro ⟨hin,bk'',hat,acts',hacts',hact⟩
    obtain rfl : bk=bk'' := Option.some.inj (hbk.symm.trans hat)
    have hcloses : ClosesAt (Complete control) l j' := by
      have hlt : j'<l.length := by
        have hlen := (List.getElem?_eq_some_iff.mp hacts').1
        rwa [length_outputs] at hlen
      refine ⟨_,List.getElem?_eq_getElem hlt,?_⟩
      by_contra hopen
      have hnone := outputs_eq target hcontrol hsome (List.getElem?_eq_getElem hlt)
      rw [if_neg hopen] at hnone
      obtain ⟨a,ha,-⟩ := hact
      rw [←Option.some.inj (hnone.symm.trans hacts')] at ha
      cases ha
    obtain rfl : j'=j := hnext.unique ((inRound_iff_nextClosing hcloses).mp hin)
    rw [Option.some.inj (hacts'.symm.trans hacts)] at hact
    exact ⟨rfl,(hm m').mp hact⟩
  · rintro ⟨rfl,rfl⟩
    exact ⟨hround,bk,hbk,acts,hacts,(hm m').mpr rfl⟩

/-- The rounds of a dynamic group trigger end when all its control keys have
arrived, with one action for each group of data keys of the round. -/
theorem groupRounds (target : Str) (control : USet Key) (hsome : ∃ k,k∈control)
    (hcontrol : ∀ k∈control,groupOf k=controlGroupPrefix) (session : Session) (l : List BucketKey)
    (hsession : ∀ bk∈l,bk.session=session) : Rounds target control session l := by
  have hnil := not_complete_nil hsome
  have hfires : ∀ j bk,l[j]?=some bk →
      Complete control (openRound (Complete control) (l.take j)++[bk]) → ∃ acts,
        (outputs (DynamicGroupTrigger.actionForNewObject target) (initial control) l)[j]?=
          some acts ∧
        OnePerGroup target session (openRound (Complete control) (l.take j)++[bk]) acts := by
    intro j bk hbk hfull
    have hgroup := group_of_complete hcontrol (not_full_openRound hnil _) hfull
    refine ⟨_,outputs_eq target hcontrol hsome hbk,?_⟩
    rw [if_pos hfull,←hsession bk (List.mem_of_getElem? hbk)]
    exact onePerGroup_groupActions _ hgroup
  refine ⟨fun j bk hbk hfull => ⟨hfires j bk hbk hfull,?_⟩,fun j bk hbk hopen => ?_,
    fun i bk hbk hdata j hnext => ?_⟩
  · rw [after_eq_holding hcontrol hsome,openRound_after_closing ⟨bk,hbk,hfull⟩]
    rfl
  · rw [outputs_eq target hcontrol hsome hbk,if_neg hopen]
  · refine covered_once hcontrol hsome hbk hdata hnext fun bk' hbk' => ?_
    obtain ⟨bk'',hbk'',hfull⟩ := hnext.closes
    obtain rfl : bk''=bk' := Option.some.inj (hbk''.symm.trans hbk')
    rw [hsession bk (List.mem_of_getElem? hbk)]
    exact hfires j bk'' hbk' hfull

/-- Two control keys. -/
def twoControls : USet Key := USet.ofList [str "ctrl:0",str "ctrl:1"]

/-- Two rounds: data in two groups with a repeated and an unknown control key,
and control keys alone. -/
def twoRounds : List BucketKey :=
  ["x:1","ctrl:1","x:2","ctrl:9","y","x:1","ctrl:1","ctrl:0","ctrl:0","ctrl:1"].map
    fun key => ⟨str "b",str key,str "s"⟩

theorem groupRounds_two :
    (outputs (DynamicGroupTrigger.actionForNewObject (str "h")) (initial twoControls) twoRounds)[7]?=
      some [⟨str "h",[(str "s",str "x:1"),(str "s",str "x:2")]⟩,⟨str "h",[(str "s",str "y")]⟩] ∧
    Rounds (str "h") twoControls (str "s") twoRounds := by
  have hcontrol : ∀ k∈twoControls.elems,groupOf k=controlGroupPrefix := by decide
  have hsession : ∀ bk∈twoRounds,bk.session=str "s" := by decide
  exact ⟨by decide,
    groupRounds (str "h") twoControls ⟨str "ctrl:0",by decide⟩ hcontrol (str "s") twoRounds hsession⟩

end Pheromone.GroupRounds
