import Pheromone.BySetSessions

/-!
# One remembered call per session

Three triggers remember the latest call per session. A second call hides the
first, and one object removes both.
-/

namespace Pheromone.SessionSlots

open UnorderedContainers EventHistories ReactiveMachines CommonNames TriggerPrimitives BySetSessions

/-- One call of a trigger at a clock reading. -/
def invoke (now : ℤ) (t : Trigger) : TriggerCall → Trigger×List TriggerAction
  | .notify call session => (t.notifySourceFunc call session,[])
  | .object bk => t.actionForNewObject now bk
  | .clear session => (t.clear session,[])

/-- The remembered calls of the triggers that remember by session only. -/
def slots : TriggerState → Option SessionStatusCache
  | .immediate s => some s.sessionStatusCache
  | .byName s => some s.sessionStatusCache
  | .byBatchSize s => some s.sessionStatusCache
  | _ => none

/-- Source calls that the trigger was told of in a session. -/
def notified (s : Session) (h : List TriggerCall) : ℕ :=
  h.countP fun
    | .notify _ session => decide (session=s)
    | _ => false

/-- Objects that have arrived in a session. -/
def arrived (s : Session) (h : List TriggerCall) : ℕ :=
  h.countP fun
    | .object bk => decide (bk.session=s)
    | _ => false

/-- A session with more source calls than objects has a call to run again, and
all calls to run again were told for their session. -/
structure Covered (now : ℤ) (t : Trigger) (h : List TriggerCall) : Prop where
  remembered : ∀ s,arrived s h<notified s h → (after (invoke now) t h).actionForRerun s≠[]
  /-- Remembered calls are calls of the session. -/
  told : ∀ s,∀ call∈(after (invoke now) t h).actionForRerun s,.notify call s∈h

/-- An object arrives when at most one call of its session is outstanding. -/
def Timely (before : List TriggerCall) : TriggerCall → Prop
  | .object bk => notified bk.session before≤arrived bk.session before+1
  | _ => True

variable {t : Trigger} {cache : SessionStatusCache}

theorem actionForRerun_slots (h : slots t.state=some cache) (s : Session) :
    t.actionForRerun s=sessionRerun cache s := by
  obtain ⟨target,name,option,state⟩ := t
  cases state <;> first | rw [←Option.some.inj h]; rfl | cases h

theorem slots_notifySourceFunc (h : slots t.state=some cache) (call : TriggerFunctionMetadata)
    (session : Session) :
    slots (t.notifySourceFunc call session).state=some (cache.set session call) := by
  obtain ⟨target,name,option,state⟩ := t
  cases state <;> first | rw [←Option.some.inj h]; rfl | cases h

theorem slots_actionForNewObject (h : slots t.state=some cache) (now : ℤ) (bk : BucketKey) :
    slots (t.actionForNewObject now bk).1.state=some (cache.erase bk.session) := by
  obtain ⟨target,name,option,state⟩ := t
  cases state with
  | byBatchSize b =>
    rw [←Option.some.inj h]
    show slots (.byBatchSize (b.actionForNewObject target bk).1)=_
    unfold ByBatchSizeTrigger.actionForNewObject
    dsimp only
    split <;> rfl
  | immediate b => rw [←Option.some.inj h]; rfl
  | byName b => rw [←Option.some.inj h]; rfl
  | _ => cases h

theorem notified_concat (s : Session) (h : List TriggerCall) (c : TriggerCall) :
    notified s (h++[c])=notified s h+notified s [c] := List.countP_append

theorem arrived_concat (s : Session) (h : List TriggerCall) (c : TriggerCall) :
    arrived s (h++[c])=arrived s h+arrived s [c] := List.countP_append

theorem arrived_object (s : Session) (bk : BucketKey) :
    arrived s [.object bk]=if bk.session=s then 1 else 0 := by
  simp only [arrived,List.countP_singleton,decide_eq_true_eq]

/-- What is remembered was told, and a session where nothing is remembered has
no outstanding call. -/
structure Tracks (cache : SessionStatusCache) (h : List TriggerCall) : Prop where
  told : ∀ s call,cache.find? s=some call → .notify call s∈h
  settled : ∀ s,cache.find? s=none → notified s h≤arrived s h

variable {h : List TriggerCall}

theorem Tracks.notify (ht : Tracks cache h) (call : TriggerFunctionMetadata) (session : Session) :
    Tracks (cache.set session call) (h++[.notify call session]) := by
  refine ⟨fun s call' hf => ?_,fun s hf => ?_⟩
  · rw [UMap.find?_set] at hf
    split at hf
    · rename_i hs
      rw [hs,Option.some.inj hf]
      exact List.mem_append_right _ List.mem_cons_self
    · exact List.mem_append_left _ (ht.told s call' hf)
  · rw [UMap.find?_set] at hf
    split at hf
    · cases hf
    · rename_i hs
      have hold := ht.settled s hf
      have hnew : notified s [.notify call session]=0 := by
        simp only [notified,List.countP_singleton,decide_eq_true_eq]
        exact if_neg fun he => hs he.symm
      rw [notified_concat,arrived_concat,hnew]
      omega

variable {bk : BucketKey}

theorem Tracks.object (ht : Tracks cache h) (htimely : Timely h (.object bk)) :
    Tracks (cache.erase bk.session) (h++[.object bk]) := by
  have hnotified : ∀ s,notified s [.object bk]=0 := fun s => rfl
  refine ⟨fun s call hf => ?_,fun s hf => ?_⟩
  · rw [UMap.find?_erase] at hf
    split at hf
    · cases hf
    · exact List.mem_append_left _ (ht.told s call hf)
  · rw [notified_concat,arrived_concat,hnotified,arrived_object]
    rw [UMap.find?_erase] at hf
    by_cases hs : bk.session=s
    · rw [if_pos hs,←hs]
      exact htimely
    · rw [if_neg fun he => hs he.symm] at hf
      rw [if_neg hs]
      exact ht.settled s hf

variable (now : ℤ)

/-- After calls other than clears the trigger still remembers by session. -/
theorem slots_after (ht : slots t.state=some cache) (hclear : ∀ s,.clear s∉h) :
    ∃ cache',slots (after (invoke now) t h).state=some cache' := by
  induction h using List.reverseRecOn with
  | nil => exact ⟨cache,ht⟩
  | append_singleton h c ih =>
    obtain ⟨cache',hcache⟩ := ih fun s hs => hclear s (List.mem_append_left _ hs)
    rw [after_concat]
    cases c with
    | notify call session => exact ⟨_,slots_notifySourceFunc hcache call session⟩
    | object bk => exact ⟨_,slots_actionForNewObject hcache now bk⟩
    | clear session =>
      exact absurd (List.mem_append_right _ List.mem_cons_self) (hclear session)

theorem tracks_after (ht : slots t.state=some ∅) (hclear : ∀ s,.clear s∉h)
    (hok : Justified Timely h) :
    ∃ cache,slots (after (invoke now) t h).state=some cache ∧ Tracks cache h := by
  induction h using List.reverseRecOn with
  | nil => exact ⟨∅,ht,⟨fun _ _ hf => (by cases hf),fun _ _ => Nat.le_refl 0⟩⟩
  | append_singleton h c ih =>
    obtain ⟨hbefore,hlast⟩ := justified_concat.mp hok
    obtain ⟨cache,hcache,htracks⟩ := ih (fun s hs => hclear s (List.mem_append_left _ hs)) hbefore
    rw [after_concat]
    cases c with
    | notify call session =>
      exact ⟨_,slots_notifySourceFunc hcache call session,htracks.notify call session⟩
    | object bk => exact ⟨_,slots_actionForNewObject hcache now bk,htracks.object hlast⟩
    | clear session =>
      exact absurd (List.mem_append_right _ List.mem_cons_self) (hclear session)

theorem Tracks.covered {now : ℤ} (hc : slots (after (invoke now) t h).state=some cache)
    (ht : Tracks cache h) : Covered now t h := by
  refine ⟨fun s hs hnone => ?_,fun s call hcall => ?_⟩
  · rw [actionForRerun_slots hc,sessionRerun,Option.toList_eq_nil_iff] at hnone
    have hsettled := ht.settled s hnone
    omega
  · rw [actionForRerun_slots hc,sessionRerun,Option.mem_toList] at hcall
    exact ht.told s call hcall

/-- After an arrival nothing is remembered for its session. -/
theorem timely_of_covered {now : ℤ} (hc : slots (after (invoke now) t h).state=some cache)
    (hcovered : Covered now t (h++[.object bk])) : Timely h (.object bk) := by
  by_contra hlate
  have hnone : (after (invoke now) t (h++[.object bk])).actionForRerun bk.session=[] := by
    rw [after_concat]
    refine (actionForRerun_slots (slots_actionForNewObject hc now bk) bk.session).trans ?_
    rw [sessionRerun,UMap.find?_erase_self]
    rfl
  refine hcovered.remembered bk.session ?_ hnone
  have hnotified : notified bk.session [.object bk]=0 := rfl
  rw [notified_concat,arrived_concat,hnotified,arrived_object,if_pos rfl]
  exact not_le.mp hlate

/-- In every state that a sequence of calls without clear passes through, a
session with outstanding source calls has a call to run again, if and only if
every object arrives when at most one call of its session is outstanding. -/
theorem outstanding_covered_iff (ht : slots t.state=some ∅) {l : List TriggerCall}
    (hclear : ∀ s,.clear s∉l) : (∀ h,h<+:l → Covered now t h) ↔ Justified Timely l := by
  constructor
  · intro hcovered before c rest hl
    cases c with
    | object bk =>
      have hprefix : before++[.object bk]<+:l := by
        refine ⟨rest,?_⟩
        rw [hl,List.append_assoc]
        rfl
      have hbefore : ∀ s,.clear s∉before := by
        intro s hs
        refine hclear s ?_
        rw [hl]
        exact List.mem_append_left _ hs
      obtain ⟨cache,hcache⟩ := slots_after now ht hbefore
      exact timely_of_covered hcache (hcovered _ hprefix)
    | _ => trivial
  · rintro hok h ⟨rest,rfl⟩
    have hprefix : Justified Timely h := by
      intro before c after hh
      refine hok before c (after++rest) ?_
      rw [hh,List.append_assoc]
      rfl
    obtain ⟨cache,hcache,htracks⟩ :=
      tracks_after now ht (fun s hs => hclear s (List.mem_append_left _ hs)) hprefix
    exact htracks.covered hcache

/-- An immediate trigger as it is built. -/
def immediate : Trigger := ⟨str "h",str "t",0,.immediate ⟨∅⟩⟩

/-- A call of a source function. -/
def sourceCall (func : String) : TriggerFunctionMetadata := ⟨str func,[],0⟩

/-- Two calls one after the other. -/
def alternating : List TriggerCall :=
  [.notify (sourceCall "f") (str "s"),.object ⟨str "b",str "k",str "s"⟩,
    .notify (sourceCall "g") (str "s")]

theorem outstanding_covered_alternating :
    Covered 0 immediate alternating ∧ arrived (str "s") alternating<notified (str "s") alternating := by
  have hclear : ∀ s,.clear s∉alternating := by
    intro s hs
    rcases List.mem_cons.mp hs with hs|hs
    · cases hs
    · rcases List.mem_cons.mp hs with hs|hs
      · cases hs
      · cases List.mem_singleton.mp hs
  have htimely : Timely [.notify (sourceCall "f") (str "s")] (.object ⟨str "b",str "k",str "s"⟩) := by
    show notified (str "s") [.notify (sourceCall "f") (str "s")]≤
      arrived (str "s") [.notify (sourceCall "f") (str "s")]+1
    decide +kernel
  have hok : Justified Timely alternating :=
    ((justified_nil.concat trivial).concat htimely).concat trivial
  exact ⟨(outstanding_covered_iff 0 rfl hclear).mpr hok _ List.prefix_rfl,by decide +kernel⟩

/-- Two calls are scheduled before the first object arrives: the object makes
the trigger forget both. -/
theorem second_call_hidden :
    arrived (str "s") [.notify (sourceCall "f") (str "s"),.notify (sourceCall "g") (str "s"),
        .object ⟨str "b",str "k",str "s"⟩]=1 ∧
    notified (str "s") [.notify (sourceCall "f") (str "s"),.notify (sourceCall "g") (str "s"),
        .object ⟨str "b",str "k",str "s"⟩]=2 ∧
    (after (invoke 0) immediate [.notify (sourceCall "f") (str "s"),
      .notify (sourceCall "g") (str "s"),.object ⟨str "b",str "k",str "s"⟩]).actionForRerun
        (str "s")=[] := by
  decide +kernel

end Pheromone.SessionSlots
