import Pheromone.BySetSessions

/-!
# Calls that a set trigger remembers

A set trigger remembers calls under key and session. A clear erases the
session alone as a key, so the calls of a cleared session stay.
-/

namespace Pheromone.BySetReruns

open UnorderedContainers EventHistories ReactiveMachines CommonNames TriggerPrimitives BySetSessions

/-- What makes an earlier call of a function in a session irrelevant: a later
call of it, an arrival of its key, and a clear of the session. -/
def Settles (func : Str) (key : Key) (s : Session) : TriggerCall → Prop
  | .notify call session => call.funcName=func ∧ session=s
  | .object bk => bk.key=key ∧ bk.session=s
  | .clear session => session=s

/-- The call is the latest of a hinted function in the session, and since then
neither the function's key has arrived nor was the session cleared. -/
def Outstanding (hints : UMap Str Key) (s : Session) (h : List TriggerCall)
    (call : TriggerFunctionMetadata) : Prop :=
  ∃ key,hints.find? call.funcName=some key ∧
    Since (fun c => c=.notify call s) (Settles call.funcName key s) h

/-- The calls to run again are exactly the outstanding ones. -/
structure Exact (target : Str) (keys : USet Key) (hints : UMap Str Key) (h : List TriggerCall) :
    Prop where
  /-- No call is returned twice. -/
  nodup : ∀ s,s.length=16 →
    ((after (perform target) (built keys hints) h).actionForRerun s).Nodup
  /-- The calls that are returned. -/
  calls : ∀ s call,s.length=16 →
    (call∈(after (perform target) (built keys hints) h).actionForRerun s ↔ Outstanding hints s h call)
  /-- Calls of other sessions have no influence. -/
  independent : ∀ s,s.length=16 → (after (perform target) (built keys hints) h).actionForRerun s=
    (after (perform target) (built keys hints)
      (h.filter fun c => decide (c.session=s))).actionForRerun s

/-- At a clear no call of a function with a non-empty key is outstanding, and
a call is of a function with a hint unless the empty key is outside the set. -/
def Settled (keys : USet Key) (hints : UMap Str Key) (h : List TriggerCall) : TriggerCall → Prop
  | .notify call _ => hints.contains call.funcName=true ∨ []∉keys
  | .object _ => True
  | .clear session => ∀ call,Outstanding hints session h call → hints.find? call.funcName=some []

/-- Hints of a set trigger: there is one, all name keys of the set, and
different functions have different keys. -/
structure WellHinted (keys : USet Key) (hints : UMap Str Key) : Prop where
  nonempty : ∃ func,hints.contains func=true
  /-- Hinted keys are keys of the set. -/
  mem : ∀ func key,hints.find? func=some key → key∈keys
  /-- Different functions have different keys. -/
  distinct : ∀ func func' key,hints.find? func=some key → hints.find? func'=some key → func=func'

variable {target : Str} {keys : USet Key} {hints : UMap Str Key} {t : BySetTrigger}

/-- A trigger of the keys and the hints. -/
structure Hinted (keys : USet Key) (hints : UMap Str Key) (t : BySetTrigger) : Prop where
  /-- The keys it waits for. -/
  keySet : t.keySet=keys
  /-- The key that it takes for a function. -/
  funcKey : ∀ func,t.funcKeyMap.getD func []=hints.getD func []
  nonempty : ∃ func,t.funcKeyMap.contains func=true

theorem Hinted.isEmpty (h : Hinted keys hints t) : ¬t.funcKeyMap.isEmpty=true := by
  intro hempty
  obtain ⟨func,hfunc⟩ := h.nonempty
  rw [UMap.entries_eq_nil_iff.mp (List.isEmpty_iff.mp hempty) func] at hfunc
  cases hfunc

/-- The call remembered for a key and a session. -/
def remembered (t : BySetTrigger) (key : Key) (s : Session) : Option TriggerFunctionMetadata :=
  t.sessionStatusCache.find? (key++s)

/-- Names of equal length for the sessions make the cache's keys unambiguous. -/
theorem name_eq_iff {key key' : Key} {s s' : Session} (h : s.length=s'.length) :
    key++s=key'++s' ↔ key=key' ∧ s=s' :=
  ⟨fun he => List.append_inj' he h,fun he => he.1 ▸ he.2 ▸ rfl⟩

theorem remembered_notify (h : Hinted keys hints t) (call : TriggerFunctionMetadata)
    {s s' : Session} (hs : s.length=s'.length) (key : Key) :
    remembered (t.notifySourceFunc call s') key s=
      if key=hints.getD call.funcName [] ∧ s=s' then some call else remembered t key s := by
  rw [remembered,BySetTrigger.notifySourceFunc,if_neg h.isEmpty]
  dsimp only
  rw [UMap.find?_set,h.funcKey]
  simp only [name_eq_iff hs]
  rfl

theorem remembered_object (h : Hinted keys hints t) (bk : BucketKey) {s : Session}
    (hs : s.length=bk.session.length) {key : Key} (hkey : key∈keys) :
    remembered (t.actionForNewObject target bk).1 key s=
      if key=bk.key ∧ s=bk.session then none else remembered t key s := by
  unfold BySetTrigger.actionForNewObject
  split
  · have herase : (t.sessionStatusCache.erase (bk.key++bk.session)).find? (key++s)=
        if key=bk.key ∧ s=bk.session then none else remembered t key s := by
      rw [UMap.find?_erase]
      simp only [name_eq_iff hs]
      rfl
    dsimp only
    split <;> exact herase
  · rename_i hmem
    rw [if_neg]
    exact fun hc => hmem (h.keySet ▸ hc.1 ▸ hkey)

theorem remembered_clear (t : BySetTrigger) {s s' : Session} (hs : s.length=s'.length) (key : Key) :
    remembered (t.clear s') key s=if key=[] ∧ s=s' then none else remembered t key s := by
  show (t.sessionStatusCache.erase s').find? (key++s)=_
  rw [UMap.find?_erase]
  have hname : key++s=s' ↔ key=[] ∧ s=s' := @name_eq_iff key [] s s' hs
  simp only [hname]
  rfl

theorem Hinted.perform (h : Hinted keys hints t) (c : TriggerCall) :
    Hinted keys hints (perform target t c).1 := by
  cases c with
  | notify call session =>
    show Hinted keys hints (t.notifySourceFunc call session)
    rw [BySetTrigger.notifySourceFunc,if_neg h.isEmpty]
    refine ⟨h.keySet,fun func => ?_,?_⟩
    · dsimp only
      rw [UMap.getD_touch,h.funcKey]
    · obtain ⟨func,hfunc⟩ := h.nonempty
      exact ⟨func,UMap.contains_touch hfunc _ _⟩
  | object bk =>
    show Hinted keys hints (t.actionForNewObject target bk).1
    unfold BySetTrigger.actionForNewObject
    split
    · dsimp only
      split <;> exact ⟨h.keySet,h.funcKey,h.nonempty⟩
    · exact h
  | clear session => exact ⟨h.keySet,h.funcKey,h.nonempty⟩

theorem hinted_after (hw : WellHinted keys hints) (target : Str) (h : List TriggerCall) :
    Hinted keys hints (after (perform target) (built keys hints) h) := by
  have hstep : ∀ t c,Hinted keys hints t → Hinted keys hints (perform target t c).1 :=
    fun _ c ht => ht.perform c
  exact after_invariant hstep ⟨rfl,fun _ => rfl,hw.nonempty⟩ h

/-- The calls to run again are the remembered ones. -/
theorem mem_actionForRerun (h : Hinted keys hints t) {s : Session} {call : TriggerFunctionMetadata} :
    call∈t.actionForRerun s ↔ ∃ key∈keys,remembered t key s=some call := by
  rw [BySetTrigger.actionForRerun,if_neg h.isEmpty,List.mem_filterMap,h.keySet]
  rfl

/-- For every key of the set the trigger remembers the outstanding call of its
function. -/
def Tracks (keys : USet Key) (hints : UMap Str Key) (t : BySetTrigger) (h : List TriggerCall) : Prop :=
  ∀ key∈keys,∀ s,s.length=16 → ∀ call,remembered t key s=some call ↔
    hints.find? call.funcName=some key ∧
      Since (fun c => c=.notify call s) (Settles call.funcName key s) h

theorem tracks_built : Tracks keys hints (built keys hints) [] :=
  fun _ _ _ _ _ => iff_of_false (fun h => by cases h) fun h => not_since_nil h.2

variable {h : List TriggerCall} {key : Key} {s s' : Session} {call call' : TriggerFunctionMetadata}

variable {c : TriggerCall}

theorem outstanding_unrelated (hnotify : hints.find? call.funcName=some key → c≠.notify call s)
    (hsettles : hints.find? call.funcName=some key → ¬Settles call.funcName key s c) :
    hints.find? call.funcName=some key ∧
        Since (fun c => c=.notify call s) (Settles call.funcName key s) (h++[c]) ↔
      hints.find? call.funcName=some key ∧
        Since (fun c => c=.notify call s) (Settles call.funcName key s) h := by
  refine and_congr_right fun hf => ?_
  rw [since_concat]
  exact ⟨fun hc => hc.elim (fun he => absurd he (hnotify hf)) And.right,
    fun hc => Or.inr ⟨hsettles hf,hc⟩⟩

theorem not_since_settled (hnotify : c≠.notify call s) (hsettles : Settles call.funcName key s c) :
    ¬Since (fun c => c=.notify call s) (Settles call.funcName key s) (h++[c]) := by
  rw [since_concat]
  exact fun hc => hc.elim hnotify fun hc => hc.1 hsettles

/-- A remembered key of the set is the hint of the call. -/
theorem find?_of_key (hcall : hints.contains call.funcName=true ∨ []∉keys) (hkey : key∈keys)
    (heq : key=hints.getD call.funcName []) : hints.find? call.funcName=some key := by
  cases hf : hints.find? call.funcName with
  | none =>
    rw [UMap.contains,hf] at hcall
    rw [UMap.getD,hf] at heq
    rcases hcall with hcall|hcall
    · cases hcall
    · have hnil : key=[] := heq
      exact absurd (hnil ▸ hkey) hcall
  | some key' =>
    rw [UMap.getD,hf] at heq
    exact congrArg some heq.symm

theorem Tracks.notify (hw : WellHinted keys hints) (ht : Hinted keys hints t)
    (htracks : Tracks keys hints t h) (hlen : s'.length=16)
    (hcall : hints.contains call'.funcName=true ∨ []∉keys) :
    Tracks keys hints (t.notifySourceFunc call' s') (h++[.notify call' s']) := by
  intro key hkey s hs call
  rw [remembered_notify ht call' (hs.trans hlen.symm)]
  split
  · rename_i heq
    have hf := find?_of_key hcall hkey heq.1
    rw [since_concat,heq.2]
    constructor
    · intro he
      rw [←Option.some.inj he]
      exact ⟨hf,Or.inl rfl⟩
    · rintro ⟨hf',he|⟨hsettles,-⟩⟩
      · exact congrArg some (TriggerCall.notify.inj he).1
      · exact absurd ⟨hw.distinct _ _ key hf hf',rfl⟩ hsettles
  · rename_i hne
    have hother : ∀ func,hints.find? func=some key → ¬(call'.funcName=func ∧ s'=s) := by
      rintro func hf ⟨rfl,hs⟩
      refine hne ⟨?_,hs.symm⟩
      rw [UMap.getD,hf]
      rfl
    rw [htracks key hkey s hs call,outstanding_unrelated (fun hf he => hother _ hf ?_) (hother _)]
    exact ⟨congrArg _ (TriggerCall.notify.inj he).1,(TriggerCall.notify.inj he).2⟩

theorem Tracks.object (ht : Hinted keys hints t) (htracks : Tracks keys hints t h) {bk : BucketKey}
    (hlen : bk.session.length=16) :
    Tracks keys hints (t.actionForNewObject target bk).1 (h++[.object bk]) := by
  intro key hkey s hs call
  have hnotify : TriggerCall.object bk≠.notify call s := fun he => by cases he
  rw [remembered_object ht bk (hs.trans hlen.symm) hkey]
  split
  · rename_i heq
    refine iff_of_false (fun he => by cases he) fun hc => not_since_settled hnotify ?_ hc.2
    exact ⟨heq.1.symm,heq.2.symm⟩
  · rename_i hne
    rw [htracks key hkey s hs call,outstanding_unrelated (fun _ => hnotify) fun _ hc => ?_]
    exact hne ⟨hc.1.symm,hc.2.symm⟩

theorem Tracks.clear (htracks : Tracks keys hints t h)
    (hlen : s'.length=16)
    (hnone : ∀ call,Outstanding hints s' h call → hints.find? call.funcName=some []) :
    Tracks keys hints (t.clear s') (h++[.clear s']) := by
  intro key hkey s hs call
  have hnotify : TriggerCall.clear s'≠.notify call s := fun he => by cases he
  rw [remembered_clear t (hs.trans hlen.symm)]
  by_cases heq : s=s'
  · have hgone : (if key=[] ∧ s=s' then none else remembered t key s)=none := by
      split
      · rfl
      · rename_i hne
        refine Option.eq_none_iff_forall_not_mem.mpr fun call hcall => ?_
        obtain ⟨hf,hsince⟩ := (htracks key hkey s hs call).mp hcall
        have hnil := hnone call ⟨key,hf,heq ▸ hsince⟩
        exact hne ⟨Option.some.inj (hf.symm.trans hnil),heq⟩
    rw [hgone]
    refine iff_of_false (fun he => by cases he) fun hc => not_since_settled hnotify ?_ hc.2
    exact heq.symm
  · rw [if_neg fun hc => heq hc.2,htracks key hkey s hs call,
      outstanding_unrelated (fun _ => hnotify) fun _ hc => ?_]
    exact heq (Eq.symm hc)

/-- One call keeps track if it meets the condition. -/
theorem Tracks.perform (hw : WellHinted keys hints) (ht : Hinted keys hints t)
    (htracks : Tracks keys hints t h) (hlen : c.session.length=16) (hc : Settled keys hints h c) :
    Tracks keys hints (perform target t c).1 (h++[c]) := by
  cases c with
  | notify call s => exact htracks.notify hw ht hlen hc
  | object bk => exact htracks.object ht hlen
  | clear s => exact htracks.clear hlen hc

theorem tracks_after (target : Str) (hw : WellHinted keys hints) (hlen : ∀ c∈h,c.session.length=16)
    (hok : Justified (Settled keys hints) h) :
    Tracks keys hints (after (BySetSessions.perform target) (built keys hints) h) h := by
  induction h using List.reverseRecOn with
  | nil => exact tracks_built
  | append_singleton h c ih =>
    obtain ⟨hbefore,hlast⟩ := justified_concat.mp hok
    rw [after_concat]
    have hprev := ih (fun c hc => hlen c (List.mem_append_left _ hc)) hbefore
    exact hprev.perform hw (hinted_after hw target h)
      (hlen c (List.mem_append_right _ List.mem_cons_self)) hlast

/-- What is tracked is returned once. -/
theorem Tracks.nodup (ht : Hinted keys hints t) (htracks : Tracks keys hints t h)
    (hs : s.length=16) : (t.actionForRerun s).Nodup := by
  rw [BySetTrigger.actionForRerun,if_neg ht.isEmpty,List.Nodup,List.pairwise_filterMap,ht.keySet]
  refine keys.nodup.imp_of_mem fun hkey hkey' hne call hcall call' hcall' he => hne ?_
  have hf := ((htracks _ hkey s hs call).mp hcall).1
  have hf' := ((htracks _ hkey' s hs call').mp hcall').1
  rw [he,hf'] at hf
  exact (Option.some.inj hf).symm

theorem Tracks.mem_iff (hw : WellHinted keys hints) (ht : Hinted keys hints t)
    (htracks : Tracks keys hints t h) (hs : s.length=16) :
    call∈t.actionForRerun s ↔ Outstanding hints s h call := by
  rw [mem_actionForRerun ht]
  constructor
  · rintro ⟨key,hkey,hcall⟩
    exact ⟨key,(htracks key hkey s hs call).mp hcall⟩
  · rintro ⟨key,hf,hsince⟩
    have hkey := hw.mem _ _ hf
    exact ⟨key,hkey,(htracks key hkey s hs call).mpr ⟨hf,hsince⟩⟩

/-- What a call makes of the call remembered for a key and a session. -/
def effect (hints : UMap Str Key) (key : Key) (s : Session) (old : Option TriggerFunctionMetadata) :
    TriggerCall → Option TriggerFunctionMetadata
  | .notify call s' => if key=hints.getD call.funcName [] ∧ s=s' then some call else old
  | .object bk => if key=bk.key ∧ s=bk.session then none else old
  | .clear s' => if key=[] ∧ s=s' then none else old

theorem remembered_perform (target : Str) (ht : Hinted keys hints t)
    (hs : s.length=c.session.length) (hkey : key∈keys) :
    remembered (perform target t c).1 key s=effect hints key s (remembered t key s) c := by
  cases c with
  | notify call s' => exact remembered_notify ht call hs key
  | object bk => exact remembered_object ht bk hs hkey
  | clear s' => exact remembered_clear t hs key

theorem effect_other (hc : c.session≠s) (old : Option TriggerFunctionMetadata) :
    effect hints key s old c=old := by
  cases c <;> exact if_neg fun h => hc h.2.symm

/-- Two triggers of the keys and hints that remember the same for a session. -/
structure Agree (keys : USet Key) (hints : UMap Str Key) (s : Session) (t t' : BySetTrigger) : Prop where
  hinted : Hinted keys hints t
  hinted' : Hinted keys hints t'
  same : ∀ key∈keys,remembered t key s=remembered t' key s

theorem Agree.actionForRerun_eq {t' : BySetTrigger} (h : Agree keys hints s t t') :
    t.actionForRerun s=t'.actionForRerun s := by
  rw [BySetTrigger.actionForRerun,BySetTrigger.actionForRerun,if_neg h.hinted.isEmpty,
    if_neg h.hinted'.isEmpty,h.hinted.keySet,h.hinted'.keySet]
  exact List.filterMap_congr fun key hkey => h.same key hkey

theorem actionForRerun_session (hw : WellHinted keys hints) (target : Str)
    (hlen : ∀ c∈h,c.session.length=16) (hs : s.length=16) :
    (after (perform target) (built keys hints) h).actionForRerun s=
      (after (perform target) (built keys hints)
        (h.filter fun c => decide (c.session=s))).actionForRerun s := by
  have hmine : ∀ t t',∀ c∈h,Agree keys hints s t t' → decide (c.session=s)=true →
      Agree keys hints s (perform target t c).1 (perform target t' c).1 := by
    intro t t' c hc hagree _
    have hsame : s.length=c.session.length := hs.trans (hlen c hc).symm
    refine ⟨hagree.hinted.perform c,hagree.hinted'.perform c,fun key hkey => ?_⟩
    rw [remembered_perform target hagree.hinted hsame hkey,remembered_perform target hagree.hinted' hsame hkey,
      hagree.same key hkey]
  have hother : ∀ t t',∀ c∈h,Agree keys hints s t t' → decide (c.session=s)=false →
      Agree keys hints s (perform target t c).1 t' := by
    intro t t' c hc hagree hne
    have hsame : s.length=c.session.length := hs.trans (hlen c hc).symm
    refine ⟨hagree.hinted.perform c,hagree.hinted',fun key hkey => ?_⟩
    rw [remembered_perform target hagree.hinted hsame hkey,effect_other (of_decide_eq_false hne),
      hagree.same key hkey]
  have hbuilt : Hinted keys hints (built keys hints) := ⟨rfl,fun _ => rfl,hw.nonempty⟩
  exact (after_filter hmine hother ⟨hbuilt,hbuilt,fun _ _ => rfl⟩).actionForRerun_eq

theorem exact_of_settled (hw : WellHinted keys hints) (hlen : ∀ c∈h,c.session.length=16)
    (hok : Justified (Settled keys hints) h) :
    Exact target keys hints h := by
  have ht := hinted_after hw target h
  have htracks := tracks_after target hw hlen hok
  exact ⟨fun s hs => htracks.nodup ht hs,fun s call hs => htracks.mem_iff hw ht hs,
    fun s hs => actionForRerun_session hw target hlen hs⟩

/-- A call that does not meet the condition leaves a call to run again that is
not outstanding. -/
theorem settled_of_exact (hw : WellHinted keys hints) (hlen : c.session.length=16)
    (htracks : Tracks keys hints (after (perform target) (built keys hints) h) h)
    (hexact : Exact target keys hints (h++[c])) : Settled keys hints h c := by
  have ht := hinted_after hw target h
  have hcalls : ∀ key∈keys,∀ call,
      effect hints key c.session
        (remembered (after (perform target) (built keys hints) h) key c.session) c=some call →
      Outstanding hints c.session (h++[c]) call := by
    intro key hkey call hcall
    rw [←remembered_perform target ht rfl hkey,←after_concat] at hcall
    refine (hexact.calls c.session call hlen).mp ?_
    exact (mem_actionForRerun (hinted_after hw target (h++[c]))).mpr ⟨key,hkey,hcall⟩
  cases c with
  | notify call s =>
    by_cases hnil : []∈keys
    · left
      cases hf : hints.find? call.funcName with
      | some key => rw [UMap.contains,hf]; rfl
      | none =>
        have hkey : []=hints.getD call.funcName [] := by rw [UMap.getD,hf]; rfl
        obtain ⟨key,hf',-⟩ := hcalls [] hnil call (if_pos ⟨hkey,rfl⟩)
        rw [hf] at hf'
        cases hf'
    · exact Or.inr hnil
  | object bk => trivial
  | clear s =>
    rintro call ⟨key,hf,hsince⟩
    by_contra hne
    have hkey := hw.mem _ _ hf
    have hcall := (htracks key hkey s hlen call).mpr ⟨hf,hsince⟩
    have hnil : ¬(key=[] ∧ s=s) := fun hc => hne (hc.1 ▸ hf)
    obtain ⟨key',-,hsince'⟩ := hcalls key hkey call ((if_neg hnil).trans hcall)
    have hsettles : Settles call.funcName key' s (.clear s) := rfl
    exact not_since_settled (fun he => by cases he) hsettles hsince'

/-- In every state that a sequence of calls passes through, the calls to run
again are exactly the outstanding ones, if and only if at every clear no call
of a function with a non-empty key is outstanding, and every call is of a
function with a hint unless the empty key is outside the set. -/
theorem reruns_exact_iff (target : Str) (hw : WellHinted keys hints) {l : List TriggerCall}
    (hlen : ∀ c∈l,c.session.length=16) :
    (∀ h,h<+:l → Exact target keys hints h) ↔ Justified (Settled keys hints) l := by
  constructor
  · intro hexact
    induction l using List.reverseRecOn with
    | nil => exact justified_nil
    | append_singleton l c ih =>
      have hlen' : ∀ c∈l,c.session.length=16 := fun c hc => hlen c (List.mem_append_left _ hc)
      have hbefore := ih hlen' fun h hh => hexact h (hh.trans (List.prefix_append _ _))
      exact justified_concat.mpr ⟨hbefore,settled_of_exact hw
        (hlen c (List.mem_append_right _ List.mem_cons_self)) (tracks_after target hw hlen' hbefore)
        (hexact _ List.prefix_rfl)⟩
  · rintro hok h ⟨rest,rfl⟩
    refine exact_of_settled hw (fun c hc => hlen c (List.mem_append_left _ hc)) ?_
    intro before c after hh
    refine hok before c (after++rest) ?_
    rw [hh,List.append_assoc]
    rfl

/-- A set of two keys. -/
def twoKeys : USet Key := USet.ofList [str "a",str "b"]

/-- The function of each key. -/
def twoHints : UMap Str Key := (UMap.set ∅ (str "f") (str "a")).set (str "g") (str "b")

theorem twoHints_find? {func : Str} (h : twoHints.find? func=some key) :
    func=str "f" ∧ key=str "a" ∨ func=str "g" ∧ key=str "b" := by
  rw [twoHints,UMap.find?_set,UMap.find?_set,UMap.find?_empty] at h
  split at h
  · exact Or.inr ⟨‹_›,(Option.some.inj h).symm⟩
  · split at h
    · exact Or.inl ⟨‹_›,(Option.some.inj h).symm⟩
    · cases h

theorem wellHinted_two : WellHinted twoKeys twoHints := by
  refine ⟨⟨str "f",by decide +kernel⟩,fun func key h => ?_,fun func func' key h h' => ?_⟩
  · rcases twoHints_find? h with ⟨-,rfl⟩|⟨-,rfl⟩ <;> decide +kernel
  · rcases twoHints_find? h with ⟨rfl,rfl⟩|⟨rfl,rfl⟩ <;>
      rcases twoHints_find? h' with ⟨rfl,hkey⟩|⟨rfl,hkey⟩ <;> first | rfl | exact absurd hkey (by decide)

/-- A call of the function in the session. -/
def oneCall : TriggerFunctionMetadata := ⟨str "f",[],0⟩

/-- A session. -/
def oneSession : Session := str "0123456789abcdef"

/-- The key of the call arrives before the session is cleared. -/
theorem reruns_exact_arrived :
    (∀ c∈[TriggerCall.notify oneCall oneSession,.object ⟨str "k",str "a",oneSession⟩,.clear oneSession],
      c.session.length=16) ∧
    Exact (str "h") twoKeys twoHints
      [.notify oneCall oneSession,.object ⟨str "k",str "a",oneSession⟩,.clear oneSession] := by
  have hlen : ∀ c∈[TriggerCall.notify oneCall oneSession,.object ⟨str "k",str "a",oneSession⟩,
      .clear oneSession],c.session.length=16 := by decide +kernel
  refine ⟨hlen,(reruns_exact_iff (str "h") wellHinted_two hlen).mpr ?_ _ List.prefix_rfl⟩
  have hnotify : Settled twoKeys twoHints [] (.notify oneCall oneSession) := Or.inl (by decide +kernel)
  have hclear : Settled twoKeys twoHints [.notify oneCall oneSession,
      .object ⟨str "k",str "a",oneSession⟩] (.clear oneSession) := by
    rintro call ⟨key,hf,hsince⟩
    rcases (since_concat (h:=[TriggerCall.notify oneCall oneSession])).mp hsince with he|⟨hkey,he⟩
    · cases he
    · rcases (since_concat (h:=[])).mp he with he|⟨-,he⟩
      · obtain ⟨rfl,-⟩ := TriggerCall.notify.inj he
        rcases twoHints_find? hf with ⟨-,rfl⟩|⟨hg,-⟩
        · exact absurd ⟨rfl,rfl⟩ hkey
        · cases hg
      · exact absurd he not_since_nil
  have hobject : Settled twoKeys twoHints [.notify oneCall oneSession]
      (.object ⟨str "k",str "a",oneSession⟩) := trivial
  exact ((justified_nil.concat hnotify).concat hobject).concat hclear

/-- The session is cleared while the call is outstanding: the call is still
there to be run again. -/
theorem cleared_call_remembered :
    (after (perform (str "h")) (built twoKeys twoHints)
      [.notify oneCall oneSession,.clear oneSession]).actionForRerun oneSession=[oneCall] ∧
    ¬Outstanding twoHints oneSession [.notify oneCall oneSession,.clear oneSession] oneCall := by
  refine ⟨by decide +kernel,?_⟩
  rintro ⟨key,-,hsince⟩
  have hsettles : Settles oneCall.funcName key oneSession (.clear oneSession) := rfl
  exact not_since_settled (h:=[.notify oneCall oneSession]) (fun he => by cases he) hsettles hsince

end Pheromone.BySetReruns
