import Pheromone.ReactiveMachines
import Pheromone.EventHistories
import Pheromone.TriggerPrimitives

/-!
# A set trigger session by session

A set trigger stores keys of its set only and never all of them, so that
equal numbers of keys say that all have arrived.
-/

namespace Pheromone.BySetSessions

open UnorderedContainers EventHistories ReactiveMachines CommonNames TriggerPrimitives

/-- Calls of the functions of a trigger. -/
inductive TriggerCall where
  | notify (call : TriggerFunctionMetadata) (session : Session)
  | object (bk : BucketKey)
  | clear (session : Session)
  deriving DecidableEq

/-- The session of a call. -/
def TriggerCall.session : TriggerCall → Session
  | .notify _ session => session
  | .object bk => bk.session
  | .clear session => session

/-- One call of a set trigger. -/
def perform (target : Str) (t : BySetTrigger) : TriggerCall → BySetTrigger×List TriggerAction
  | .notify call session => (t.notifySourceFunc call session,[])
  | .object bk => t.actionForNewObject target bk
  | .clear session => (t.clear session,[])

/-- The trigger after it was built and given its hints. -/
def built (keys : USet Key) (hints : UMap Str Key) : BySetTrigger := ⟨keys,∅,hints,∅⟩

/-- A clear of the session, or an arrival in it that fired. -/
def Restarts (s : Session) (e : TriggerCall×List TriggerAction) : Prop :=
  e.1=.clear s ∨ ∃ bk,e.1=.object bk ∧ bk.session=s ∧ e.2≠[]

/-- An arrival of the key in the session that did not fire. -/
def Arrives (s : Session) (k : Key) (e : TriggerCall×List TriggerAction) : Prop :=
  ∃ bk,e.1=.object bk ∧ bk.session=s ∧ bk.key=k ∧ e.2=[]

/-- With the object every key has arrived in its session since the session was
last cleared or fired. -/
def Complete (keys : USet Key) (tr : List (TriggerCall×List TriggerAction)) (bk : BucketKey) : Prop :=
  ∀ k∈keys,k=bk.key ∨ Since (Arrives bk.session k) (Restarts bk.session) tr

/-- An arrival fires once, with all keys of its session, if it is the one that
completes them, and not otherwise. -/
def FiresExactly (target : Str) (keys : USet Key) (tr : List (TriggerCall×List TriggerAction))
    (e : TriggerCall×List TriggerAction) : Prop :=
  ∀ bk,e.1=.object bk →
    (Complete keys tr bk → ∃ a,e.2=[a] ∧ a.function=target ∧
      a.sessionKeys.Perm (keys.elems.map fun k => (bk.session,k))) ∧
    (¬Complete keys tr bk → e.2=[])

/-- A non-empty strict subset of the keys. -/
structure StrictPart (keys p : USet Key) : Prop where
  some : ∃ k,k∈p
  /-- All are keys of the set. -/
  subset : ∀ k∈p,k∈keys
  /-- A key of the set is missing. -/
  missing : ∃ k∈keys,k∉p

/-- Whether an action is given objects of the session. -/
def actsFor (s : Session) (a : TriggerAction) : Bool :=
  a.sessionKeys.any fun sessionKey => decide (sessionKey.1=s)

/-- What a set trigger does on a sequence of calls, session by session. -/
structure PerSession (target : Str) (keys : USet Key) (hints : UMap Str Key)
    (l : List TriggerCall) : Prop where
  /-- The actions of a session are those of its own calls alone. -/
  independent : ∀ s,(outputs (perform target) (built keys hints) l).flatten.filter (actsFor s)=
    (outputs (perform target) (built keys hints) (l.filter fun c => decide (c.session=s))).flatten
  /-- It fires exactly at the arrivals that complete a session. -/
  fires : Justified (FiresExactly target keys) (trace (perform target) (built keys hints) l)
  /-- Between calls it stores non-empty strict subsets of its keys. -/
  stored : ∀ l' p s,l'<+:l →
    (after (perform target) (built keys hints) l').sessionPreparedKeysMap.find? s=some p →
    StrictPart keys p

variable {target : Str} {keys : USet Key}

/-- The trigger holds the keys that have arrived. -/
structure Holds (keys : USet Key) (t : BySetTrigger) (tr : List (TriggerCall×List TriggerAction)) :
    Prop where
  /-- The keys it waits for. -/
  keySet : t.keySet=keys
  /-- The keys it holds for a session. -/
  prepared : ∀ s k,k∈t.sessionPreparedKeysMap.getD s ∅ ↔
    k∈keys ∧ Since (Arrives s k) (Restarts s) tr
  /-- What it stores. -/
  stored : ∀ s p,t.sessionPreparedKeysMap.find? s=some p → StrictPart keys p

theorem holds_built (hints : UMap Str Key) : Holds keys (built keys hints) [] :=
  ⟨rfl,fun _ _ => iff_of_false (USet.not_mem_empty _) fun h => not_since_nil h.2,
    fun _ _ h => by cases h⟩

variable {t : BySetTrigger} {tr : List (TriggerCall×List TriggerAction)}

/-- Some key has always not arrived. -/
theorem Holds.exists_missing (h : Holds keys t tr) (hkeys : ∃ k,k∈keys) (s : Session) :
    ∃ k∈keys,¬Since (Arrives s k) (Restarts s) tr := by
  obtain ⟨k,hk⟩ := hkeys
  cases hp : t.sessionPreparedKeysMap.find? s with
  | none =>
    refine ⟨k,hk,fun hsince => ?_⟩
    have hmem := (h.prepared s k).mpr ⟨hk,hsince⟩
    rw [UMap.getD,hp] at hmem
    exact USet.not_mem_empty k hmem
  | some p =>
    obtain ⟨k,hk,hmissing⟩ := (h.stored s p hp).missing
    refine ⟨k,hk,fun hsince => hmissing ?_⟩
    have hmem := (h.prepared s k).mpr ⟨hk,hsince⟩
    rwa [UMap.getD,hp] at hmem

variable {s : Session} {k : Key} {e : TriggerCall×List TriggerAction}

theorem since_unrelated (harrives : ¬Arrives s k e) (hrestarts : ¬Restarts s e) :
    Since (Arrives s k) (Restarts s) (tr++[e]) ↔ Since (Arrives s k) (Restarts s) tr := by
  rw [since_concat]
  exact ⟨fun h => h.elim (fun ha => absurd ha harrives) And.right,fun h => Or.inr ⟨hrestarts,h⟩⟩

theorem not_since_restart (harrives : ¬Arrives s k e) (hrestarts : Restarts s e) :
    ¬Since (Arrives s k) (Restarts s) (tr++[e]) := by
  rw [since_concat]
  exact fun h => h.elim harrives fun h => h.1 hrestarts

theorem not_arrives_clear (s s' : Session) (k : Key) : ¬Arrives s k (.clear s',[]) := by
  rintro ⟨bk,h,-⟩
  cases h

theorem restarts_clear {s' : Session} : Restarts s (.clear s',[]) ↔ s'=s := by
  refine ⟨?_,fun h => Or.inl (congrArg TriggerCall.clear h)⟩
  rintro (h|⟨bk,h,-⟩)
  · exact TriggerCall.clear.inj h
  · cases h

variable {bk : BucketKey} {acts : List TriggerAction}

theorem arrives_object : Arrives s k (.object bk,acts) ↔ bk.session=s ∧ bk.key=k ∧ acts=[] := by
  constructor
  · rintro ⟨bk',h,hrest⟩
    rwa [TriggerCall.object.inj h]
  · exact fun h => ⟨bk,rfl,h⟩

theorem restarts_object : Restarts s (.object bk,acts) ↔ bk.session=s ∧ acts≠[] := by
  constructor
  · rintro (h|⟨bk',h,hrest⟩)
    · cases h
    · rwa [TriggerCall.object.inj h]
  · exact fun h => Or.inr ⟨bk,rfl,h⟩

/-- A notification is nothing to what a trigger waits for. -/
theorem notifySourceFunc_frame (t : BySetTrigger) (call : TriggerFunctionMetadata) (session : Session) :
    (t.notifySourceFunc call session).keySet=t.keySet ∧
      (t.notifySourceFunc call session).sessionPreparedKeysMap=t.sessionPreparedKeysMap := by
  unfold BySetTrigger.notifySourceFunc
  split <;> exact ⟨rfl,rfl⟩

theorem Holds.notify (h : Holds keys t tr) (call : TriggerFunctionMetadata) (session : Session) :
    Holds keys (t.notifySourceFunc call session) (tr++[(.notify call session,[])]) := by
  have hsame := notifySourceFunc_frame t call session
  refine ⟨hsame.1.trans h.keySet,fun s k => ?_,fun s p hp => h.stored s p (hsame.2 ▸ hp)⟩
  rw [hsame.2,h.prepared,since_unrelated]
  · rintro ⟨bk,hbk,-⟩
    cases hbk
  · rintro (hbk|⟨bk,hbk,-⟩) <;> cases hbk

theorem Holds.clear (h : Holds keys t tr) (session : Session) :
    Holds keys (t.clear session) (tr++[(.clear session,[])]) := by
  refine ⟨h.keySet,fun s k => ?_,fun s p hp => ?_⟩
  · show k∈(t.sessionPreparedKeysMap.erase session).getD s ∅ ↔ _
    rw [UMap.getD_erase]
    split
    · rename_i hs
      refine iff_of_false (USet.not_mem_empty k) fun hc => ?_
      exact not_since_restart (not_arrives_clear _ _ _) (restarts_clear.mpr hs.symm) hc.2
    · rename_i hs
      rw [h.prepared,since_unrelated (not_arrives_clear _ _ _) fun hc => hs (restarts_clear.mp hc).symm]
  · have hfind : (t.sessionPreparedKeysMap.erase session).find? s=some p := hp
    rw [UMap.find?_erase] at hfind
    split at hfind
    · cases hfind
    · exact h.stored s p hfind

/-- The keys of the object's session with the object. -/
theorem Holds.mem_insert (h : Holds keys t tr) (hk : bk.key∈keys) (k : Key) :
    k∈(t.sessionPreparedKeysMap.getD bk.session ∅).insert bk.key ↔
      k∈keys ∧ (k=bk.key ∨ Since (Arrives bk.session k) (Restarts bk.session) tr) := by
  rw [USet.mem_insert,h.prepared]
  constructor
  · rintro (rfl|⟨hkey,hsince⟩)
    · exact ⟨hk,Or.inl rfl⟩
    · exact ⟨hkey,Or.inr hsince⟩
  · rintro ⟨hkey,rfl|hsince⟩
    · exact Or.inl rfl
    · exact Or.inr ⟨hkey,hsince⟩

/-- The number of keys tells whether the object completes its session. -/
theorem Holds.size_eq_iff (h : Holds keys t tr) (hk : bk.key∈keys) :
    ((t.sessionPreparedKeysMap.getD bk.session ∅).insert bk.key).size=t.keySet.size ↔
      Complete keys tr bk := by
  rw [h.keySet,USet.size_eq_iff_of_subset fun k hmem => ((h.mem_insert hk k).mp hmem).1]
  refine forall_congr' fun k => forall_congr' fun hkey => ?_
  rw [h.mem_insert hk]
  exact and_iff_right hkey

variable {cache : SessionStatusCache}

/-- A complete session is forgotten. -/
theorem Holds.fired (h : Holds keys t tr) (p : USet Key) (hacts : acts≠[]) :
    Holds keys {t with
      sessionPreparedKeysMap := (t.sessionPreparedKeysMap.set bk.session p).erase bk.session
      sessionStatusCache := cache} (tr++[(.object bk,acts)]) := by
  have harrives : ∀ s k,¬Arrives s k (.object bk,acts) :=
    fun s k hc => hacts (arrives_object.mp hc).2.2
  refine ⟨h.keySet,fun s k => ?_,fun s p' hp => ?_⟩
  · dsimp only
    rw [UMap.getD_erase]
    split
    · rename_i hs
      refine iff_of_false (USet.not_mem_empty k) fun hc => ?_
      exact not_since_restart (harrives s k) (restarts_object.mpr ⟨hs.symm,hacts⟩) hc.2
    · rename_i hs
      rw [UMap.getD_set,if_neg hs,h.prepared,
        since_unrelated (harrives s k) fun hc => hs (restarts_object.mp hc).1.symm]
  · dsimp only at hp
    rw [UMap.find?_erase] at hp
    split at hp
    · cases hp
    · rename_i hs
      rw [UMap.find?_set_of_ne _ hs] at hp
      exact h.stored s p' hp

/-- A key of an incomplete session is stored. -/
theorem Holds.collected (h : Holds keys t tr) (hk : bk.key∈keys) (hcomplete : ¬Complete keys tr bk) :
    Holds keys {t with
      sessionPreparedKeysMap := t.sessionPreparedKeysMap.set bk.session
        ((t.sessionPreparedKeysMap.getD bk.session ∅).insert bk.key)
      sessionStatusCache := cache} (tr++[(.object bk,[])]) := by
  have hrestarts : ∀ s,¬Restarts s (.object bk,[]) := fun s hc => (restarts_object.mp hc).2 rfl
  refine ⟨h.keySet,fun s k => ?_,fun s p hp => ?_⟩
  · dsimp only
    rw [UMap.getD_set]
    split
    · rename_i hs
      subst hs
      rw [h.mem_insert hk,since_concat,arrives_object]
      simp only [hrestarts,not_false_eq_true,true_and,and_true,eq_comm]
    · rename_i hs
      rw [h.prepared,since_unrelated (fun hc => hs (arrives_object.mp hc).1.symm) (hrestarts s)]
  · dsimp only at hp
    rw [UMap.find?_set] at hp
    split at hp
    · rw [←Option.some.inj hp]
      refine ⟨⟨bk.key,(h.mem_insert hk _).mpr ⟨hk,Or.inl rfl⟩⟩,
        fun k hmem => ((h.mem_insert hk k).mp hmem).1,?_⟩
      by_contra hall
      refine hcomplete fun k hkey => ?_
      have hmem : k∈(t.sessionPreparedKeysMap.getD bk.session ∅).insert bk.key := by
        by_contra hmissing
        exact hall ⟨k,hkey,hmissing⟩
      exact ((h.mem_insert hk k).mp hmem).2
    · exact h.stored s p hp

/-- A key outside the set changes nothing. -/
theorem Holds.foreign (h : Holds keys t tr) (hk : bk.key∉keys) :
    Holds keys t (tr++[(.object bk,[])]) := by
  refine ⟨h.keySet,fun s k => ?_,h.stored⟩
  rw [h.prepared]
  refine and_congr_right fun hkey => (since_unrelated (fun hc => ?_) fun hc => ?_).symm
  · exact hk ((arrives_object.mp hc).2.1 ▸ hkey)
  · exact (restarts_object.mp hc).2 rfl

/-- One arrival keeps what the trigger holds, and fires as it should. -/
theorem Holds.object (h : Holds keys t tr) (hkeys : ∃ k,k∈keys) (bk : BucketKey) :
    Holds keys (t.actionForNewObject target bk).1
        (tr++[(.object bk,(t.actionForNewObject target bk).2)]) ∧
      FiresExactly target keys tr (.object bk,(t.actionForNewObject target bk).2) := by
  have hfires : ∀ acts : List TriggerAction,
      (Complete keys tr bk → ∃ a,acts=[a] ∧ a.function=target ∧
        a.sessionKeys.Perm (keys.elems.map fun k => (bk.session,k))) →
      (¬Complete keys tr bk → acts=[]) → FiresExactly target keys tr (.object bk,acts) := by
    intro acts hfull hnot bk' hbk
    rw [←TriggerCall.object.inj hbk]
    exact ⟨hfull,hnot⟩
  unfold BySetTrigger.actionForNewObject
  by_cases hk : bk.key∈t.keySet
  · have hkey : bk.key∈keys := h.keySet ▸ hk
    rw [if_pos hk]
    by_cases hcomplete : Complete keys tr bk
    · dsimp only
      rw [if_pos ((h.size_eq_iff hkey).mpr hcomplete)]
      refine ⟨h.fired _ (List.cons_ne_nil _ _),hfires _ (fun _ => ⟨_,rfl,rfl,?_⟩) ?_⟩
      · rw [h.keySet]
      · exact fun hc => absurd hcomplete hc
    · dsimp only
      rw [if_neg (mt (h.size_eq_iff hkey).mp hcomplete)]
      exact ⟨h.collected hkey hcomplete,hfires _ (fun hc => absurd hc hcomplete) fun _ => rfl⟩
  · have hkey : bk.key∉keys := h.keySet ▸ hk
    obtain ⟨k,hmem,hmissing⟩ := h.exists_missing hkeys bk.session
    rw [if_neg hk]
    refine ⟨h.foreign hkey,hfires _ (fun hcomplete => ?_) fun _ => rfl⟩
    rcases hcomplete k hmem with rfl|hsince
    · exact absurd hmem hkey
    · exact absurd hsince hmissing

/-- One call keeps what the trigger holds, and is answered as it should. -/
theorem holds_perform (hkeys : ∃ k,k∈keys) (h : Holds keys t tr)
    (hj : Justified (FiresExactly target keys) tr) (c : TriggerCall) :
    Holds keys (perform target t c).1 (tr++[(c,(perform target t c).2)]) ∧
      Justified (FiresExactly target keys) (tr++[(c,(perform target t c).2)]) := by
  cases c with
  | notify call session => exact ⟨h.notify call session,hj.concat fun bk hbk => by cases hbk⟩
  | object bk => exact ⟨(h.object hkeys bk).1,hj.concat (h.object hkeys bk).2⟩
  | clear session => exact ⟨h.clear session,hj.concat fun bk hbk => by cases hbk⟩

theorem holds_after (target : Str) (hkeys : ∃ k,k∈keys) (hints : UMap Str Key) (l : List TriggerCall) :
    Holds keys (after (perform target) (built keys hints) l)
        (trace (perform target) (built keys hints) l) ∧
      Justified (FiresExactly target keys) (trace (perform target) (built keys hints) l) := by
  have hstep : ∀ (t : BySetTrigger) (tr : List (TriggerCall×List TriggerAction)) (c : TriggerCall),
      Holds keys t tr ∧ Justified (FiresExactly target keys) tr →
      Holds keys (perform target t c).1 (tr++[(c,(perform target t c).2)]) ∧
        Justified (FiresExactly target keys) (tr++[(c,(perform target t c).2)]) :=
    fun t tr c h => holds_perform hkeys h.1 h.2 c
  exact trace_invariant hstep ⟨holds_built hints,justified_nil⟩ l

/-- Two triggers of the keys that hold the same for a session. -/
structure Agree (keys : USet Key) (s : Session) (t t' : BySetTrigger) : Prop where
  /-- The keys the first waits for. -/
  keySet : t.keySet=keys
  /-- The keys the second waits for. -/
  keySet' : t'.keySet=keys
  /-- What they hold for the session. -/
  prepared : t.sessionPreparedKeysMap.getD s ∅=t'.sessionPreparedKeysMap.getD s ∅

/-- An action with all keys of a session is for that session only. -/
theorem actsFor_keys (hkeys : ∃ k,k∈keys) (s s' : Session) :
    actsFor s ⟨target,keys.elems.map fun k => (s',k)⟩=decide (s'=s) := by
  obtain ⟨k,hk⟩ := hkeys
  rw [actsFor,List.any_map,Bool.eq_iff_iff,List.any_eq_true,decide_eq_true_iff]
  exact ⟨fun h => of_decide_eq_true h.choose_spec.2,fun h => ⟨k,hk,decide_eq_true h⟩⟩

variable {c : TriggerCall}

theorem perform_other (hkeys : ∃ k,k∈keys) (ht : t.keySet=keys) (hc : s≠c.session) :
    (perform target t c).1.keySet=keys ∧
      (perform target t c).1.sessionPreparedKeysMap.getD s ∅=t.sessionPreparedKeysMap.getD s ∅ ∧
      (perform target t c).2.filter (actsFor s)=[] := by
  cases c with
  | notify call session =>
    obtain ⟨hkey,hprep⟩ := notifySourceFunc_frame t call session
    exact ⟨hkey.trans ht,congrArg (fun m => UMap.getD m s ∅) hprep,rfl⟩
  | clear session =>
    refine ⟨ht,?_,rfl⟩
    show (t.sessionPreparedKeysMap.erase session).getD s ∅=_
    rw [UMap.getD_erase]
    exact if_neg hc
  | object bk =>
    have hs : s≠bk.session := hc
    simp only [perform,BySetTrigger.actionForNewObject]
    split
    · split
      · refine ⟨ht,?_,List.filter_cons_of_neg ?_⟩
        · rw [UMap.getD_erase,if_neg hs,UMap.getD_set,if_neg hs]
        · rw [ht,actsFor_keys hkeys]
          exact fun h => hs (of_decide_eq_true h).symm
      · refine ⟨ht,?_,rfl⟩
        rw [UMap.getD_set,if_neg hs]
    · exact ⟨ht,rfl,rfl⟩

theorem perform_own (hkeys : ∃ k,k∈keys) {t' : BySetTrigger} (h : Agree keys c.session t t') :
    Agree keys c.session (perform target t c).1 (perform target t' c).1 ∧
      (perform target t c).2.filter (actsFor c.session)=(perform target t' c).2 := by
  cases c with
  | notify call session =>
    obtain ⟨hkey,hprep⟩ := notifySourceFunc_frame t call session
    obtain ⟨hkey',hprep'⟩ := notifySourceFunc_frame t' call session
    refine ⟨⟨hkey.trans h.keySet,hkey'.trans h.keySet',?_⟩,rfl⟩
    show (t.notifySourceFunc call session).sessionPreparedKeysMap.getD session ∅=
      (t'.notifySourceFunc call session).sessionPreparedKeysMap.getD session ∅
    rw [hprep,hprep']
    exact h.prepared
  | clear session =>
    refine ⟨⟨h.keySet,h.keySet',?_⟩,rfl⟩
    show (t.sessionPreparedKeysMap.erase session).getD session ∅=
      (t'.sessionPreparedKeysMap.erase session).getD session ∅
    rw [UMap.getD_erase,UMap.getD_erase,if_pos rfl,if_pos rfl]
  | object bk =>
    have hprep : t.sessionPreparedKeysMap.getD bk.session ∅=
        t'.sessionPreparedKeysMap.getD bk.session ∅ := h.prepared
    simp only [perform,TriggerCall.session,BySetTrigger.actionForNewObject,h.keySet,h.keySet',hprep]
    split
    · split
      · refine ⟨⟨rfl,rfl,?_⟩,List.filter_cons_of_pos ?_⟩
        · rw [UMap.getD_erase,UMap.getD_erase,if_pos rfl,if_pos rfl]
        · rw [actsFor_keys hkeys,decide_eq_true rfl]
      · refine ⟨⟨rfl,rfl,?_⟩,rfl⟩
        rw [UMap.getD_set_self,UMap.getD_set_self]
    · exact ⟨h,rfl⟩

theorem outputs_session (hkeys : ∃ k,k∈keys) (hints : UMap Str Key) (l : List TriggerCall)
    (s : Session) :
    (outputs (perform target) (built keys hints) l).flatten.filter (actsFor s)=
      (outputs (perform target) (built keys hints)
        (l.filter fun c => decide (c.session=s))).flatten := by
  have hmine : ∀ t t' c,Agree keys s t t' → decide (TriggerCall.session c=s)=true →
      Agree keys s (perform target t c).1 (perform target t' c).1 ∧
        (perform target t c).2.filter (actsFor s)=(perform target t' c).2 := by
    intro t t' c h hc
    rw [←of_decide_eq_true hc] at h ⊢
    exact perform_own hkeys h
  have hother : ∀ t t' c,Agree keys s t t' → decide (TriggerCall.session c=s)=false →
      Agree keys s (perform target t c).1 t' ∧ (perform target t c).2.filter (actsFor s)=[] := by
    intro t t' c h hc
    obtain ⟨hkey,hprep,hacts⟩ := perform_other hkeys h.keySet (fun he => of_decide_eq_false hc he.symm)
    exact ⟨⟨hkey,h.keySet',hprep.trans h.prepared⟩,hacts⟩
  exact outputs_filter hmine hother ⟨rfl,rfl,rfl⟩ l

/-- For every non-empty key set and every sequence of calls the sessions of a
set trigger are independent, it fires exactly when a session is complete, and
it stores nothing but non-empty strict subsets of its keys. -/
theorem bySet_perSession (target : Str) {keys : USet Key} (hkeys : keys.elems≠[])
    (hints : UMap Str Key) (l : List TriggerCall) : PerSession target keys hints l := by
  have hmem : ∃ k,k∈keys := List.exists_mem_of_ne_nil _ hkeys
  refine ⟨outputs_session hmem hints l,(holds_after target hmem hints l).2,fun l' p s _ hp => ?_⟩
  exact (holds_after target hmem hints l').1.stored s p hp

theorem bySet_perSession_two : PerSession (str "h") (USet.ofList [str "a",str "b"]) ∅
    [.object ⟨str "k",str "a",str "s"⟩,.object ⟨str "k",str "a",str "r"⟩,
      .object ⟨str "k",str "b",str "s"⟩,.clear (str "r"),.object ⟨str "k",str "b",str "r"⟩] :=
  bySet_perSession (str "h") (by decide +kernel) ∅ _

end Pheromone.BySetSessions
