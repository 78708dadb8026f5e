import Pheromone.RerunMoves
import Pheromone.TableReactions
import Pheromone.TriggerCaches

/-!
# Slots of remembered calls

A trigger remembers calls in slots whose names end with the session, so that
sessions of equal length do not share one.
-/

namespace Pheromone.RerunSlots

open UnorderedContainers GuardedRuns CommonNames TriggerPrimitives OperationMessages
open WorkerUpdates SchedulerState Scheduling SchedulerLoop SchedulingRules TriggerCaches
open TableReactions RerunMoves

/-- The slots that are read for a session. -/
def slots (t : Trigger) (session : Session) : List Str :=
  match t.state with
  | .immediate _ => [session]
  | .byName _ => [session]
  | .byBatchSize _ => [session]
  | .bySet s => if s.funcKeyMap.isEmpty then [] else s.keySet.elems.map fun key => key++session
  | .dynamicGroup _ => []
  | .redundant _ => []
  | .byTime _ => []

/-- The slot of a function's calls in a session. -/
def slot (t : Trigger) (func : Str) (session : Session) : Str :=
  match t.state with
  | .bySet s => s.funcKeyMap.getD func []++session
  | _ => session

/-- The call in a slot. -/
def filed (t : Trigger) (k : Str) : Option TriggerFunctionMetadata := (cache t.state).find? k

theorem sessionRerun_eq (c : SessionStatusCache) (session : Session) :
    sessionRerun c session=[session].filterMap c.find? := by
  unfold sessionRerun
  cases h : c.find? session with
  | none =>
    rw [List.filterMap_cons_none h]
    rfl
  | some m =>
    rw [List.filterMap_cons_some h]
    rfl

theorem actionForRerun_eq (t : Trigger) (session : Session) :
    t.actionForRerun session=(slots t session).filterMap (filed t) := by
  obtain ⟨target,name,option,state⟩ := t
  cases state with
  | immediate t => exact sessionRerun_eq _ _
  | byName t => exact sessionRerun_eq _ _
  | byBatchSize t => exact sessionRerun_eq _ _
  | bySet t =>
    show t.actionForRerun session=(if t.funcKeyMap.isEmpty then [] else _).filterMap _
    unfold BySetTrigger.actionForRerun
    split
    · rfl
    · rw [List.filterMap_map]
      rfl
  | dynamicGroup t => rfl
  | redundant t => rfl
  | byTime t => rfl

variable {k : Str}

theorem exists_of_mem_slots {t : Trigger} {session : Session} (h : k∈slots t session) :
    ∃ key,k=key++session := by
  obtain ⟨target,name,option,state⟩ := t
  cases state with
  | immediate t => exact ⟨[],List.mem_singleton.mp h⟩
  | byName t => exact ⟨[],List.mem_singleton.mp h⟩
  | byBatchSize t => exact ⟨[],List.mem_singleton.mp h⟩
  | bySet t =>
    have hmem : k∈(if t.funcKeyMap.isEmpty then [] else t.keySet.elems.map fun key => key++session) := h
    split at hmem
    · cases hmem
    · obtain ⟨key,-,hk⟩ := List.mem_map.mp hmem
      exact ⟨key,hk.symm⟩
  | dynamicGroup t => cases h
  | redundant t => cases h
  | byTime t => cases h

theorem exists_slot_eq (t : Trigger) (func : Str) (session : Session) :
    ∃ key,slot t func session=key++session := by
  obtain ⟨target,name,option,state⟩ := t
  cases state with
  | bySet t => exact ⟨t.funcKeyMap.getD func [],rfl⟩
  | _ => exact ⟨[],rfl⟩

variable {s : Session}

/-- Slots of two sessions of equal length are different. -/
theorem slot_not_mem_slots {t : Trigger} {func : Str} {s' : Session} (hlen : s'.length=s.length)
    (hne : s'≠s) : slot t func s∉slots t s' := by
  intro h
  obtain ⟨key,hkey⟩ := exists_slot_eq t func s
  obtain ⟨key',hkey'⟩ := exists_of_mem_slots h
  exact hne (List.append_inj' (hkey'.symm.trans hkey) hlen).2

theorem slots_nodup (t : Trigger) (session : Session) : (slots t session).Nodup := by
  obtain ⟨target,name,option,state⟩ := t
  cases state with
  | immediate t => exact List.nodup_singleton session
  | byName t => exact List.nodup_singleton session
  | byBatchSize t => exact List.nodup_singleton session
  | bySet t =>
    show (if t.funcKeyMap.isEmpty then [] else t.keySet.elems.map fun key => key++session).Nodup
    split
    · exact List.nodup_nil
    · exact t.keySet.nodup.map fun a b h => List.append_cancel_right h
  | dynamicGroup t => exact List.nodup_nil
  | redundant t => exact List.nodup_nil
  | byTime t => exact List.nodup_nil

/-- A trigger reads and uses the same slots as another one. -/
structure SameSlots (t t' : Trigger) : Prop where
  slots : ∀ session,slots t' session=slots t session
  slot : ∀ func session,slot t' func session=slot t func session

/-- A trigger has emptied some of its slots. -/
structure Narrows (t t' : Trigger) : Prop extends SameSlots t t' where
  filed : ∀ k m,filed t' k=some m → filed t k=some m

theorem Narrows.refl (t : Trigger) : Narrows t t := ⟨⟨fun _ => rfl,fun _ _ => rfl⟩,fun _ _ h => h⟩

variable {t' : Trigger}

theorem Narrows.trans {t t'' : Trigger} (h : Narrows t t') (h' : Narrows t' t'') : Narrows t t'' :=
  ⟨⟨fun s => (h'.slots s).trans (h.slots s),fun f s => (h'.slot f s).trans (h.slot f s)⟩,
    fun k m hm => h.filed k m (h'.filed k m hm)⟩

/-- Where the slots of a session hold the same calls, the same calls are
outstanding. -/
theorem actionForRerun_congr {t : Trigger} {session : Session}
    (hslots : slots t' session=slots t session) (hfiled : ∀ k∈slots t session,filed t' k=filed t k) :
    t'.actionForRerun session=t.actionForRerun session := by
  rw [actionForRerun_eq,actionForRerun_eq,hslots]
  exact List.filterMap_congr hfiled

theorem filterMap_sublist {α β : Type} {f g : α → Option β} (h : ∀ a b,f a=some b → g a=some b)
    (l : List α) : (l.filterMap f).Sublist (l.filterMap g) := by
  induction l with
  | nil => exact List.Sublist.refl _
  | cons a l ih =>
    cases hf : f a with
    | none =>
      rw [List.filterMap_cons_none hf]
      exact ih.trans ((List.sublist_cons_self a l).filterMap g)
    | some b =>
      rw [List.filterMap_cons_some hf,List.filterMap_cons_some (h a b hf)]
      exact ih.cons_cons b

theorem Narrows.sublist {t : Trigger} (h : Narrows t t') (session : Session) :
    (t'.actionForRerun session).Sublist (t.actionForRerun session) := by
  rw [actionForRerun_eq,actionForRerun_eq,h.slots]
  exact filterMap_sublist h.filed _

theorem filed_erase {m : SessionStatusCache} {k' : Str} {call : TriggerFunctionMetadata}
    (h : (m.erase k).find? k'=some call) : m.find? k'=some call := by
  rw [UMap.find?_erase] at h
  split at h
  · cases h
  · exact h

theorem actionForNewObject_slots (t : Trigger) (now : ℤ) (bk : BucketKey) :
    Narrows t (t.actionForNewObject now bk).1 ∧
      ∀ k,(∀ key,k≠key++bk.session) → filed (t.actionForNewObject now bk).1 k=filed t k := by
  obtain ⟨target,name,option,state⟩ := t
  have hsession : ∀ k : Str,(∀ key,k≠key++bk.session) → k≠bk.session := fun k hk => hk []
  cases state with
  | immediate t =>
    exact ⟨⟨⟨fun _ => rfl,fun _ _ => rfl⟩,fun k m hm => filed_erase hm⟩,
      fun k hk => UMap.find?_erase_of_ne _ (hsession k hk)⟩
  | byName t =>
    exact ⟨⟨⟨fun _ => rfl,fun _ _ => rfl⟩,fun k m hm => filed_erase hm⟩,
      fun k hk => UMap.find?_erase_of_ne _ (hsession k hk)⟩
  | byBatchSize t =>
    have hstate : ∃ u : ByBatchSizeTrigger,(t.actionForNewObject target bk).1=u ∧
        u.sessionStatusCache=t.sessionStatusCache.erase bk.session := by
      refine ⟨_,rfl,?_⟩
      unfold ByBatchSizeTrigger.actionForNewObject
      dsimp only
      split <;> rfl
    obtain ⟨u,hu,hcache⟩ := hstate
    have hfiled : ∀ k,filed ⟨target,name,option,.byBatchSize (t.actionForNewObject target bk).1⟩ k=
        (t.sessionStatusCache.erase bk.session).find? k := by
      intro k
      show (t.actionForNewObject target bk).1.sessionStatusCache.find? k=_
      rw [hu,hcache]
    refine ⟨⟨⟨fun _ => rfl,fun _ _ => rfl⟩,fun k m hm => ?_⟩,fun k hk => ?_⟩
    · exact filed_erase ((hfiled k).symm.trans hm)
    · exact (hfiled k).trans (UMap.find?_erase_of_ne _ (hsession k hk))
  | bySet t =>
    by_cases hkey : bk.key∈t.keySet
    · have hstate : ∃ prepared,(t.actionForNewObject target bk).1={t with
          sessionPreparedKeysMap := prepared
          sessionStatusCache := t.sessionStatusCache.erase (bk.key++bk.session)} := by
        unfold BySetTrigger.actionForNewObject
        rw [if_pos hkey]
        dsimp only
        split
        · exact ⟨_,rfl⟩
        · exact ⟨_,rfl⟩
      obtain ⟨prepared,hstate⟩ := hstate
      show Narrows _ ⟨target,name,option,.bySet (t.actionForNewObject target bk).1⟩ ∧
        ∀ k,_ → filed ⟨target,name,option,.bySet (t.actionForNewObject target bk).1⟩ k=_
      rw [hstate]
      exact ⟨⟨⟨fun _ => rfl,fun _ _ => rfl⟩,fun k m hm => filed_erase hm⟩,
        fun k hk => UMap.find?_erase_of_ne _ (hk bk.key)⟩
    · have hstate : t.actionForNewObject target bk=(t,[]) := if_neg hkey
      show Narrows _ ⟨target,name,option,.bySet (t.actionForNewObject target bk).1⟩ ∧
        ∀ k,_ → filed ⟨target,name,option,.bySet (t.actionForNewObject target bk).1⟩ k=_
      rw [hstate]
      exact ⟨Narrows.refl _,fun _ _ => rfl⟩
  | dynamicGroup t => exact ⟨⟨⟨fun _ => rfl,fun _ _ => rfl⟩,fun _ _ hm => hm⟩,fun _ _ => rfl⟩
  | redundant t => exact ⟨⟨⟨fun _ => rfl,fun _ _ => rfl⟩,fun _ _ hm => hm⟩,fun _ _ => rfl⟩
  | byTime t => exact ⟨⟨⟨fun _ => rfl,fun _ _ => rfl⟩,fun _ _ hm => hm⟩,fun _ _ => rfl⟩

variable {now : ℤ}

/-- Calls of another session of the same length stay outstanding. -/
theorem actionForNewObject_other {t : Trigger} {bk : BucketKey} {session : Session}
    (hlen : session.length=bk.session.length) (hne : session≠bk.session) :
    (t.actionForNewObject now bk).1.actionForRerun session=t.actionForRerun session := by
  obtain ⟨hnarrows,hfiled⟩ := actionForNewObject_slots t now bk
  refine actionForRerun_congr (hnarrows.slots session) fun k hk => hfiled k fun key he => ?_
  obtain ⟨key',hkey'⟩ := exists_of_mem_slots hk
  exact hne (List.append_inj' (hkey'.symm.trans he) hlen).2

theorem narrows_clear (t : Trigger) (session : Session) : Narrows t (t.clear session) := by
  obtain ⟨target,name,option,state⟩ := t
  cases state with
  | byBatchSize t => exact ⟨⟨fun _ => rfl,fun _ _ => rfl⟩,fun k m hm => by cases hm⟩
  | bySet t => exact ⟨⟨fun _ => rfl,fun _ _ => rfl⟩,fun k m hm => filed_erase hm⟩
  | _ => exact ⟨⟨fun _ => rfl,fun _ _ => rfl⟩,fun _ _ hm => hm⟩

theorem isEmpty_touch {m : UMap Str Key} (h : ¬m.isEmpty=true) (func : Str) :
    ¬(m.touch func []).isEmpty=true := by
  unfold UMap.touch
  split
  · exact h
  · intro hempty
    have hnone := UMap.entries_eq_nil_iff.mp (List.isEmpty_iff.mp hempty) func
    rw [UMap.contains_set,decide_eq_true rfl] at hnone
    cases hnone

variable {t : Trigger} {call : TriggerFunctionMetadata} {session : Session}

theorem sameSlots_notifySourceFunc (t : Trigger) (call : TriggerFunctionMetadata)
    (session : Session) : SameSlots t (t.notifySourceFunc call session) := by
  obtain ⟨target,name,option,state⟩ := t
  cases state with
  | bySet t =>
    show SameSlots _ ⟨target,name,option,.bySet (t.notifySourceFunc call session)⟩
    unfold BySetTrigger.notifySourceFunc
    split
    · exact ⟨fun _ => rfl,fun _ _ => rfl⟩
    · rename_i hempty
      refine ⟨fun s => ?_,fun func s => ?_⟩
      · exact (if_neg (isEmpty_touch hempty call.funcName)).trans (if_neg hempty).symm
      · exact congrArg (fun key => key++s) (UMap.getD_touch t.funcKeyMap call.funcName func [])
  | _ => exact ⟨fun _ => rfl,fun _ _ => rfl⟩

/-- A call is put into its slot, or nothing is read at all. -/
theorem notifySourceFunc_filed (t : Trigger) (call : TriggerFunctionMetadata) (session : Session) :
    (∀ k,filed (t.notifySourceFunc call session) k=
        if k=slot t call.funcName session then some call else filed t k) ∨
      (∀ s,slots t s=[]) ∧ ∀ k,filed (t.notifySourceFunc call session) k=filed t k := by
  obtain ⟨target,name,option,state⟩ := t
  cases state with
  | immediate t => exact Or.inl fun k => UMap.find?_set _ _ _ _
  | byName t => exact Or.inl fun k => UMap.find?_set _ _ _ _
  | byBatchSize t => exact Or.inl fun k => UMap.find?_set _ _ _ _
  | bySet t =>
    show (∀ k,filed ⟨target,name,option,.bySet (t.notifySourceFunc call session)⟩ k=_) ∨
      _ ∧ ∀ k,filed ⟨target,name,option,.bySet (t.notifySourceFunc call session)⟩ k=_
    unfold BySetTrigger.notifySourceFunc
    split
    · rename_i hempty
      exact Or.inr ⟨fun s => if_pos hempty,fun _ => rfl⟩
    · exact Or.inl fun k => UMap.find?_set _ _ _ _
  | dynamicGroup t => exact Or.inr ⟨fun _ => rfl,fun _ => rfl⟩
  | redundant t => exact Or.inr ⟨fun _ => rfl,fun _ => rfl⟩
  | byTime t => exact Or.inr ⟨fun _ => rfl,fun _ => rfl⟩

/-- What is remembered afterwards is the call or was remembered before. -/
theorem notifySourceFunc_filed_cases {m : TriggerFunctionMetadata}
    (h : filed (t.notifySourceFunc call session) k=some m) :
    (k=slot t call.funcName session ∧ m=call) ∨ filed t k=some m := by
  rcases notifySourceFunc_filed t call session with hall|⟨-,hall⟩
  · rw [hall] at h
    split at h
    · rename_i hk
      exact Or.inl ⟨hk,(Option.some.inj h).symm⟩
    · exact Or.inr h
  · exact Or.inr ((hall k).symm.trans h)

theorem notifySourceFunc_other (hlen : s.length=session.length) (hne : s≠session) :
    (t.notifySourceFunc call session).actionForRerun s=t.actionForRerun s := by
  refine actionForRerun_congr ((sameSlots_notifySourceFunc t call session).slots s) fun k hk => ?_
  rcases notifySourceFunc_filed t call session with hall|⟨-,hall⟩
  · rw [hall,if_neg]
    rintro rfl
    exact slot_not_mem_slots hlen hne hk
  · exact hall k

/-- One value in a list without any. -/
theorem filterMap_one {α β : Type} {f g : α → Option β} {l : List α} {a : α} {b : β} (hl : l.Nodup)
    (hf : l.filterMap f=[]) (hb : g a=some b) (hg : ∀ x,x≠a → g x=f x) :
    (a∈l → l.filterMap g=[b]) ∧ (a∉l → l.filterMap g=[]) := by
  have hother : ∀ l',l'⊆l → a∉l' → l'.filterMap g=[] := by
    intro l' hsub ha
    refine List.filterMap_eq_nil_iff.mpr fun x hx => ?_
    rw [hg x fun he => ha (he ▸ hx)]
    exact List.filterMap_eq_nil_iff.mp hf x (hsub hx)
  refine ⟨fun ha => ?_,hother l (List.Subset.refl l)⟩
  obtain ⟨before,after,rfl⟩ := List.append_of_mem ha
  have hout := (List.nodup_middle.mp hl)
  obtain ⟨hnot,-⟩ := List.nodup_cons.mp hout
  rw [List.mem_append,not_or] at hnot
  have hbefore := hother before (List.subset_append_left _ _) hnot.1
  have hafter := hother after (fun x hx => List.mem_append_right _ (List.mem_cons_of_mem a hx)) hnot.2
  rw [List.filterMap_append,List.filterMap_cons_some hb,hbefore,hafter]
  rfl

/-- The first call of a session is the only one that is outstanding, if its
slot is read. -/
theorem notifySourceFunc_first (h : t.actionForRerun session=[]) :
    (slot t call.funcName session∈slots t session →
        (t.notifySourceFunc call session).actionForRerun session=[call]) ∧
      (slot t call.funcName session∉slots t session →
        (t.notifySourceFunc call session).actionForRerun session=[]) := by
  rw [actionForRerun_eq] at h ⊢
  rw [(sameSlots_notifySourceFunc t call session).slots]
  rcases notifySourceFunc_filed t call session with hall|⟨hslots,-⟩
  · exact filterMap_one (slots_nodup t session) h ((hall _).trans (if_pos rfl))
      fun k hk => (hall k).trans (if_neg hk)
  · rw [hslots]
    exact ⟨fun hmem => absurd hmem List.not_mem_nil,fun _ => rfl⟩

/-- Remembering a call in the slot that holds it changes nothing. -/
theorem notifySourceFunc_again (h : filed t (slot t call.funcName session)=some call)
    (s : Session) : (t.notifySourceFunc call session).actionForRerun s=t.actionForRerun s := by
  refine actionForRerun_congr ((sameSlots_notifySourceFunc t call session).slots s) fun k _ => ?_
  rcases notifySourceFunc_filed t call session with hall|⟨-,hall⟩
  · rw [hall]
    split
    · rename_i hk
      exact (hk ▸ h).symm
    · rfl
  · exact hall k

/-- A trigger of a worker, deleted ones included. -/
def Listed (w : WorkerTables) (p : TriggerPointer) : Prop :=
  (∃ bucket,p∈w.bucketTriggersMap.getD bucket []) ∨ p∈w.removed

variable {id : ℕ}

theorem listed_of_pointerTrigger {w : WorkerTables} (h : pointerTrigger w id=some t) :
    ∃ p,Listed w p ∧ p.id=id ∧ p.trigger=t := by
  obtain ⟨p,hp,ht⟩ := Option.map_eq_some_iff.mp h
  have hid := List.find?_some hp
  refine ⟨p,?_,of_decide_eq_true hid,ht⟩
  rcases List.mem_append.mp (List.mem_of_find?_eq_some hp) with hm|hm
  · obtain ⟨e,he,hpe⟩ := List.mem_flatMap.mp hm
    refine Or.inl ⟨e.1,?_⟩
    rw [UMap.getD,UMap.find?_eq_some_iff.mpr he]
    exact hpe
  · exact Or.inr hm

variable {p : TriggerPointer}

theorem exists_pointerTrigger {w : WorkerTables} (h : Listed w p) :
    ∃ t,pointerTrigger w p.id=some t := by
  have hmem : p∈w.bucketTriggersMap.entries.flatMap Prod.snd++w.removed := by
    rcases h with ⟨bucket,hp⟩|hp
    · rw [UMap.getD] at hp
      cases hf : w.bucketTriggersMap.find? bucket with
      | none =>
        rw [hf] at hp
        cases hp
      | some ps =>
        rw [hf] at hp
        refine List.mem_append_left _ (List.mem_flatMap.mpr ⟨(bucket,ps),?_,hp⟩)
        exact UMap.find?_eq_some_iff.mp hf
    · exact List.mem_append_right _ hp
  have hsome : ((w.bucketTriggersMap.entries.flatMap Prod.snd++w.removed).find? fun q =>
      decide (q.id=p.id)).isSome := List.find?_isSome.mpr ⟨p,hmem,decide_eq_true rfl⟩
  obtain ⟨q,hq⟩ := Option.isSome_iff_exists.mp hsome
  exact ⟨q.trigger,Option.map_eq_some_iff.mpr ⟨q,hq,rfl⟩⟩

/-- Identities of the triggers of a bucket. -/
def ids (w : WorkerTables) (bucket : Bucket) : List ℕ :=
  (w.bucketTriggersMap.getD bucket []).map TriggerPointer.id

/-- Identities of the deleted triggers. -/
def removedIds (w : WorkerTables) : List ℕ := w.removed.map TriggerPointer.id

/-- No two triggers have the same identity, and none has that of the next. -/
structure Apart (w : WorkerTables) : Prop where
  /-- Identities of listed triggers are used up. -/
  bounded : ∀ bucket,∀ id∈ids w bucket,id<w.nextId
  /-- Identities of deleted triggers are used up. -/
  boundedRemoved : ∀ id∈removedIds w,id<w.nextId
  nodup : ∀ bucket,(ids w bucket).Nodup
  buckets : ∀ b b' id,id∈ids w b → id∈ids w b' → b=b'
  removedNodup : (removedIds w).Nodup
  disjoint : ∀ bucket,∀ id∈ids w bucket,id∉removedIds w

theorem apart_start : Apart .start where
  bounded _ _ h := absurd h List.not_mem_nil
  boundedRemoved _ h := absurd h List.not_mem_nil
  nodup _ := List.nodup_nil
  buckets _ _ _ h := absurd h List.not_mem_nil
  removedNodup := List.nodup_nil
  disjoint _ _ h := absurd h List.not_mem_nil

/-- Only the identities matter. -/
theorem Apart.of_ids {w v : WorkerTables} (h : Apart w) (hids : ∀ bucket,ids v bucket=ids w bucket)
    (hremoved : removedIds v=removedIds w) (hnext : v.nextId=w.nextId) : Apart v := by
  refine ⟨?_,?_,?_,?_,?_,?_⟩
  · simpa only [hids,hnext] using h.bounded
  · simpa only [hremoved,hnext] using h.boundedRemoved
  · simpa only [hids] using h.nodup
  · simpa only [hids] using h.buckets
  · simpa only [hremoved] using h.removedNodup
  · simpa only [hids,hremoved] using h.disjoint

theorem Apart.lt {w : WorkerTables} (h : Apart w) (hp : Listed w p) : p.id<w.nextId := by
  rcases hp with ⟨b,hp⟩|hp
  · exact h.bounded b p.id (List.mem_map_of_mem hp)
  · exact h.boundedRemoved p.id (List.mem_map_of_mem hp)

variable {q : TriggerPointer}

theorem Apart.eq {w : WorkerTables} (h : Apart w) (hp : Listed w p) (hq : Listed w q)
    (hid : p.id=q.id) : p=q := by
  rcases hp with ⟨b,hp⟩|hp
  · have hpid : p.id∈ids w b := List.mem_map_of_mem hp
    rcases hq with ⟨b',hq⟩|hq
    · have hqid : p.id∈ids w b' := hid ▸ List.mem_map_of_mem hq
      have hb := h.buckets b b' p.id hpid hqid
      subst hb
      exact List.inj_on_of_nodup_map (h.nodup b) hp hq hid
    · exact absurd (hid ▸ List.mem_map_of_mem hq) (h.disjoint b p.id hpid)
  · rcases hq with ⟨b',hq⟩|hq
    · have hqid : p.id∈ids w b' := hid ▸ List.mem_map_of_mem hq
      exact absurd (List.mem_map_of_mem hp) (h.disjoint b' p.id hqid)
    · exact List.inj_on_of_nodup_map h.removedNodup hp hq hid

/-- The trigger of an identity is the one that is listed. -/
theorem Apart.pointerTrigger {w : WorkerTables} (h : Apart w) (hp : Listed w p) :
    pointerTrigger w p.id=some p.trigger := by
  obtain ⟨t,ht⟩ := exists_pointerTrigger hp
  obtain ⟨q,hq,hid,hqt⟩ := listed_of_pointerTrigger ht
  rw [ht,←hqt,h.eq hq hp hid]

/-- A trigger that remembers nothing. -/
def Blank (t : Trigger) : Prop := ∀ k,filed t k=none

theorem Blank.actionForRerun (h : Blank t) (session : Session) : t.actionForRerun session=[] := by
  rw [actionForRerun_eq]
  exact List.filterMap_eq_nil_iff.mpr fun k _ => h k

theorem Blank.of_narrows (h : Blank t) (hn : Narrows t t') : Blank t' := by
  intro k
  cases hk : filed t' k with
  | none => rfl
  | some m => cases (h k).symm.trans (hn.filed k m hk)

/-- A trigger comes from another one of the same identity by emptying slots,
but not those of the kept sessions. -/
def Comes (kept : ℕ → Session → Prop) (q p : TriggerPointer) : Prop :=
  q.id=p.id ∧ Narrows q.trigger p.trigger ∧
    ∀ session,kept p.id session → p.trigger.actionForRerun session=q.trigger.actionForRerun session

/-- Tables change by emptying slots, and by new triggers and their hints. -/
structure Evolves (kept : ℕ → Session → Prop) (w v : WorkerTables) : Prop where
  nextId : w.nextId≤v.nextId
  /-- Triggers are old or new. -/
  listed : ∀ p,Listed v p → (∃ q,Listed w q ∧ Comes kept q p) ∨ w.nextId≤p.id ∧ Blank p.trigger
  apart : Apart w → Apart v
  present : ∀ q,Listed w q → ∃ p,Listed v p ∧ p.id=q.id
  /-- Hints are added for new triggers. -/
  hints : ∀ func,∃ new,hintsOf v func=hintsOf w func++new ∧ ∀ hint∈new,
    w.nextId≤hint.triggerPtr ∧ hint.triggerPtr<v.nextId ∧ ∃ p,Listed v p ∧ p.id=hint.triggerPtr

variable {kept : ℕ → Session → Prop} {w v u : WorkerTables}

theorem Comes.refl (kept : ℕ → Session → Prop) (p : TriggerPointer) : Comes kept p p :=
  ⟨rfl,Narrows.refl _,fun _ _ => rfl⟩

theorem Comes.trans {r : TriggerPointer} (h : Comes kept r q) (h' : Comes kept q p) :
    Comes kept r p :=
  ⟨h.1.trans h'.1,h.2.1.trans h'.2.1,fun session hk =>
    (h'.2.2 session hk).trans (h.2.2 session (h'.1 ▸ hk))⟩

theorem Evolves.trans (h : Evolves kept w v) (h' : Evolves kept v u) : Evolves kept w u where
  nextId := h.nextId.trans h'.nextId
  listed p hp := by
    rcases h'.listed p hp with ⟨q,hq,hqp⟩|⟨hid,hblank⟩
    · rcases h.listed q hq with ⟨r,hr,hrq⟩|⟨hid,hblank⟩
      · exact Or.inl ⟨r,hr,hrq.trans hqp⟩
      · exact Or.inr ⟨hqp.1 ▸ hid,hblank.of_narrows hqp.2.1⟩
    · exact Or.inr ⟨h.nextId.trans hid,hblank⟩
  apart ha := h'.apart (h.apart ha)
  present r hr := by
    obtain ⟨q,hq,hid⟩ := h.present r hr
    obtain ⟨p,hp,hid'⟩ := h'.present q hq
    exact ⟨p,hp,hid'.trans hid⟩
  hints func := by
    obtain ⟨new,hv,hnew⟩ := h.hints func
    obtain ⟨new',hu,hnew'⟩ := h'.hints func
    refine ⟨new++new',by rw [hu,hv,List.append_assoc],fun hint hmem => ?_⟩
    rcases List.mem_append.mp hmem with hmem|hmem
    · obtain ⟨hge,hlt,q,hq,hid⟩ := hnew hint hmem
      obtain ⟨p,hp,hid'⟩ := h'.present q hq
      exact ⟨hge,hlt.trans_le h'.nextId,p,hp,hid'.trans hid⟩
    · obtain ⟨hge,hlt,hp⟩ := hnew' hint hmem
      exact ⟨h.nextId.trans hge,hlt,hp⟩

/-- Only other tables change. -/
theorem evolves_of_eq (kept : ℕ → Session → Prop) (h1 : v.bucketTriggersMap=w.bucketTriggersMap)
    (h2 : v.removed=w.removed) (h3 : v.nextId=w.nextId)
    (h4 : v.funcTriggerTimeoutMap=w.funcTriggerTimeoutMap) : Evolves kept w v := by
  have hlisted : ∀ p,Listed v p ↔ Listed w p := by
    intro p
    rw [Listed,Listed,h1,h2]
  refine ⟨h3.ge,fun p hp => ?_,fun ha => ?_,fun q hq => ⟨q,(hlisted q).mpr hq,rfl⟩,fun func => ?_⟩
  · exact Or.inl ⟨p,(hlisted p).mp hp,Comes.refl kept p⟩
  · exact ha.of_ids (fun b => by rw [ids,ids,h1]) (by rw [removedIds,removedIds,h2]) h3
  · refine ⟨[],?_,fun _ hmem => absurd hmem List.not_mem_nil⟩
    rw [hintsOf,hintsOf,h4,List.append_nil]

variable {bucket : Bucket} {f : TriggerPointer → TriggerPointer}

theorem ids_onBucket (hf : ∀ q∈w.bucketTriggersMap.getD bucket [],(f q).id=q.id) (b : Bucket) :
    ids (onBucket bucket f w) b=ids w b := by
  rw [ids,onBucket,UMap.getD_set]
  split
  · rename_i hb
    rw [hb,List.map_map]
    exact List.map_congr_left hf
  · rfl

theorem evolves_bucket (hf : ∀ q∈w.bucketTriggersMap.getD bucket [],Comes kept q (f q)) :
    Evolves kept w (onBucket bucket f w) := by
  have hget : ∀ b,(onBucket bucket f w).bucketTriggersMap.getD b []=
      if b=bucket then (w.bucketTriggersMap.getD bucket []).map f else w.bucketTriggersMap.getD b [] :=
    fun b => UMap.getD_set _ _ _ _ _
  refine ⟨le_refl _,fun p hp => Or.inl ?_,fun ha => ?_,fun q hq => ?_,fun func => ?_⟩
  · rcases hp with ⟨b,hp⟩|hp
    · rw [hget] at hp
      split at hp
      · obtain ⟨q,hq,rfl⟩ := List.mem_map.mp hp
        exact ⟨q,Or.inl ⟨bucket,hq⟩,hf q hq⟩
      · exact ⟨p,Or.inl ⟨b,hp⟩,Comes.refl kept p⟩
    · exact ⟨p,Or.inr hp,Comes.refl kept p⟩
  · exact ha.of_ids (ids_onBucket fun q hq => (hf q hq).1.symm) rfl rfl
  · rcases hq with ⟨b,hq⟩|hq
    · by_cases hb : b=bucket
      · subst hb
        refine ⟨f q,Or.inl ⟨b,?_⟩,(hf q hq).1.symm⟩
        rw [hget,if_pos rfl]
        exact List.mem_map_of_mem hq
      · refine ⟨q,Or.inl ⟨b,?_⟩,rfl⟩
        rwa [hget,if_neg hb]
    · exact ⟨q,Or.inr hq,rfl⟩
  · exact ⟨[],(List.append_nil _).symm,fun _ hmem => absurd hmem List.not_mem_nil⟩

theorem evolves_arrivedAt (kept : ℕ → Session → Prop) (cfg : SchedulerConfig) (st : SchedState)
    (bk : BucketKey)
    (hkept : ∀ p∈st.tables.bucketTriggersMap.getD bk.bucket [],∀ session,kept p.id session →
      session.length=bk.session.length ∧ session≠bk.session) :
    Evolves kept st.tables (arrivedAt cfg st bk).tables := by
  have htables : (arrivedAt cfg st bk).tables=
      onBucket bk.bucket (advance (cfg.clock st.tick) bk) st.tables := by
    unfold arrivedAt onBucket
    dsimp only
    rw [zipWith_arrivals]
    rfl
  rw [htables]
  refine evolves_bucket fun q hq => ⟨rfl,(actionForNewObject_slots _ _ _).1,fun session hk => ?_⟩
  obtain ⟨hlen,hne⟩ := hkept q hq session hk
  exact actionForNewObject_other hlen hne

theorem hintsOf_addHints (id : ℕ) (hints : List RerunHint) (m : UMap Str (List RerunTriggerTimeout))
    (func : Str) : ∃ new,(hints.foldl (addHint id) m).getD func []=m.getD func []++new ∧
      ∀ hint∈new,hint.triggerPtr=id := by
  induction hints generalizing m with
  | nil => exact ⟨[],(List.append_nil _).symm,fun _ hmem => absurd hmem List.not_mem_nil⟩
  | cons hint hints ih =>
    obtain ⟨new,hnew,hids⟩ := ih (addHint id m hint)
    have hget : (addHint id m hint).getD func []=m.getD func []++
        if func=hint.sourceFunction then [⟨id,hint.timeout⟩] else [] := by
      rw [addHint,UMap.getD_set]
      split
      · rename_i hfunc
        rw [hfunc]
      · exact (List.append_nil _).symm
    refine ⟨(if func=hint.sourceFunction then [⟨id,hint.timeout⟩] else [])++new,?_,?_⟩
    · rw [List.foldl_cons,hnew,hget,List.append_assoc]
    · refine List.forall_mem_append.mpr ⟨fun x hx => ?_,hids⟩
      split at hx
      · rw [List.mem_singleton.mp hx]
      · cases hx

variable {entity : TriggerEntity}

theorem blank_entityTrigger (h : entityTrigger now entity=some t) : Blank t := by
  have hnone : Remembers (fun _ => False) t := remembers_entityTrigger h
  intro k
  cases hk : filed t k with
  | none => rfl
  | some m => exact (hnone k m hk).elim

/-- A trigger with the next identity is appended to a bucket. -/
theorem apart_push (h : Apart w) (hget : ∀ b,v.bucketTriggersMap.getD b []=
      w.bucketTriggersMap.getD b []++if b=bucket then [⟨w.nextId,t⟩] else [])
    (hremoved : v.removed=w.removed) (hnext : v.nextId=w.nextId+1) : Apart v := by
  have hids : ∀ b,ids v b=ids w b++if b=bucket then [w.nextId] else [] := by
    intro b
    rw [ids,hget,List.map_append,ids]
    split <;> rfl
  have hcases : ∀ b,∀ id∈ids v b,id∈ids w b ∨ id=w.nextId ∧ b=bucket := by
    intro b id hid
    rw [hids] at hid
    rcases List.mem_append.mp hid with hid|hid
    · exact Or.inl hid
    · split at hid
      · rename_i hb
        exact Or.inr ⟨List.mem_singleton.mp hid,hb⟩
      · cases hid
  have hrem : removedIds v=removedIds w := by rw [removedIds,removedIds,hremoved]
  refine ⟨fun b id hid => ?_,fun id hid => ?_,fun b => ?_,fun b b' id hid hid' => ?_,?_,
    fun b id hid => ?_⟩
  · rcases hcases b id hid with hold|⟨rfl,-⟩
    · have hlt := h.bounded b id hold
      omega
    · omega
  · have hlt := h.boundedRemoved id (hrem ▸ hid)
    omega
  · rw [hids]
    split
    · refine List.nodup_append.mpr ⟨h.nodup b,List.nodup_singleton _,fun x hx y hy he => ?_⟩
      rw [List.mem_singleton.mp hy] at he
      exact absurd (h.bounded b x hx) (by omega)
    · rw [List.append_nil]
      exact h.nodup b
  · rcases hcases b id hid with hold|⟨rfl,hb⟩
    · rcases hcases b' id hid' with hold'|⟨rfl,-⟩
      · exact h.buckets b b' id hold hold'
      · exact absurd (h.bounded b _ hold) (lt_irrefl _)
    · rcases hcases b' _ hid' with hold'|⟨-,hb'⟩
      · exact absurd (h.bounded b' _ hold') (lt_irrefl _)
      · exact hb.trans hb'.symm
  · rw [hrem]
    exact h.removedNodup
  · rw [hrem]
    rcases hcases b id hid with hold|⟨rfl,-⟩
    · exact h.disjoint b id hold
    · exact fun hmem => absurd (h.boundedRemoved _ hmem) (lt_irrefl _)

theorem evolves_addTrigger (kept : ℕ → Session → Prop) (now : ℤ) (app : Str) (coord : HandlerThread)
    (w : WorkerTables) (entity : TriggerEntity) :
    Evolves kept w (addTrigger now app coord w entity) := by
  unfold addTrigger
  dsimp only
  split
  · exact evolves_of_eq kept rfl rfl rfl rfl
  · rename_i t ht
    have hget : ∀ b,(w.bucketTriggersMap.set entity.bucketName
        (w.bucketTriggersMap.getD entity.bucketName []++[⟨w.nextId,t⟩])).getD b []=
        w.bucketTriggersMap.getD b []++if b=entity.bucketName then [⟨w.nextId,t⟩] else [] := by
      intro b
      rw [UMap.getD_set]
      split
      · rename_i hb
        rw [hb]
      · exact (List.append_nil _).symm
    refine ⟨Nat.le_succ _,fun p hp => ?_,fun ha => apart_push ha hget rfl rfl,fun q hq => ?_,
      fun func => ?_⟩
    · rcases hp with ⟨b,hp⟩|hp
      · rw [hget] at hp
        rcases List.mem_append.mp hp with hp|hp
        · exact Or.inl ⟨p,Or.inl ⟨b,hp⟩,Comes.refl kept p⟩
        · split at hp
          · rw [List.mem_singleton.mp hp]
            exact Or.inr ⟨le_refl _,blank_entityTrigger ht⟩
          · cases hp
      · exact Or.inl ⟨p,Or.inr hp,Comes.refl kept p⟩
    · rcases hq with ⟨b,hq⟩|hq
      · refine ⟨q,Or.inl ⟨b,?_⟩,rfl⟩
        rw [hget]
        exact List.mem_append_left _ hq
      · exact ⟨q,Or.inr hq,rfl⟩
    · obtain ⟨new,hnew,hids⟩ := hintsOf_addHints w.nextId entity.hints w.funcTriggerTimeoutMap func
      refine ⟨new,hnew,fun hint hmem => ?_⟩
      rw [hids hint hmem]
      refine ⟨le_refl _,Nat.lt_succ_self _,⟨w.nextId,t⟩,Or.inl ⟨entity.bucketName,?_⟩,rfl⟩
      rw [hget,if_pos rfl]
      exact List.mem_append_right _ (List.mem_singleton_self _)

variable {msg : UpdateCoordMsg}

theorem evolves_addUpdate (kept : ℕ → Session → Prop) (h : addUpdate now w msg=some v) :
    Evolves kept w v := by
  refine addUpdate_invariant ?_ ?_ ?_ ?_ h
  · exact fun u func _ hu => hu.trans (evolves_of_eq kept rfl rfl rfl rfl)
  · exact fun u _ _ _ _ _ _ _ hu => hu.trans (evolves_of_eq kept rfl rfl rfl rfl)
  · exact fun u entity _ hu => hu.trans (evolves_addTrigger kept now _ _ u entity)
  · exact evolves_of_eq kept rfl rfl rfl rfl

/-- The first element of a kind and the list without it. -/
theorem eraseP_of_find? {α : Type} {f : α → Bool} {l : List α} {a : α} (h : l.find? f=some a) :
    ∃ before after,l=before++a::after ∧ l.eraseP f=before++after := by
  obtain ⟨ha,before,after,rfl,hbefore⟩ := List.find?_eq_some_iff_append.mp h
  refine ⟨before,after,rfl,?_⟩
  rw [List.eraseP_append_right _ fun b hb => by simpa using hbefore b hb,List.eraseP_cons_of_pos ha]

/-- A trigger is moved to the deleted ones. -/
theorem apart_move (h : Apart w) {d : TriggerPointer} {before after : List TriggerPointer}
    (hold : w.bucketTriggersMap.getD bucket []=before++d::after)
    (hget : ∀ b,v.bucketTriggersMap.getD b []=
      if b=bucket then before++after else w.bucketTriggersMap.getD b [])
    (hremoved : v.removed=w.removed++[d]) (hnext : v.nextId=w.nextId) : Apart v := by
  have hsub : ∀ b,(ids v b).Sublist (ids w b) := by
    intro b
    rw [ids,ids,hget]
    split
    · rename_i hb
      rw [hb,hold]
      exact ((List.Sublist.refl before).append (List.sublist_cons_self d after)).map _
    · exact List.Sublist.refl _
  have hd : d.id∈ids w bucket := by
    rw [ids,hold]
    exact List.mem_map_of_mem (List.mem_append_right _ List.mem_cons_self)
  have hgone : ∀ b,d.id∉ids v b := by
    intro b hid
    have hb := h.buckets b bucket d.id ((hsub b).subset hid) hd
    subst hb
    have hnodup := h.nodup b
    rw [ids,hold,List.map_append,List.map_cons] at hnodup
    rw [ids,hget,if_pos rfl,List.map_append] at hid
    exact (List.nodup_cons.mp (List.nodup_middle.mp hnodup)).1 hid
  have hrem : removedIds v=removedIds w++[d.id] := by
    rw [removedIds,hremoved,List.map_append]
    rfl
  refine ⟨fun b id hid => ?_,fun id hid => ?_,fun b => (hsub b).nodup (h.nodup b),
    fun b b' id hid hid' => ?_,?_,fun b id hid hmem => ?_⟩
  · rw [hnext]
    exact h.bounded b id ((hsub b).subset hid)
  · rw [hnext]
    rw [hrem] at hid
    rcases List.mem_append.mp hid with hid|hid
    · exact h.boundedRemoved id hid
    · rw [List.mem_singleton.mp hid]
      exact h.bounded bucket d.id hd
  · exact h.buckets b b' id ((hsub b).subset hid) ((hsub b').subset hid')
  · rw [hrem]
    refine List.nodup_append.mpr ⟨h.removedNodup,List.nodup_singleton _,fun x hx y hy he => ?_⟩
    rw [List.mem_singleton.mp hy] at he
    exact h.disjoint bucket d.id hd (he ▸ hx)
  · rw [hrem] at hmem
    rcases List.mem_append.mp hmem with hmem|hmem
    · exact h.disjoint b id ((hsub b).subset hid) hmem
    · exact hgone b (List.mem_singleton.mp hmem ▸ hid)

theorem evolves_deleteEntity (kept : ℕ → Session → Prop) (h : deleteEntity w entity=some v) :
    Evolves kept w v := by
  unfold deleteEntity at h
  dsimp only at h
  split at h
  · cases h
  · rename_i d hd
    obtain ⟨before,after,hold,hnew⟩ := eraseP_of_find? hd
    rw [hnew] at h
    rw [←Option.some.inj h]
    have hget : ∀ b,(w.bucketTriggersMap.set entity.bucketName (before++after)).getD b []=
        if b=entity.bucketName then before++after else w.bucketTriggersMap.getD b [] :=
      fun b => UMap.getD_set _ _ _ _ _
    refine ⟨le_refl _,fun p hp => Or.inl ⟨p,?_,Comes.refl kept p⟩,
      fun ha => apart_move ha hold hget rfl rfl,fun q hq => ⟨q,?_,rfl⟩,fun func =>
        ⟨[],(List.append_nil _).symm,fun _ hmem => absurd hmem List.not_mem_nil⟩⟩
    · rcases hp with ⟨b,hp⟩|hp
      · rw [hget] at hp
        split at hp
        · refine Or.inl ⟨entity.bucketName,?_⟩
          rw [hold]
          exact ((List.Sublist.refl before).append (List.sublist_cons_self d after)).subset hp
        · exact Or.inl ⟨b,hp⟩
      · rcases List.mem_append.mp hp with hp|hp
        · exact Or.inr hp
        · rw [List.mem_singleton.mp hp]
          exact Or.inl ⟨_,List.mem_of_find?_eq_some hd⟩
    · rcases hq with ⟨b,hq⟩|hq
      · by_cases hb : b=entity.bucketName
        · rw [hb,hold] at hq
          rcases List.mem_cons.mp (List.perm_middle.mem_iff.mp hq) with rfl|hq
          · exact Or.inr (List.mem_append_right _ (List.mem_singleton_self _))
          · refine Or.inl ⟨entity.bucketName,?_⟩
            rw [hget,if_pos rfl]
            exact hq
        · refine Or.inl ⟨b,?_⟩
          rwa [hget,if_neg hb]
      · exact Or.inr (List.mem_append_left _ hq)

/-- Clearing, where no trigger of the bucket has a session to keep. -/
theorem evolves_clearEntity
    (hkept : ∀ p∈w.bucketTriggersMap.getD entity.bucketName [],∀ session,¬kept p.id session) :
    Evolves kept w (clearEntity w entity) := by
  refine evolves_bucket fun q hq => ⟨rfl,?_,fun session hk => absurd hk (hkept q hq session)⟩
  dsimp only
  split
  · exact narrows_clear _ _
  · exact Narrows.refl _

theorem ids_clearEntity (w : WorkerTables) (entity : TriggerEntity) (bucket : Bucket) :
    ids (clearEntity w entity) bucket=ids w bucket := by
  refine ids_onBucket ?_ bucket
  exact fun _ _ => rfl

/-- Updates, where those that clear concern no session to keep. -/
theorem evolves_recvUpdate (kept : ℕ → Session → Prop)
    (hkept : msg.msgType=1 → ∀ entity∈msg.triggers,
      ∀ p∈w.bucketTriggersMap.getD entity.bucketName [],∀ session,¬kept p.id session)
    (h : recvUpdate now w msg=some v) : Evolves kept w v := by
  unfold recvUpdate at h
  split at h
  · exact evolves_addUpdate kept h
  · split at h
    · rename_i htype
      rw [←Option.some.inj h]
      have hall : Evolves kept w (msg.triggers.foldl clearEntity w) ∧
          ∀ bucket,ids (msg.triggers.foldl clearEntity w) bucket=ids w bucket := by
        refine List.foldlRecOn (motive:=fun u => Evolves kept w u ∧ ∀ bucket,ids u bucket=ids w bucket)
          msg.triggers clearEntity ⟨evolves_of_eq kept rfl rfl rfl rfl,fun _ => rfl⟩
          fun u hu entity he => ?_
        refine ⟨hu.1.trans (evolves_clearEntity fun p hp session hk => ?_),fun bucket =>
          (ids_clearEntity u entity bucket).trans (hu.2 bucket)⟩
        have hid : p.id∈ids w entity.bucketName :=
          hu.2 entity.bucketName ▸ List.mem_map_of_mem hp
        obtain ⟨q,hq,hqp⟩ := List.mem_map.mp hid
        exact hkept htype entity he q hq session (hqp ▸ hk)
      exact hall.1
    · split at h
      · have hdelete : ∀ u u',∀ entity∈msg.triggers,Evolves kept w u → deleteEntity u entity=some u' →
            Evolves kept w u' := fun u u' entity _ hu hd => hu.trans (evolves_deleteEntity kept hd)
        exact foldlM_invariant hdelete (evolves_of_eq kept rfl rfl rfl rfl) h
      · exact evolves_of_eq kept (Option.some.inj h ▸ rfl) (Option.some.inj h ▸ rfl)
          (Option.some.inj h ▸ rfl) (Option.some.inj h ▸ rfl)

theorem listed_notifyPointer {call : Invocation} :
    Listed (notifyPointer call id w) p ↔ ∃ q,Listed w q ∧ p=notePointer call id q := by
  constructor
  · rintro (⟨b,hp⟩|hp)
    · rw [notifyPointer_bucket] at hp
      obtain ⟨q,hq,rfl⟩ := List.mem_map.mp hp
      exact ⟨q,Or.inl ⟨b,hq⟩,rfl⟩
    · rw [notifyPointer_removed] at hp
      obtain ⟨q,hq,rfl⟩ := List.mem_map.mp hp
      exact ⟨q,Or.inr hq,rfl⟩
  · rintro ⟨q,⟨b,hq⟩|hq,rfl⟩
    · refine Or.inl ⟨b,?_⟩
      rw [notifyPointer_bucket]
      exact List.mem_map_of_mem hq
    · refine Or.inr ?_
      rw [notifyPointer_removed]
      exact List.mem_map_of_mem hq

theorem apart_notifyPointer {call : Invocation} (h : Apart w) :
    Apart (notifyPointer call id w) := by
  have hids : TriggerPointer.id ∘ notePointer call id=TriggerPointer.id :=
    funext fun p => notePointer_id call id p
  refine h.of_ids (fun b => ?_) ?_ rfl
  · rw [ids,notifyPointer_bucket,List.map_map,hids]
    rfl
  · rw [removedIds,notifyPointer_removed,List.map_map,hids]
    rfl

/-- The tables after the hints of a function have been read. -/
def touched (w : WorkerTables) (func : Str) : WorkerTables :=
  {w with funcTriggerTimeoutMap := w.funcTriggerTimeoutMap.touch func []}

theorem hintsOf_touched (w : WorkerTables) (func func' : Str) :
    hintsOf (touched w func) func'=hintsOf w func' := UMap.getD_touch _ _ _ _

theorem evolves_touched (kept : ℕ → Session → Prop) (w : WorkerTables) (func : Str) :
    Evolves kept w (touched w func) := by
  refine ⟨le_refl _,fun p hp => Or.inl ⟨p,hp,Comes.refl kept p⟩,fun ha => ?_,
    fun q hq => ⟨q,hq,rfl⟩,fun func' => ⟨[],?_,fun _ hmem => absurd hmem List.not_mem_nil⟩⟩
  · exact ha.of_ids (fun _ => rfl) rfl rfl
  · rw [hintsOf_touched,List.append_nil]

/-- The check that a hint asks for. -/
def checkOf (time : ℤ) (session : Session) (hint : RerunTriggerTimeout) : RerunCheckQueueItem :=
  ⟨time+hint.timeout.toNat*1000000,session,hint.triggerPtr⟩

variable {time : ℤ} {st : SchedState}

theorem noteHints_one {call : Invocation} {hint : RerunTriggerTimeout}
    (h : hintsOf st.tables call.funcName=[hint]) :
    noteHints call time st={st with
      tables := notifyPointer call hint.triggerPtr (touched st.tables call.funcName)
      rerunCheckQueue := st.rerunCheckQueue++[checkOf time call.sessionId hint]} := by
  show (hintsOf st.tables call.funcName).foldl _ _=_
  rw [h]
  rfl

end Pheromone.RerunSlots
