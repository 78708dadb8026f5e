import Pheromone.CallRules
import Pheromone.EventHistories
import Pheromone.RerunSlots

/-!
# Re-execution after a timeout

A due check executes again all calls that its trigger remembers for the
session. If a hinted call starts only when none of its trigger and session is
left, the timeouts are respected.
-/

namespace Pheromone.RerunTimeouts

open UnorderedContainers GuardedRuns EventHistories CommonNames TriggerPrimitives
open OperationMessages WorkerUpdates ExecutorPool SchedulerState Scheduling SchedulerLoop
open SchedulingRules RerunMoves RerunSlots

/-- The last execution of a function in a session; calls that no executor
took are not executed. -/
def lastExecution (executions : List Execution) (session : Session) (func : Str) :
    Option Execution :=
  executions.reverse.find? fun e =>
    e.taken && decide (e.call.sessionId=session ∧ e.call.funcName=func)

/-- When the timeout of a hint ends after an execution. -/
def deadline (e : Execution) (hint : RerunTriggerTimeout) : ℤ := e.time+hint.timeout.toNat*1000000

/-- A re-execution comes after the timeout of every hint of its function. -/
def Respects (before : List Execution) (e : Execution) : Prop :=
  e.origin=.rerun → ∀ hint∈e.hints,
    ∃ last∈lastExecution before e.call.sessionId e.call.funcName,deadline last hint≤ e.time

/-- All re-executions do. -/
def Timely (executions : List Execution) : Prop := Justified Respects executions

/-- The check that is first has no call executed again whose own check is
another one that is still pending. -/
def Separate (r : Recorded) : Prop :=
  ∀ item,firstCheck r.st.rerunCheckQueue=some item →
    ∀ m∈outstanding r.st.tables item.triggerPtr item.session,
    ∀ hint∈hintsOf r.st.tables m.funcName,hint.triggerPtr=item.triggerPtr →
    ∀ last∈lastExecution r.executions item.session m.funcName,
      checkOf last.time item.session hint∉r.st.rerunCheckQueue.erase item

/-- Pending checks of a trigger for a session. -/
def pending (r : Recorded) (id : ℕ) (session : Session) : ℕ :=
  r.st.rerunCheckQueue.countP fun item => decide (item.triggerPtr=id ∧ item.session=session)

/-- Pending checks never outnumber the outstanding calls. -/
def Balanced (r : Recorded) : Prop :=
  ∀ id session,pending r id session≤(outstanding r.st.tables id session).length

/-- A trigger has neither an outstanding call nor a pending check for a session. -/
def Free (r : Recorded) (id : ℕ) (session : Session) : Prop :=
  outstanding r.st.tables id session=[] ∧
    ∀ item∈r.st.rerunCheckQueue,item.triggerPtr=id → item.session≠session

/-- Every function has at most one hint, and a hinted call is given to an
executor in a session of sixteen characters for which its trigger is free. -/
def Single (cfg : SchedulerConfig) (r : Recorded) (move : Move) : Prop :=
  (∀ e∈r.st.tables.funcTriggerTimeoutMap.entries,e.2.length≤1) ∧ match move with
    | .schedule _ call => (assignExecutor cfg.toSchedConfig r.st.pool call.funcName).isSome →
      ∀ hint∈hintsOf r.st.tables call.funcName,
        call.sessionId.length=16 ∧ Free r hint.triggerPtr call.sessionId
    | _ => True

/-- The trigger of a hinted call reads its slot; no object arrives and
nothing is cleared at a trigger with a pending check of the session. -/
def Undisturbed (cfg : SchedulerConfig) (r : Recorded) : Move → Prop
  | .schedule _ call => (assignExecutor cfg.toSchedConfig r.st.pool call.funcName).isSome →
      ∀ hint∈hintsOf r.st.tables call.funcName,∀ t∈pointerTrigger r.st.tables hint.triggerPtr,
        slot t call.funcName call.sessionId∈slots t call.sessionId
  | .object bk => ∀ p∈r.st.tables.bucketTriggersMap.getD bk.bucket [],∀ item∈r.st.rerunCheckQueue,
      item.triggerPtr=p.id → bk.session.length=16 ∧ item.session≠bk.session
  | .update msg => msg.msgType=1 → ∀ entity∈msg.triggers,
      ∀ p∈r.st.tables.bucketTriggersMap.getD entity.bucketName [],
        ∀ item∈r.st.rerunCheckQueue,item.triggerPtr≠p.id
  | _ => True

variable {w : WorkerTables}

theorem length_hintsOf (h : ∀ e∈w.funcTriggerTimeoutMap.entries,e.2.length≤1) (func : Str) :
    (hintsOf w func).length≤1 := by
  rw [hintsOf,UMap.getD]
  cases hf : w.funcTriggerTimeoutMap.find? func with
  | none => exact Nat.zero_le 1
  | some hints => exact h (func,hints) (UMap.find?_eq_some_iff.mp hf)

/-- Whether a call may be scheduled can be computed. -/
instance decidableFree (r : Recorded) (id : ℕ) (session : Session) : Decidable (Free r id session) :=
  haveI : Decidable (∀ item∈r.st.rerunCheckQueue,item.triggerPtr=id → item.session≠session) :=
    List.decidableBAll _ _
  inferInstanceAs (Decidable (_ ∧ _))

instance decidableSingle (cfg : SchedulerConfig) (r : Recorded) :
    (move : Move) → Decidable (Single cfg r move) := fun move =>
  haveI : Decidable (∀ e∈r.st.tables.funcTriggerTimeoutMap.entries,e.2.length≤1) :=
    List.decidableBAll _ _
  match move with
  | .schedule _ call =>
    haveI : Decidable (∀ hint∈hintsOf r.st.tables call.funcName,
        call.sessionId.length=16 ∧ Free r hint.triggerPtr call.sessionId) := List.decidableBAll _ _
    inferInstanceAs (Decidable (_ ∧ (_ → _)))
  | .object _ => inferInstanceAs (Decidable (_ ∧ True))
  | .update _ => inferInstanceAs (Decidable (_ ∧ True))
  | .serve _ => inferInstanceAs (Decidable (_ ∧ True))
  | .aside _ => inferInstanceAs (Decidable (_ ∧ True))

instance decidableUndisturbed (cfg : SchedulerConfig) (r : Recorded) :
    (move : Move) → Decidable (Undisturbed cfg r move)
  | .schedule _ call =>
    haveI : Decidable (∀ hint∈hintsOf r.st.tables call.funcName,
        ∀ t∈pointerTrigger r.st.tables hint.triggerPtr,
          slot t call.funcName call.sessionId∈slots t call.sessionId) := List.decidableBAll _ _
    inferInstanceAs (Decidable (_ → _))
  | .object bk =>
    haveI : ∀ p : TriggerPointer,Decidable (∀ item∈r.st.rerunCheckQueue,
        item.triggerPtr=p.id → bk.session.length=16 ∧ item.session≠bk.session) :=
      fun _ => List.decidableBAll _ _
    List.decidableBAll _ _
  | .update msg =>
    haveI : ∀ p : TriggerPointer,Decidable (∀ item∈r.st.rerunCheckQueue,item.triggerPtr≠p.id) :=
      fun _ => List.decidableBAll _ _
    haveI : ∀ entity : TriggerEntity,Decidable
        (∀ p∈r.st.tables.bucketTriggersMap.getD entity.bucketName [],
          ∀ item∈r.st.rerunCheckQueue,item.triggerPtr≠p.id) := fun _ => List.decidableBAll _ _
    haveI : Decidable (∀ entity∈msg.triggers,
        ∀ p∈r.st.tables.bucketTriggersMap.getD entity.bucketName [],
          ∀ item∈r.st.rerunCheckQueue,item.triggerPtr≠p.id) := List.decidableBAll _ _
    inferInstanceAs (Decidable (_ → _))
  | .serve _ => isTrue trivial
  | .aside _ => isTrue trivial

/-- Trigger and session of a check. -/
def subject (item : RerunCheckQueueItem) : ℕ×Session := (item.triggerPtr,item.session)

/-- A trigger and a session have at most one check and one call; the check
comes no earlier than the timeout of the call. -/
structure Orderly (r : Recorded) : Prop where
  /-- Identities of triggers are different. -/
  apart : Apart r.st.tables
  /-- Hints are those of triggers that have been added. -/
  hinted : ∀ func,∀ hint∈hintsOf r.st.tables func,hint.triggerPtr<r.st.tables.nextId
  /-- Checks are those of triggers that have been added. -/
  known : ∀ item∈r.st.rerunCheckQueue,item.triggerPtr<r.st.tables.nextId
  /-- Checks are for sessions of sixteen characters. -/
  sessions : ∀ item∈r.st.rerunCheckQueue,item.session.length=16
  /-- No two checks are for the same trigger and session. -/
  sole : (r.st.rerunCheckQueue.map subject).Nodup
  /-- A trigger awaits at most one call of a session. -/
  one : ∀ p,Listed r.st.tables p → ∀ session : Session,session.length=16 →
    (p.trigger.actionForRerun session).length≤1
  /-- What is remembered was noted for a hint, in the slot of its function. -/
  noted : ∀ p,Listed r.st.tables p → ∀ k m,filed p.trigger k=some m →
    (∃ session : Session,session.length=16 ∧ k=slot p.trigger m.funcName session) ∧
      ∃ hint∈hintsOf r.st.tables m.funcName,hint.triggerPtr=p.id
  /-- A check of an awaited call comes after its timeout. -/
  dated : ∀ p,Listed r.st.tables p → ∀ item∈r.st.rerunCheckQueue,item.triggerPtr=p.id →
    ∀ m∈p.trigger.actionForRerun item.session,∀ hint∈hintsOf r.st.tables m.funcName,
      hint.triggerPtr=p.id →
        ∃ last∈lastExecution r.executions item.session m.funcName,deadline last hint≤ item.checkTime
  /-- All re-executions so far were due. -/
  timely : Timely r.executions

variable {cfg : SchedulerConfig} {st st' : SchedState} {executions : List Execution}
variable {call : Invocation} {hint : RerunTriggerTimeout} {kept : ℕ → Session → Prop}

variable {session : Session} {m : TriggerFunctionMetadata}

theorem exists_filed_of_mem {t : Trigger} (h : m∈t.actionForRerun session) :
    ∃ k∈slots t session,filed t k=some m := by
  rw [actionForRerun_eq] at h
  exact List.mem_filterMap.mp h

theorem orderly_start (cfg : SchedulerConfig) (seed : UInt32) : Orderly (start cfg seed) where
  apart := apart_start
  hinted _ _ h := absurd h List.not_mem_nil
  known _ h := absurd h List.not_mem_nil
  sessions _ h := absurd h List.not_mem_nil
  sole := List.nodup_nil
  one _ h := h.elim (fun hb => absurd hb.choose_spec List.not_mem_nil)
    fun hr => absurd hr List.not_mem_nil
  noted _ h := h.elim (fun hb => absurd hb.choose_spec List.not_mem_nil)
    fun hr => absurd hr List.not_mem_nil
  dated _ _ _ h := absurd h List.not_mem_nil
  timely := justified_nil

/-- Slots are emptied, triggers and their hints are added, checks removed. -/
theorem Orderly.evolves (h : Orderly ⟨st,executions⟩) (hv : Evolves kept st.tables st'.tables)
    (hsub : st'.rerunCheckQueue.Sublist st.rerunCheckQueue) : Orderly ⟨st',executions⟩ where
  apart := hv.apart h.apart
  hinted func hint hmem := by
    obtain ⟨new,hnew,hids⟩ := hv.hints func
    rw [hnew] at hmem
    rcases List.mem_append.mp hmem with hmem|hmem
    · exact (h.hinted func hint hmem).trans_le hv.nextId
    · exact (hids hint hmem).2.1
  known item hitem := (h.known item (hsub.subset hitem)).trans_le hv.nextId
  sessions item hitem := h.sessions item (hsub.subset hitem)
  sole := (hsub.map subject).nodup h.sole
  one p hp session hlen := by
    rcases hv.listed p hp with ⟨q,hq,hqp⟩|⟨-,hblank⟩
    · exact (hqp.2.1.sublist session).length_le.trans (h.one q hq session hlen)
    · rw [hblank.actionForRerun]
      exact Nat.zero_le 1
  noted p hp k m hm := by
    rcases hv.listed p hp with ⟨q,hq,hid,hqp,-⟩|⟨-,hblank⟩
    · obtain ⟨⟨session,hlen,hk⟩,hint,hhint,hptr⟩ := h.noted q hq k m (hqp.filed k m hm)
      obtain ⟨new,hnew,-⟩ := hv.hints m.funcName
      refine ⟨⟨session,hlen,hk.trans (hqp.slot _ _).symm⟩,hint,?_,hptr.trans hid⟩
      rw [hnew]
      exact List.mem_append_left new hhint
    · cases (hblank k).symm.trans hm
  dated p hp item hitem hptr m hm hint hhint hhintptr := by
    have hold := hsub.subset hitem
    rcases hv.listed p hp with ⟨q,hq,hid,hqp,-⟩|⟨-,hblank⟩
    · obtain ⟨new,hnew,hids⟩ := hv.hints m.funcName
      rw [hnew] at hhint
      rcases List.mem_append.mp hhint with hhint|hhint
      · exact h.dated q hq item hold (hptr.trans hid.symm) m ((hqp.sublist _).subset hm) hint hhint
          (hhintptr.trans hid.symm)
      · have hge := (hids hint hhint).1
        have hlt : item.triggerPtr<st.tables.nextId := h.known item hold
        omega
    · rw [hblank.actionForRerun] at hm
      cases hm
  timely := h.timely

variable {r : Recorded} {p : TriggerPointer}

/-- An awaited call is one of a hinted function. -/
theorem Orderly.hint_of_mem (h : Orderly r) (hp : Listed r.st.tables p)
    (hm : m∈p.trigger.actionForRerun session) :
    ∃ hint∈hintsOf r.st.tables m.funcName,hint.triggerPtr=p.id := by
  obtain ⟨k,-,hk⟩ := exists_filed_of_mem hm
  exact (h.noted p hp k m hk).2

theorem Orderly.filed_of_mem (h : Orderly r) (hp : Listed r.st.tables p) (hlen : session.length=16)
    (hm : m∈p.trigger.actionForRerun session) :
    filed p.trigger (slot p.trigger m.funcName session)=some m := by
  obtain ⟨k,hk,hfiled⟩ := exists_filed_of_mem hm
  obtain ⟨⟨session',hlen',hslot⟩,-⟩ := h.noted p hp k m hfiled
  have hsame : session=session' := by
    by_contra hne
    exact slot_not_mem_slots (hlen.trans hlen'.symm) hne (hslot ▸ hk)
  rw [hsame,←hslot]
  exact hfiled

variable {item : RerunCheckQueueItem}

/-- The other checks are for another trigger or session. -/
theorem Orderly.subject_ne (h : Orderly r) {other : RerunCheckQueueItem}
    (hitem : item∈r.st.rerunCheckQueue) (hother : other∈r.st.rerunCheckQueue.erase item) :
    subject other≠subject item := by
  have hperm := (List.perm_cons_erase hitem).map subject
  obtain ⟨hnot,-⟩ := List.nodup_cons.mp (hperm.nodup_iff.mp h.sole)
  exact fun he => hnot (he ▸ List.mem_map_of_mem hother)

theorem lastExecution_concat (executions : List Execution) (e : Execution) (session : Session)
    (func : Str) : lastExecution (executions++[e]) session func=
      if e.taken=true ∧ e.call.sessionId=session ∧ e.call.funcName=func then some e
      else lastExecution executions session func := by
  have hmatch : (e.taken && decide (e.call.sessionId=session ∧ e.call.funcName=func))=true ↔
      e.taken=true ∧ e.call.sessionId=session ∧ e.call.funcName=func := by
    rw [Bool.and_eq_true,decide_eq_true_iff]
  rw [lastExecution,List.reverse_append]
  show (e::executions.reverse).find? _=_
  by_cases he : e.taken=true ∧ e.call.sessionId=session ∧ e.call.funcName=func
  · rw [if_pos he,List.find?_cons_of_pos]
    exact hmatch.mpr he
  · rw [if_neg he,List.find?_cons_of_neg]
    · rfl
    · exact fun hd => he (hmatch.mp hd)

variable {e : Execution}

/-- A call without hints, or that no executor takes, is recorded. -/
theorem Orderly.record (h : Orderly ⟨st,executions⟩)
    (hnone : e.taken=true → hintsOf st.tables e.call.funcName=[]) (he : Respects executions e) :
    Orderly ⟨st,executions++[e]⟩ := by
  refine ⟨h.apart,h.hinted,h.known,h.sessions,h.sole,h.one,h.noted,?_,h.timely.concat he⟩
  intro p hp item hitem hptr m hm hint hhint hhintptr
  have hother : ¬(e.taken=true ∧ e.call.sessionId=item.session ∧ e.call.funcName=m.funcName) := by
    intro hsame
    have hmem : hint∈hintsOf st.tables e.call.funcName := hsame.2.2 ▸ hhint
    rw [hnone hsame.1] at hmem
    cases hmem
  show ∃ last∈lastExecution (executions++[e]) item.session m.funcName,_
  rw [lastExecution_concat,if_neg hother]
  exact h.dated p hp item hitem hptr m hm hint hhint hhintptr

/-- A call as triggers remember it. -/
def metadata (call : Invocation) : TriggerFunctionMetadata :=
  ⟨call.funcName,call.funcArgs,call.argFlag⟩

/-- A call has one hint, its trigger has no check for its session and awaits
no call of it, or only this one. -/
structure Placeable (st : SchedState) (call : Invocation) (hint : RerunTriggerTimeout) : Prop where
  length : call.sessionId.length=16
  hints : hintsOf st.tables call.funcName=[hint]
  free : ∀ item∈st.rerunCheckQueue,item.triggerPtr=hint.triggerPtr → item.session≠call.sessionId
  ready : ∀ p,Listed st.tables p → p.id=hint.triggerPtr →
    p.trigger.actionForRerun call.sessionId=[] ∨
      p.trigger.actionForRerun call.sessionId=[metadata call] ∧
        filed p.trigger (slot p.trigger call.funcName call.sessionId)=some (metadata call)

variable {id : ℕ}

theorem notePointer_of_eq (h : p.id=id) :
    notePointer call id p=⟨p.id,p.trigger.notifySourceFunc (metadata call) call.sessionId⟩ := if_pos h

theorem notePointer_of_ne (h : p.id≠id) : notePointer call id p=p :=
  if_neg h

namespace Placeable

/-- Other sessions of the same length are not concerned. -/
theorem other (h : Placeable st call hint) (hlen : session.length=16) (hne : session≠call.sessionId)
    (p : TriggerPointer) :
    (notePointer call hint.triggerPtr p).trigger.actionForRerun session=
      p.trigger.actionForRerun session := by
  by_cases hid : p.id=hint.triggerPtr
  · rw [notePointer_of_eq hid]
    exact notifySourceFunc_other (hlen.trans h.length.symm) hne
  · rw [notePointer_of_ne hid]

/-- The trigger then awaits nothing or the call. -/
theorem same (h : Placeable st call hint) (hp : Listed st.tables p) (hid : p.id=hint.triggerPtr) :
    (notePointer call hint.triggerPtr p).trigger.actionForRerun call.sessionId=[] ∨
      (notePointer call hint.triggerPtr p).trigger.actionForRerun call.sessionId=[metadata call] := by
  rw [notePointer_of_eq hid]
  rcases h.ready p hp hid with hnone|⟨hone,hfiled⟩
  · by_cases hslot : slot p.trigger (metadata call).funcName call.sessionId∈slots p.trigger call.sessionId
    · exact Or.inr ((notifySourceFunc_first hnone).1 hslot)
    · exact Or.inl ((notifySourceFunc_first hnone).2 hslot)
  · exact Or.inr ((notifySourceFunc_again hfiled call.sessionId).trans hone)

theorem hint_eq (h : Placeable st call hint) {hint' : RerunTriggerTimeout}
    (hmem : hint'∈hintsOf st.tables call.funcName) : hint'=hint := by
  rw [h.hints] at hmem
  exact List.mem_singleton.mp hmem

end Placeable

/-- The tables after the call has been noted. -/
def notedTables (call : Invocation) (hint : RerunTriggerTimeout) (w : WorkerTables) : WorkerTables :=
  notifyPointer call hint.triggerPtr (touched w call.funcName)

theorem listed_noted :
    Listed (notedTables call hint w) p ↔ ∃ q,Listed w q ∧ p=notePointer call hint.triggerPtr q :=
  listed_notifyPointer

theorem hintsOf_noted (w : WorkerTables) (func : Str) :
    hintsOf (notedTables call hint w) func=hintsOf w func := hintsOf_touched w call.funcName func

variable {q : TriggerPointer}

/-- A trigger still awaits at most one call of a session. -/
theorem Orderly.one_noted (h : Orderly ⟨st,executions⟩) (hplace : Placeable st call hint)
    (hq : Listed st.tables q) (hlen : session.length=16) :
    ((notePointer call hint.triggerPtr q).trigger.actionForRerun session).length≤1 := by
  by_cases hs : session=call.sessionId
  · subst hs
    by_cases hid : q.id=hint.triggerPtr
    · rcases hplace.same hq hid with hnone|hone
      · rw [hnone]
        exact Nat.zero_le 1
      · rw [hone]
        exact le_refl 1
    · rw [notePointer_of_ne hid]
      exact h.one q hq _ hlen
  · rw [hplace.other hlen hs]
    exact h.one q hq session hlen

theorem Orderly.noted_noted (h : Orderly ⟨st,executions⟩) (hplace : Placeable st call hint)
    (hq : Listed st.tables q) {k : Str}
    (hm : filed (notePointer call hint.triggerPtr q).trigger k=some m) :
    (∃ session : Session,session.length=16 ∧
        k=slot (notePointer call hint.triggerPtr q).trigger m.funcName session) ∧
      ∃ hint'∈hintsOf st.tables m.funcName,hint'.triggerPtr=q.id := by
  by_cases hid : q.id=hint.triggerPtr
  · rw [notePointer_of_eq hid] at hm ⊢
    have hslots := sameSlots_notifySourceFunc q.trigger (metadata call) call.sessionId
    rcases notifySourceFunc_filed_cases hm with ⟨hk,rfl⟩|hold
    · refine ⟨⟨call.sessionId,hplace.length,hk.trans (hslots.slot _ _).symm⟩,hint,?_,hid.symm⟩
      exact hplace.hints ▸ List.mem_singleton_self hint
    · obtain ⟨⟨session,hsession,hk⟩,hhint⟩ := h.noted q hq k m hold
      exact ⟨⟨session,hsession,hk.trans (hslots.slot _ _).symm⟩,hhint⟩
  · rw [notePointer_of_ne hid] at hm ⊢
    exact h.noted q hq k m hm

/-- Older checks are those of other triggers or sessions, so that the
execution is not one of their calls. -/
theorem Orderly.dated_old (h : Orderly ⟨st,executions⟩) (hplace : Placeable st call hint)
    (hq : Listed st.tables q) (hitem : item∈st.rerunCheckQueue) (hptr : item.triggerPtr=q.id)
    (hm : m∈(notePointer call hint.triggerPtr q).trigger.actionForRerun item.session)
    {hint' : RerunTriggerTimeout} (hhint' : hint'∈hintsOf st.tables m.funcName)
    (hhintptr : hint'.triggerPtr=q.id) (he : e.call=call) :
    ∃ last∈lastExecution (executions++[e]) item.session m.funcName,deadline last hint'≤ item.checkTime := by
  have hother : ¬(e.taken=true ∧ e.call.sessionId=item.session ∧ e.call.funcName=m.funcName) := by
    rw [he]
    intro hsame
    have hid : hint'.triggerPtr=hint.triggerPtr :=
      congrArg RerunTriggerTimeout.triggerPtr (hplace.hint_eq (hsame.2.2 ▸ hhint'))
    exact hplace.free item hitem (hptr.trans (hhintptr.symm.trans hid)) hsame.2.1.symm
  have hm' : m∈q.trigger.actionForRerun item.session := by
    by_cases hid : q.id=hint.triggerPtr
    · rwa [hplace.other (h.sessions item hitem) (hplace.free item hitem (hptr.trans hid))] at hm
    · rwa [notePointer_of_ne hid] at hm
  rw [lastExecution_concat,if_neg hother]
  exact h.dated q hq item hitem hptr m hm' hint' hhint' hhintptr

variable {time : ℤ}

variable {origin : Origin}

theorem Orderly.place (h : Orderly ⟨st,executions⟩) (hplace : Placeable st call hint)
    (he : Respects executions ⟨time,origin,call,[hint],true⟩) :
    Orderly ⟨noteHints call time st,executions++[⟨time,origin,call,[hint],true⟩]⟩ := by
  have htouched := evolves_touched (fun _ _ => False) st.tables call.funcName
  rw [noteHints_one hplace.hints]
  refine ⟨apart_notifyPointer (htouched.apart h.apart),?_,?_,?_,?_,?_,?_,?_,h.timely.concat he⟩
  · intro func hint' hmem
    exact h.hinted func hint' (hintsOf_noted st.tables func ▸ hmem)
  · refine List.forall_mem_append.mpr ⟨h.known,fun item hitem => ?_⟩
    rw [List.mem_singleton.mp hitem]
    exact h.hinted call.funcName hint (hplace.hints ▸ List.mem_singleton_self hint)
  · refine List.forall_mem_append.mpr ⟨h.sessions,fun item hitem => ?_⟩
    rw [List.mem_singleton.mp hitem]
    exact hplace.length
  · show (List.map subject (_++[_])).Nodup
    rw [List.map_append]
    refine List.nodup_append.mpr ⟨h.sole,List.nodup_singleton _,fun x hx y hy hxy => ?_⟩
    obtain ⟨item,hitem,rfl⟩ := List.mem_map.mp hx
    rw [List.mem_singleton.mp hy] at hxy
    exact hplace.free item hitem (congrArg Prod.fst hxy) (congrArg Prod.snd hxy)
  · intro p hp session hlen
    obtain ⟨q,hq,rfl⟩ := listed_noted.mp hp
    exact h.one_noted hplace hq hlen
  · intro p hp k m hm
    obtain ⟨q,hq,rfl⟩ := listed_noted.mp hp
    rw [notePointer_id]
    show _ ∧ ∃ hint'∈hintsOf (notedTables call hint st.tables) m.funcName,_
    rw [hintsOf_noted]
    exact h.noted_noted hplace hq hm
  · intro p hp item hitem hptr m hm hint' hhint' hhintptr
    obtain ⟨q,hq,rfl⟩ := listed_noted.mp hp
    rw [notePointer_id] at hptr hhintptr
    have hhint : hint'∈hintsOf st.tables m.funcName := hintsOf_noted st.tables m.funcName ▸ hhint'
    rcases List.mem_append.mp hitem with hitem|hitem
    · exact h.dated_old hplace hq hitem hptr hm hhint hhintptr rfl
    · rw [List.mem_singleton.mp hitem] at hptr hm ⊢
      have hmeta : m=metadata call := by
        have hm' : m∈(notePointer call hint.triggerPtr q).trigger.actionForRerun call.sessionId := hm
        rcases hplace.same hq hptr.symm with hnone|hone
        · rw [hnone] at hm'
          cases hm'
        · rw [hone] at hm'
          exact List.mem_singleton.mp hm'
      subst hmeta
      rw [hplace.hint_eq hhint]
      refine ⟨⟨time,origin,call,[hint],true⟩,?_,le_refl _⟩
      show lastExecution (executions++[_]) call.sessionId call.funcName=some _
      rw [lastExecution_concat]
      exact if_pos ⟨rfl,rfl,rfl⟩

theorem pop_sublist (st : SchedState) : (pop st).rerunCheckQueue.Sublist st.rerunCheckQueue := by
  unfold pop
  dsimp only
  split
  · exact List.nil_sublist _
  · exact List.erase_sublist

/-- Removing the first check before or after a later one is enqueued. -/
theorem pop_noteHints (hhints : hintsOf st.tables call.funcName=[hint])
    (hitem : firstCheck st.rerunCheckQueue=some item) (htime : item.checkTime≤time) :
    pop (noteHints call time st)=noteHints call time (pop st) := by
  have hpop : noteHints call time (pop st)={pop st with
      tables := notifyPointer call hint.triggerPtr (touched st.tables call.funcName)
      rerunCheckQueue := (pop st).rerunCheckQueue++[checkOf time call.sessionId hint]} :=
    noteHints_one hhints
  have hlater : ∀ x∈[checkOf time call.sessionId hint],item.checkTime≤x.checkTime := by
    intro x hx
    rw [List.mem_singleton.mp hx]
    show item.checkTime≤time+hint.timeout.toNat*1000000
    omega
  have hfirst : firstCheck (noteHints call time st).rerunCheckQueue=some item := by
    rw [noteHints_one hhints]
    exact firstCheck_append hitem hlater
  rw [pop_eq hfirst,hpop,pop_eq hitem,noteHints_one hhints]
  dsimp only
  rw [List.erase_append_left _ (firstCheck_mem hitem)]

theorem Untouched.evolves (kept : ℕ → Session → Prop) (h : Untouched st st') :
    Evolves kept st.tables st'.tables :=
  evolves_of_eq kept h.bucketTriggersMap h.removed h.nextId h.funcTriggerTimeoutMap

theorem Untouched.hintsOf (h : Untouched st st') (func : Str) :
    hintsOf st'.tables func=hintsOf st.tables func := by
  rw [RerunMoves.hintsOf,RerunMoves.hintsOf,h.funcTriggerTimeoutMap]

theorem Untouched.listed (h : Untouched st st') : Listed st'.tables p ↔ Listed st.tables p := by
  unfold Listed
  rw [h.bucketTriggersMap,h.removed]

/-- What a move can do under the conditions: it empties slots, adds triggers
or removes a check; it may also record a call without hints or without an
executor, or note and record a call with one hint. A call that its trigger
does not await is scheduled by the move itself. -/
inductive Turn (cfg : SchedulerConfig) (kept : ℕ → Session → Prop) (r : Recorded) (move : Move) :
    Recorded → Prop
  | changed (u : SchedState) (hv : Evolves kept r.st.tables u.tables)
    (hsub : u.rerunCheckQueue.Sublist r.st.rerunCheckQueue) : Turn cfg kept r move ⟨u,r.executions⟩
  | recorded (u : SchedState) (hv : Evolves kept r.st.tables u.tables)
    (hsub : u.rerunCheckQueue.Sublist r.st.rerunCheckQueue) (e : Execution)
    (hnone : e.taken=true → hintsOf u.tables e.call.funcName=[]) (he : Respects r.executions e) :
    Turn cfg kept r move ⟨u,r.executions++[e]⟩
  | placed (u : SchedState) (hv : Evolves kept r.st.tables u.tables)
    (hsub : u.rerunCheckQueue.Sublist r.st.rerunCheckQueue) (time : ℤ) (origin : Origin)
    (call : Invocation) (hint : RerunTriggerTimeout) (hplace : Placeable u call hint)
    (he : Respects r.executions ⟨time,origin,call,[hint],true⟩)
    (hnew : ∀ p,Listed u.tables p → p.id=hint.triggerPtr →
      p.trigger.actionForRerun call.sessionId=[] → Listed r.st.tables p ∧ ∃ origin',
        move=.schedule origin' call ∧
          (assignExecutor cfg.toSchedConfig r.st.pool call.funcName).isSome ∧
          hint∈hintsOf r.st.tables call.funcName) :
    Turn cfg kept r move ⟨noteHints call time u,r.executions++[⟨time,origin,call,[hint],true⟩]⟩

theorem eq_singleton {α : Type} {l : List α} {a : α} (h : a∈l) (hl : l.length≤1) : l=[a] := by
  cases l with
  | nil => cases h
  | cons b l =>
    have hnil : l=[] := by
      rw [List.length_cons] at hl
      exact List.eq_nil_of_length_eq_zero (by omega)
    subst hnil
    rw [List.mem_singleton.mp h]

variable {r' : Recorded}

theorem turn_schedule (h : Orderly r) (hsingle : Single cfg r (.schedule origin call))
    (horigin : origin≠.rerun) (hs : schedule cfg origin r call=some r') :
    Turn cfg kept r (.schedule origin call) r' := by
  have hrespects : ∀ time hints taken,Respects r.executions ⟨time,origin,call,hints,taken⟩ :=
    fun _ _ _ hrerun => absurd hrerun horigin
  obtain ⟨u,hu,rfl|⟨hsome,rfl⟩⟩ := schedule_cases hs
  · exact .recorded u (Untouched.evolves kept hu) (hu.rerunCheckQueue ▸ List.Sublist.refl _) _
      (fun htaken => absurd htaken Bool.false_ne_true) (hrespects _ _ _)
  · cases hhints : hintsOf r.st.tables call.funcName with
    | nil =>
      have hhints' := (Untouched.hintsOf hu call.funcName).trans hhints
      rw [noteHints_hintless _ hhints']
      refine .recorded _ ((Untouched.evolves kept hu).trans (evolves_touched kept _ _)) ?_ _ ?_
        (hrespects _ _ _)
      · exact hu.rerunCheckQueue ▸ List.Sublist.refl _
      · exact fun _ => (hintsOf_touched _ _ _).trans hhints'
    | cons hint rest =>
      have hmem : hint∈hintsOf r.st.tables call.funcName := hhints ▸ List.mem_cons_self
      have hone := eq_singleton hmem (length_hintsOf hsingle.1 call.funcName)
      obtain ⟨hlen,hidle,hfree⟩ := hsingle.2 hsome hint hmem
      have hplace : Placeable u call hint := by
        refine ⟨hlen,(Untouched.hintsOf hu call.funcName).trans hone,fun item hitem => ?_,
          fun p hp hid => ?_⟩
        · exact hfree item (hu.rerunCheckQueue ▸ hitem)
        · rw [outstanding,←hid,h.apart.pointerTrigger ((Untouched.listed hu).mp hp)] at hidle
          exact Or.inl hidle
      rw [←hhints,hone]
      refine .placed u (Untouched.evolves kept hu) ?_ _ origin call hint hplace (hrespects _ _ _)
        fun p hp _ _ => ⟨(Untouched.listed hu).mp hp,origin,rfl,hsome,hmem⟩
      exact hu.rerunCheckQueue ▸ List.Sublist.refl _

theorem reexecute_cases (h : reexecute cfg session r m=some r') :
    ∃ call : Invocation,call.sessionId=session ∧
      metadata call=m ∧ ∃ u,Untouched r.st u ∧
        (r'=⟨u,r.executions++
          [⟨cfg.clock r.st.tick,.rerun,call,hintsOf r.st.tables call.funcName,false⟩]⟩ ∨
        r'=⟨noteHints call (cfg.clock r.st.tick) u,r.executions++
          [⟨cfg.clock r.st.tick,.rerun,call,hintsOf r.st.tables call.funcName,true⟩]⟩) := by
  have happ : Untouched r.st (funcApp r.st m.funcName).2 := ⟨rfl,rfl,rfl,rfl,rfl,le_refl _⟩
  refine ⟨⟨session,(funcApp r.st m.funcName).1,m.funcName,m.funcArgs,m.argFlag⟩,rfl,rfl,?_⟩
  obtain ⟨u,hu,hr⟩ := schedule_cases h
  exact ⟨u,happ.trans hu,hr.imp_right And.right⟩

/-- The call that the trigger of the first check awaits may be placed, once
the check is removed. -/
theorem Orderly.placeable (h : Orderly r) {u : SchedState} (hu : Untouched r.st u)
    (hitem : firstCheck r.st.rerunCheckQueue=some item) (hp : Listed r.st.tables p)
    (hid : p.id=item.triggerPtr) (hcall : p.trigger.actionForRerun item.session=[metadata call])
    (hsession : call.sessionId=item.session) (hhints : hintsOf r.st.tables call.funcName=[hint])
    (hptr : hint.triggerPtr=item.triggerPtr) : Placeable (pop u) call hint := by
  have hlen := h.sessions item (firstCheck_mem hitem)
  refine ⟨hsession ▸ hlen,(Untouched.hintsOf hu call.funcName).trans hhints,
    fun other hother hsame hsession' => ?_,fun q hq hqid => ?_⟩
  · have hitem' : firstCheck u.rerunCheckQueue=some item := hu.rerunCheckQueue ▸ hitem
    rw [pop_eq hitem',hu.rerunCheckQueue] at hother
    refine h.subject_ne (firstCheck_mem hitem) hother ?_
    exact Prod.ext (hsame.trans hptr) (hsession'.trans hsession)
  · have hsame := h.apart.eq ((Untouched.listed hu).mp hq) hp (hqid.trans (hptr.trans hid.symm))
    subst hsame
    rw [hsession]
    exact Or.inr ⟨hcall,h.filed_of_mem hp hlen (hcall ▸ List.mem_cons_self)⟩

/-- A check is served. -/
theorem turn_serve (hclock : ∀ m n,m≤n → cfg.clock m≤ cfg.clock n) {reading : ℕ} (h : Orderly r)
    (hone : ∀ func,(hintsOf r.st.tables func).length≤1) (hs : serve cfg reading r=some r') :
    Turn cfg kept r (.serve reading) r' := by
  have hevolves : ∀ u,Untouched r.st u → Evolves kept r.st.tables (pop u).tables := by
    intro u hu
    have hv : Evolves kept r.st.tables u.tables := Untouched.evolves kept hu
    exact hv
  have hremoved : ∀ u,Untouched r.st u → Turn cfg kept r (.serve reading) ⟨pop u,r.executions⟩ :=
    fun u hu => .changed (pop u) (hevolves u hu) (hu.rerunCheckQueue ▸ pop_sublist u)
  unfold serve at hs
  split at hs
  · cases hs
  · rename_i item hitem
    split at hs
    · rename_i hdue
      obtain ⟨r1,hcalls,rfl⟩ := Option.map_eq_some_iff.mp hs
      cases ht : pointerTrigger r.st.tables item.triggerPtr with
      | none =>
        rw [outstanding,ht] at hcalls
        cases hcalls
        exact hremoved r.st (.refl _)
      | some t =>
        obtain ⟨p,hp,hid,rfl⟩ := listed_of_pointerTrigger ht
        have hlength := h.one p hp item.session (h.sessions item (firstCheck_mem hitem))
        rw [outstanding,ht,Option.map_some,Option.getD_some] at hcalls
        cases hm : p.trigger.actionForRerun item.session with
        | nil =>
          rw [hm] at hcalls
          cases hcalls
          exact hremoved r.st (.refl _)
        | cons m rest =>
          replace hm := eq_singleton (hm ▸ List.mem_cons_self) hlength
          rw [hm,List.foldlM_cons] at hcalls
          obtain ⟨r2,hr2,hlast⟩ := Option.bind_eq_some_iff.mp hcalls
          cases hlast
          obtain ⟨call,hsession,rfl,u,hu,hr⟩ := reexecute_cases hr2
          obtain ⟨hint,hhint,hptr⟩ := h.hint_of_mem hp (hm ▸ List.mem_cons_self)
          have hhints : hintsOf r.st.tables call.funcName=[hint] := eq_singleton hhint (hone _)
          have htime : item.checkTime≤ cfg.clock r.st.tick :=
            hdue.2.trans (hclock _ _ (Nat.le_of_lt hdue.1))
          have hrespects : ∀ taken,Respects r.executions
              ⟨cfg.clock r.st.tick,.rerun,call,[hint],taken⟩ := by
            intro taken _ hint' hhint'
            rw [List.mem_singleton.mp hhint']
            obtain ⟨last,hlast,hover⟩ := h.dated p hp item (firstCheck_mem hitem) hid.symm
              (metadata call) (hm ▸ List.mem_cons_self) hint hhint hptr
            exact ⟨last,hsession ▸ hlast,hover.trans htime⟩
          have hsub : (pop u).rerunCheckQueue.Sublist r.st.rerunCheckQueue :=
            hu.rerunCheckQueue ▸ pop_sublist u
          rw [hhints] at hr
          rcases hr with rfl|rfl
          · exact .recorded (pop u) (hevolves u hu) hsub _
              (fun htaken => absurd htaken Bool.false_ne_true) (hrespects false)
          · show Turn cfg kept r _ ⟨pop (noteHints call _ u),_⟩
            rw [pop_noteHints ((Untouched.hintsOf hu _).trans hhints) (hu.rerunCheckQueue ▸ hitem) htime]
            have hplace := h.placeable hu hitem hp hid hm hsession hhints (hptr.trans hid)
            refine .placed (pop u) (hevolves u hu) hsub _ .rerun call hint hplace (hrespects true)
              fun q hq hqid hnone => ?_
            have hsame := h.apart.eq ((Untouched.listed hu).mp hq) hp (hqid.trans hptr)
            rw [hsame,hsession,hm] at hnone
            cases hnone
    · cases hs

/-- What arrivals and clears leave alone. -/
def Spares (kept : ℕ → Session → Prop) (r : Recorded) : Move → Prop
  | .object bk => ∀ p∈r.st.tables.bucketTriggersMap.getD bk.bucket [],∀ session,kept p.id session →
      session.length=bk.session.length ∧ session≠bk.session
  | .update msg => msg.msgType=1 → ∀ entity∈msg.triggers,
      ∀ p∈r.st.tables.bucketTriggersMap.getD entity.bucketName [],∀ session,¬kept p.id session
  | _ => True

variable {move : Move}

theorem turn_of_step (hclock : ∀ m n,m≤n → cfg.clock m≤ cfg.clock n) (h : Orderly r)
    (hsingle : Single cfg r move) (hspares : Spares kept r move)
    (hs : RerunMoves.step cfg r move=some r') : Turn cfg kept r move r' := by
  cases move with
  | schedule origin call =>
    rw [RerunMoves.step] at hs
    split at hs
    · cases hs
    · rename_i horigin
      exact turn_schedule h hsingle horigin hs
  | object bk =>
    cases hs
    exact .changed _ (evolves_arrivedAt kept cfg r.st bk hspares) (List.Sublist.refl _)
  | update msg =>
    obtain ⟨st',hst,rfl⟩ := Option.map_eq_some_iff.mp hs
    obtain ⟨w,hw,rfl⟩ := update_cases hst
    exact .changed _ (evolves_recvUpdate kept hspares hw) (List.Sublist.refl _)
  | serve reading => exact turn_serve hclock h (length_hintsOf hsingle.1) hs
  | aside change =>
    rw [RerunMoves.step] at hs
    split at hs
    · rename_i hquiet
      have hu := hquiet.toUntouched
      cases hs
      exact .changed _ (Untouched.evolves kept hu) (hu.rerunCheckQueue ▸ List.Sublist.refl _)
    · cases hs

theorem Orderly.turn (h : Orderly r) (ht : Turn cfg kept r move r') : Orderly r' := by
  cases ht with
  | changed u hv hsub => exact h.evolves hv hsub
  | recorded u hv hsub e hnone he => exact (h.evolves hv hsub).record hnone he
  | placed u hv hsub time origin call hint hplace he hnew => exact (h.evolves hv hsub).place hplace he

/-- In order, the first check is the only one of its trigger and session. -/
theorem Orderly.separate (h : Orderly r) : Separate r := by
  intro item hitem m _ hint _ hptr last _ hmem
  refine h.subject_ne (firstCheck_mem hitem) hmem ?_
  exact Prod.ext hptr rfl

/-- Every check has a call that its trigger awaits. -/
structure Matched (r : Recorded) : Prop where
  present : ∀ func,∀ hint∈hintsOf r.st.tables func,
    ∃ p,Listed r.st.tables p ∧ p.id=hint.triggerPtr
  awaited : ∀ item∈r.st.rerunCheckQueue,
    ∃ p,Listed r.st.tables p ∧ p.id=item.triggerPtr ∧ p.trigger.actionForRerun item.session≠[]

theorem matched_start (cfg : SchedulerConfig) (seed : UInt32) : Matched (start cfg seed) where
  present _ _ h := absurd h List.not_mem_nil
  awaited _ h := absurd h List.not_mem_nil

/-- The sessions of pending checks. -/
def Awaits (queue : List RerunCheckQueueItem) (id : ℕ) (session : Session) : Prop :=
  ∃ item∈queue,item.triggerPtr=id ∧ item.session=session

theorem Undisturbed.spares (h : Undisturbed cfg r move) (horder : Orderly r) :
    Spares (Awaits r.st.rerunCheckQueue) r move := by
  cases move with
  | object bk =>
    rintro p hp _ ⟨item,hitem,hptr,rfl⟩
    obtain ⟨hlen,hne⟩ := h p hp item hitem hptr
    exact ⟨(horder.sessions item hitem).trans hlen.symm,hne⟩
  | update msg =>
    rintro htype entity hentity p hp _ ⟨item,hitem,hptr,-⟩
    exact h htype entity hentity p hp item hitem hptr
  | _ => trivial

/-- Slots are emptied, but not those of pending checks. -/
theorem Matched.evolves (h : Matched ⟨st,executions⟩) (hapart : Apart st.tables)
    (hv : Evolves (Awaits st.rerunCheckQueue) st.tables st'.tables)
    (hsub : st'.rerunCheckQueue.Sublist st.rerunCheckQueue) (executions' : List Execution) :
    Matched ⟨st',executions'⟩ where
  present func hint hmem := by
    obtain ⟨new,hnew,hids⟩ := hv.hints func
    rw [hnew] at hmem
    rcases List.mem_append.mp hmem with hmem|hmem
    · obtain ⟨q,hq,hid⟩ := h.present func hint hmem
      obtain ⟨p,hp,hpid⟩ := hv.present q hq
      exact ⟨p,hp,hpid.trans hid⟩
    · exact (hids hint hmem).2.2
  awaited item hitem := by
    have hold := hsub.subset hitem
    obtain ⟨q,hq,hid,hne⟩ := h.awaited item hold
    obtain ⟨p,hp,hpid⟩ := hv.present q hq
    refine ⟨p,hp,hpid.trans hid,?_⟩
    rcases hv.listed p hp with ⟨q',hq',hqid,-,hkept⟩|⟨hge,-⟩
    · have hsame := hapart.eq hq' hq (hqid.trans hpid)
      subst hsame
      rw [hkept item.session ⟨item,hold,(hpid.trans hid).symm,rfl⟩]
      exact hne
    · have hlt := hapart.lt hq
      omega

/-- The new check is that of the call, which its trigger awaits. -/
theorem Matched.place (h : Matched ⟨st,executions⟩) (horder : Orderly ⟨st,executions⟩)
    (hplace : Placeable st call hint) (hslot : ∀ p,Listed st.tables p → p.id=hint.triggerPtr →
      p.trigger.actionForRerun call.sessionId=[] →
        slot p.trigger call.funcName call.sessionId∈slots p.trigger call.sessionId)
    (executions' : List Execution) : Matched ⟨noteHints call time st,executions'⟩ := by
  rw [noteHints_one hplace.hints]
  have hlisted : ∀ q,Listed st.tables q →
      Listed (notedTables call hint st.tables) (notePointer call hint.triggerPtr q) :=
    fun q hq => listed_noted.mpr ⟨q,hq,rfl⟩
  refine ⟨fun func hint' hmem => ?_,List.forall_mem_append.mpr ⟨fun item hitem => ?_,
    fun item hitem => ?_⟩⟩
  · obtain ⟨q,hq,hid⟩ := h.present func hint' (hintsOf_noted st.tables func ▸ hmem)
    exact ⟨_,hlisted q hq,(notePointer_id _ _ _).trans hid⟩
  · obtain ⟨q,hq,hid,hne⟩ := h.awaited item hitem
    refine ⟨_,hlisted q hq,(notePointer_id _ _ _).trans hid,?_⟩
    by_cases hqid : q.id=hint.triggerPtr
    · rw [hplace.other (horder.sessions item hitem) (hplace.free item hitem (hid.symm.trans hqid))]
      exact hne
    · rw [notePointer_of_ne hqid]
      exact hne
  · rw [List.mem_singleton.mp hitem]
    obtain ⟨q,hq,hid⟩ := h.present call.funcName hint (hplace.hints ▸ List.mem_singleton_self hint)
    refine ⟨_,hlisted q hq,(notePointer_id _ _ _).trans hid,?_⟩
    rw [notePointer_of_eq hid]
    show (q.trigger.notifySourceFunc (metadata call) call.sessionId).actionForRerun call.sessionId≠[]
    rcases hplace.ready q hq hid with hnone|⟨hone,hfiled⟩
    · rw [(notifySourceFunc_first hnone).1 (hslot q hq hid hnone)]
      exact List.cons_ne_nil _ _
    · rw [notifySourceFunc_again hfiled,hone]
      exact List.cons_ne_nil _ _

/-- Every move that disturbs no check keeps calls and checks matched. -/
theorem Matched.turn (h : Matched r) (horder : Orderly r) (hcalm : Undisturbed cfg r move)
    (ht : Turn cfg (Awaits r.st.rerunCheckQueue) r move r') : Matched r' := by
  cases ht with
  | changed u hv hsub => exact h.evolves horder.apart hv hsub _
  | recorded u hv hsub e hnone he => exact h.evolves horder.apart hv hsub _
  | placed u hv hsub time origin call hint hplace he hnew =>
    have hbefore := h.evolves horder.apart hv hsub r.executions
    refine hbefore.place (horder.evolves hv hsub) hplace (fun p hp hid hnone => ?_) _
    obtain ⟨hold,origin',rfl,hsome,hhint⟩ := hnew p hp hid hnone
    exact hcalm hsome hint hhint p.trigger (hid ▸ horder.apart.pointerTrigger hold)

/-- Matched checks do not outnumber calls. -/
theorem Matched.balanced (h : Matched r) (horder : Orderly r) : Balanced r := by
  intro id session
  have hsole : pending r id session≤1 := by
    have hcount := List.nodup_iff_count_le_one.mp horder.sole (id,session)
    rw [List.count,List.countP_map] at hcount
    refine (le_of_eq (List.countP_congr fun item _ => ?_)).trans hcount
    simp [subject]
  rcases Nat.eq_zero_or_pos (pending r id session) with hzero|hpos
  · rw [hzero]
    exact Nat.zero_le _
  · obtain ⟨item,hitem,hsame⟩ := List.countP_pos_iff.mp hpos
    obtain ⟨rfl,rfl⟩ := of_decide_eq_true hsame
    obtain ⟨p,hp,hid,hne⟩ := h.awaited item hitem
    have hout : outstanding r.st.tables item.triggerPtr item.session=
        p.trigger.actionForRerun item.session := by
      rw [outstanding,←hid,horder.apart.pointerTrigger hp]
      rfl
    rw [hout]
    exact hsole.trans (List.length_pos_iff.mpr hne)

variable {cfg : SchedulerConfig} {seed : UInt32} {moves : List Move}

/-- Moves whose hinted calls are single. -/
theorem moves_timely (hclock : ∀ m n,m≤n → cfg.clock m≤ cfg.clock n)
    (hsingle : StepsMeet (RerunMoves.step cfg) (Single cfg) (start cfg seed) moves) :
    AllStates (RerunMoves.step cfg) (fun r => Timely r.executions ∧ Separate r)
      (start cfg seed) moves := by
  have hspares : ∀ (r : Recorded) (move : Move),Spares (fun _ _ => False) r move := by
    intro r move
    cases move with
    | object bk => exact fun _ _ _ hk => hk.elim
    | update msg => exact fun _ _ _ _ _ _ hk => hk
    | _ => trivial
  have hstep : ∀ r move r',Orderly r → Single cfg r move → RerunMoves.step cfg r move=some r' → Orderly r' :=
    fun r move r' h hs hr => h.turn (turn_of_step hclock h hs (hspares r move) hr)
  exact allStates_of_stepsMeet (fun r h => ⟨h.timely,h.separate⟩) hstep (orderly_start cfg seed) hsingle

/-- Moves that do not disturb pending checks either. -/
theorem moves_balanced (hclock : ∀ m n,m≤n → cfg.clock m≤ cfg.clock n)
    (hsingle : StepsMeet (RerunMoves.step cfg) (Single cfg) (start cfg seed) moves)
    (hcalm : StepsMeet (RerunMoves.step cfg) (Undisturbed cfg) (start cfg seed) moves) :
    AllStates (RerunMoves.step cfg) Balanced (start cfg seed) moves := by
  have hstep : ∀ r move r',Orderly r ∧ Matched r → Single cfg r move ∧ Undisturbed cfg r move →
      RerunMoves.step cfg r move=some r' → Orderly r' ∧ Matched r' := by
    intro r move r' h hs hr
    have hturn := turn_of_step hclock h.1 hs.1 (hs.2.spares h.1) hr
    exact ⟨h.1.turn hturn,h.2.turn h.1 hs.2 hturn⟩
  exact allStates_of_stepsMeet (fun r h => h.2.balanced h.1) hstep
    ⟨orderly_start cfg seed,matched_start cfg seed⟩ (hsingle.and hcalm)

/-- In every run whose hinted calls are single, every re-execution respects
the timeouts and no check acts for another one that is pending. If in
addition nothing disturbs the pending checks, they do not outnumber the
outstanding calls. Runs are sequences of moves, and every run of the
scheduler is one of them. -/
theorem reruns_respect_timeouts (cfg : SchedulerConfig) (seed : UInt32)
    (hclock : ∀ m n,m≤n → cfg.clock m≤ cfg.clock n) :
    (∀ moves,StepsMeet (RerunMoves.step cfg) (Single cfg) (start cfg seed) moves →
      AllStates (RerunMoves.step cfg) (fun r => Timely r.executions ∧ Separate r)
        (start cfg seed) moves ∧
      (StepsMeet (RerunMoves.step cfg) (Undisturbed cfg) (start cfg seed) moves →
        AllStates (RerunMoves.step cfg) Balanced (start cfg seed) moves)) ∧
    ∀ labels st,run (SchedulerLoop.step cfg) (.start cfg seed) labels=some st → ∃ moves r,
      run (RerunMoves.step cfg) (start cfg seed) moves=some r ∧ r.st=st ∧ Recounts r ∧
      (StepsMeet (RerunMoves.step cfg) (Single cfg) (start cfg seed) moves →
        Timely r.executions ∧ Separate r ∧
        (StepsMeet (RerunMoves.step cfg) (Undisturbed cfg) (start cfg seed) moves → Balanced r)) := by
  refine ⟨fun moves hsingle => ⟨moves_timely hclock hsingle,moves_balanced hclock hsingle⟩,
    fun labels st h => ?_⟩
  obtain ⟨moves,r,hr,hst⟩ := moves_of_run h
  refine ⟨moves,r,hr,hst,recounts_run hr,fun hsingle => ?_⟩
  obtain ⟨htimely,hseparate⟩ := allStates_last (moves_timely hclock hsingle) hr
  exact ⟨htimely,hseparate,fun hcalm => allStates_last (moves_balanced hclock hsingle hcalm) hr⟩

/-- A worker with four executors and a clock that advances by a second at
every reading. -/
def secondsConfig : SchedulerConfig := .sample [0,1,2,3] 0 1 fun k => k*1000000000

theorem secondsConfig_clock_le (m n : ℕ) (h : m≤n) : secondsConfig.clock m≤ secondsConfig.clock n := by
  show (m : ℤ)*1000000000≤ (n : ℤ)*1000000000
  omega

/-- A trigger that waits for two keys, with hints. -/
def hintedSet (hints : List RerunHint) : UpdateCoordMsg :=
  ⟨str "10.0.0.9",0,str "app",[str "f",str "g"],[],
    [⟨str "b",str "t",0,.bySet,⟨str "h",[str "a",str "c"],0,0⟩,[],hints⟩],0⟩

/-- An executor becomes free. -/
def freed (executor : UInt8) : Move :=
  .aside fun st => {st with pool := recvReport st.pool executor .available}

/-- The clock is read. -/
def readAside : Move := .aside fun st => {st with tick := st.tick+1}

/-- A call of a function in the session. -/
def callIn (func : String) : Invocation :=
  ⟨str "0123456789abcdef",str "app",str func,[],0⟩

/-- A call whose object does not come and that is executed again a second
later. -/
def lateCall : List Move :=
  [.update (hintedSet [⟨str "f",str "a",1000⟩]),freed 0,freed 1,
    .schedule (.request 0) (callIn "f"),readAside,.serve 2]

theorem reruns_respect_timeouts_late : ∃ r,
    run (RerunMoves.step secondsConfig) (start secondsConfig 1) lateCall=some r ∧
      (r.executions.map fun e => (e.time,e.origin))=
        [(1000000000,.request 0),(3000000000,.rerun)] ∧
      Timely r.executions ∧ Separate r ∧ Balanced r := by
  have hcomputed : ((run (RerunMoves.step secondsConfig) (start secondsConfig 1) lateCall).map
      fun r => decide ((r.executions.map fun e => (e.time,e.origin))=
        [(1000000000,.request 0),(3000000000,.rerun)]))=some true := by
    decide +kernel
  obtain ⟨r,hr,htimes⟩ := exists_of_decided hcomputed
  have hsingle : StepsMeet (RerunMoves.step secondsConfig) (Single secondsConfig)
      (start secondsConfig 1) lateCall := by
    decide +kernel
  have hcalm : StepsMeet (RerunMoves.step secondsConfig) (Undisturbed secondsConfig)
      (start secondsConfig 1) lateCall := by
    decide +kernel
  obtain ⟨htimely,hbalanced⟩ := (reruns_respect_timeouts secondsConfig 1
    secondsConfig_clock_le).1 lateCall hsingle
  obtain ⟨hlast,hseparate⟩ := allStates_last htimely hr
  exact ⟨r,hr,htimes,hlast,hseparate,allStates_last (hbalanced hcalm) hr⟩

/-- The same worker with a clock that advances once, by a second. -/
def oneSecondConfig : SchedulerConfig :=
  .sample [0,1,2,3] 0 1 fun k => if k<3 then 0 else 1000000000

/-- Hints with ten seconds and one second. -/
def twoTimeouts : UpdateCoordMsg := hintedSet [⟨str "f",str "a",10000⟩,⟨str "g",str "c",1000⟩]

/-- Both functions are called, and the check of the faster one is served. -/
def twoCalls : List Move :=
  [.update twoTimeouts,freed 0,freed 1,freed 2,freed 3,.schedule (.request 0) (callIn "f"),
    .schedule (.request 1) (callIn "g"),readAside,.serve 3]

/-- The two calls as the scheduler receives them. -/
def twoCallsReceived : List SchedLabel :=
  [.update twoTimeouts,.executor [1,7],.executor [2,7],.executor [3,7],.executor [4,7],
    .call ⟨str "app",[⟨str "f",[]⟩,⟨str "g",[]⟩],[],[],[],str "0123456789abcdef",false⟩,.report 2]

/-- The check of a function with a timeout of one second has a function with
a timeout of ten executed again, a second after its only execution. There
are then three checks for the two calls. -/
theorem rerun_before_timeout :
    (∀ m n,m≤n → oneSecondConfig.clock m≤ oneSecondConfig.clock n) ∧
    (∃ r,run (RerunMoves.step oneSecondConfig) (start oneSecondConfig 1) twoCalls=some r ∧
      ¬Timely r.executions ∧ ¬Balanced r) ∧
    ∃ st,run (SchedulerLoop.step oneSecondConfig) (.start oneSecondConfig 1) twoCallsReceived=some st ∧
      st.trace.filterMap callOf=[(.request 0,callIn "f"),(.request 1,callIn "g"),
        (.rerun,callIn "f"),(.rerun,callIn "g")] := by
  refine ⟨fun m n hmn => ?_,?_,?_⟩
  · show (if m<3 then 0 else 1000000000)≤(if n<3 then 0 else 1000000000 : ℤ)
    split <;> split <;> omega
  · have hcomputed : ((run (RerunMoves.step oneSecondConfig) (start oneSecondConfig 1) twoCalls).map
        fun r => decide ((∃ e∈r.executions[2]?,e.origin=.rerun ∧ ∃ hint∈e.hints,
            ∀ last∈lastExecution (r.executions.take 2) e.call.sessionId e.call.funcName,
              e.time<deadline last hint) ∧
          (outstanding r.st.tables 0 (str "0123456789abcdef")).length<
            pending r 0 (str "0123456789abcdef")))=some true := by
      decide +kernel
    obtain ⟨r,hr,⟨e,he,horigin,hint,hhint,hearly⟩,hmore⟩ := exists_of_decided hcomputed
    refine ⟨r,hr,fun htimely => ?_,fun hbalanced => ?_⟩
    · obtain ⟨last,hlast,hover⟩ := htimely.getElem? he horigin hint hhint
      exact absurd hover (Int.not_le.mpr (hearly last hlast))
    · exact absurd (hbalanced 0 _) (Nat.not_le.mpr hmore)
  · refine exists_of_decided ?_
    decide +kernel

end Pheromone.RerunTimeouts
