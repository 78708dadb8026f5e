import Pheromone.ReactiveMachines
import Pheromone.EventHistories
import Pheromone.TriggerPrimitives

/-!
# Triggers that buffer a stream

A batch trigger and a time trigger fire with all objects they have kept.
Nothing is lost, repeated or reordered.
-/

namespace Pheromone.BufferedStreams

open ReactiveMachines EventHistories CommonNames TriggerPrimitives

/-- What an action is given of an object. -/
def sessionKey (bk : BucketKey) : Session×Key := (bk.session,bk.key)

/-- The objects of actions. -/
def actionKeys (acts : List TriggerAction) : List (Session×Key) :=
  acts.flatMap TriggerAction.sessionKeys

/-- The batch trigger as it is built. -/
def emptyBatch (count : Int32) : ByBatchSizeTrigger := ⟨count,[],∅⟩

/-- What a batch trigger does on a sequence of arrivals. -/
structure BatchStream (target : Str) (count : Int32) (l : List BucketKey) : Prop where
  /-- The actions and the buffer are the arrivals. -/
  partition : (outputs (ByBatchSizeTrigger.actionForNewObject target) (emptyBatch count) l).flatMap
      actionKeys++
    (after (ByBatchSizeTrigger.actionForNewObject target) (emptyBatch count) l).buffer=
      l.map sessionKey
  /-- An action is a full batch. -/
  full : ∀ acts∈outputs (ByBatchSizeTrigger.actionForNewObject target) (emptyBatch count) l,
    ∀ a∈acts,(a.sessionKeys.length : ℤ)=count.toInt
  /-- What is kept between arrivals is not. -/
  short : ∀ l',l'<+:l →
    ((after (ByBatchSizeTrigger.actionForNewObject target) (emptyBatch count) l').buffer.length : ℤ)<
      count.toInt

/-- A positive batch size is compared as it is. -/
theorem threshold_eq {t : ByBatchSizeTrigger} (h : 1≤t.count.toInt) :
    (t.threshold : ℤ)=t.count.toInt := by
  have hlt := Int32.toInt_lt t.count
  rw [ByBatchSizeTrigger.threshold]
  omega

/-- An arrival is appended, and a full buffer fired. -/
theorem batch_keeps (target : Str) (t : ByBatchSizeTrigger) (bk : BucketKey) :
    actionKeys (t.actionForNewObject target bk).2++(t.actionForNewObject target bk).1.buffer=
      t.buffer++[sessionKey bk] := by
  unfold ByBatchSizeTrigger.actionForNewObject
  dsimp only
  split
  · show ((t.buffer++[(bk.session,bk.key)])++[])++[]=_
    rw [List.append_nil,List.append_nil]
    rfl
  · rfl

/-- A batch that is not full, of the given size. -/
def Filling (count : Int32) (t : ByBatchSizeTrigger) : Prop :=
  t.count=count ∧ (t.buffer.length : ℤ)<count.toInt

theorem filling_arrive {target : Str} {count : Int32} (hcount : 1≤ count.toInt)
    {t : ByBatchSizeTrigger} (h : Filling count t) (bk : BucketKey) :
    Filling count (t.actionForNewObject target bk).1 ∧
      ∀ a∈(t.actionForNewObject target bk).2,(a.sessionKeys.length : ℤ)=count.toInt := by
  obtain ⟨rfl,hlt⟩ := h
  have hthreshold := threshold_eq hcount
  have hlen : (t.buffer++[(bk.session,bk.key)]).length=t.buffer.length+1 := by
    rw [List.length_append,List.length_singleton]
  unfold ByBatchSizeTrigger.actionForNewObject
  dsimp only
  split
  · rename_i hfull
    refine ⟨⟨rfl,by show (0 : ℤ)<_; omega⟩,fun a ha => ?_⟩
    rw [List.mem_singleton.mp ha]
    show ((t.buffer++[(bk.session,bk.key)]).length : ℤ)=_
    omega
  · rename_i hshort
    refine ⟨⟨rfl,?_⟩,fun a ha => absurd ha List.not_mem_nil⟩
    show ((t.buffer++[(bk.session,bk.key)]).length : ℤ)<_
    omega

theorem filling_emptyBatch {count : Int32} (hcount : 1≤ count.toInt) :
    Filling count (emptyBatch count) := ⟨rfl,by show (0 : ℤ)<_; omega⟩

theorem batchStream (target : Str) {count : Int32} (hcount : 1≤ count.toInt) (l : List BucketKey) :
    BatchStream target count l := by
  have hstep : ∀ t bk,Filling count t → Filling count (t.actionForNewObject target bk).1 ∧
      ∀ a∈(t.actionForNewObject target bk).2,(a.sessionKeys.length : ℤ)=count.toInt :=
    fun _ bk h => filling_arrive hcount h bk
  have hempty := filling_emptyBatch hcount
  refine ⟨?_,forall_outputs hstep hempty l,fun l' _ => ?_⟩
  · exact flatMap_outputs ByBatchSizeTrigger.buffer actionKeys sessionKey (batch_keeps target) _ l
  · exact (after_invariant (fun t bk h => (hstep t bk h).1) hempty l').2

/-- The time trigger as it is built at a reading of the clock. -/
def openWindow (window : UInt32) (start : ℤ) : ByTimeTrigger := ⟨window,[],start⟩

/-- An arrival at a reading of the clock. -/
def arriveAt (target : Str) (t : ByTimeTrigger) (arrival : ℤ×BucketKey) :
    ByTimeTrigger×List TriggerAction := t.actionForNewObject target arrival.1 arrival.2

/-- The reading at the last arrival that fired, or when the trigger was built. -/
def lastFiring (start : ℤ) (tr : List ((ℤ×BucketKey)×List TriggerAction)) : ℤ :=
  ((tr.filter fun e => !e.2.isEmpty).map fun e => e.1.1).getLastD start

/-- An arrival fires exactly if the window has passed since the last firing. -/
def FiresInTime (window : UInt32) (start : ℤ) (tr : List ((ℤ×BucketKey)×List TriggerAction))
    (e : (ℤ×BucketKey)×List TriggerAction) : Prop :=
  e.2≠[] ↔ lastFiring start tr+window.toNat*1000000≤ e.1.1

/-- What a time trigger does on a sequence of arrivals. -/
structure TimeStream (target : Str) (window : UInt32) (start : ℤ) (l : List (ℤ×BucketKey)) :
    Prop where
  /-- The actions and the buffer are the arrivals. -/
  partition : (outputs (arriveAt target) (openWindow window start) l).flatMap actionKeys++
    (after (arriveAt target) (openWindow window start) l).buffer=l.map fun x => sessionKey x.2
  /-- It fires when the window has passed. -/
  fires : Justified (FiresInTime window start) (trace (arriveAt target) (openWindow window start) l)

/-- An arrival is appended, and the buffer fired after the window. -/
theorem time_keeps (target : Str) (t : ByTimeTrigger) (x : ℤ×BucketKey) :
    actionKeys (arriveAt target t x).2++(arriveAt target t x).1.buffer=
      t.buffer++[sessionKey x.2] := by
  unfold arriveAt ByTimeTrigger.actionForNewObject
  dsimp only
  split
  · show ((t.buffer++[(x.2.session,x.2.key)])++[])++[]=_
    rw [List.append_nil,List.append_nil]
    rfl
  · rfl

/-- A time that is not negative has its milliseconds rounded down. -/
theorem window_passed {d : ℤ} (hd : 0≤d) (window : ℕ) :
    Int.tdiv d 1000000≥window ↔ window*1000000≤d := by
  rw [Int.tdiv_eq_ediv_of_nonneg hd]
  omega

theorem lastFiring_concat (start : ℤ) (tr : List ((ℤ×BucketKey)×List TriggerAction))
    (e : (ℤ×BucketKey)×List TriggerAction) :
    lastFiring start (tr++[e])=if e.2=[] then lastFiring start tr else e.1.1 := by
  unfold lastFiring
  rw [List.filter_append]
  obtain ⟨x,acts⟩ := e
  cases acts with
  | nil =>
    rw [if_pos rfl]
    exact congrArg (fun tr => (List.map _ tr).getLastD start) (List.append_nil _)
  | cons a acts =>
    rw [if_neg (List.cons_ne_nil a acts),List.map_append]
    exact List.getLastD_concat

theorem lastFiring_mem (start : ℤ) (tr : List ((ℤ×BucketKey)×List TriggerAction)) :
    lastFiring start tr∈start::tr.map fun e => e.1.1 := by
  induction tr using List.reverseRecOn with
  | nil => exact List.mem_cons_self
  | append_singleton tr e ih =>
    rw [lastFiring_concat,List.map_append]
    split
    · rw [←List.cons_append]
      exact List.mem_append_left _ ih
    · exact List.mem_cons_of_mem _ (List.mem_append_right _ List.mem_cons_self)

/-- The trigger remembers its last firing, and has fired in time so far. -/
structure Timed (window : UInt32) (start : ℤ) (t : ByTimeTrigger)
    (tr : List ((ℤ×BucketKey)×List TriggerAction)) : Prop where
  timeWindow : t.timeWindow=window
  lastTriggerStamp : t.lastTriggerStamp=lastFiring start tr
  /-- All firings, if the clock is not turned back. -/
  fires : (start::tr.map fun e => e.1.1).Pairwise (·≤·) → Justified (FiresInTime window start) tr

theorem Timed.arrive {window : UInt32} {start : ℤ} {t : ByTimeTrigger}
    {tr : List ((ℤ×BucketKey)×List TriggerAction)} (h : Timed window start t tr) (target : Str)
    (x : ℤ×BucketKey) :
    Timed window start (arriveAt target t x).1 (tr++[(x,(arriveAt target t x).2)]) := by
  have hwindow := h.timeWindow
  have hstamp := h.lastTriggerStamp
  have hfires : (start::(tr++[(x,(arriveAt target t x).2)]).map fun e => e.1.1).Pairwise (·≤·) →
      FiresInTime window start tr (x,(arriveAt target t x).2) →
      Justified (FiresInTime window start) (tr++[(x,(arriveAt target t x).2)]) := by
    intro hclock hx
    rw [List.map_append,←List.cons_append] at hclock
    exact (h.fires (List.pairwise_append.mp hclock).1).concat hx
  have hlast : (start::(tr++[(x,(arriveAt target t x).2)]).map fun e => e.1.1).Pairwise (·≤·) →
      0≤x.1-t.lastTriggerStamp := by
    intro hclock
    rw [List.map_append,←List.cons_append] at hclock
    have hle := (List.pairwise_append.mp hclock).2.2 _ (lastFiring_mem start tr) x.1 List.mem_cons_self
    rw [hstamp]
    omega
  by_cases hpassed : Int.tdiv (x.1-t.lastTriggerStamp) 1000000≥t.timeWindow.toNat
  · have hstep : arriveAt target t x=({t with buffer := [],lastTriggerStamp := x.1},
        [⟨target,t.buffer++[(x.2.session,x.2.key)]⟩]) := if_pos hpassed
    rw [hstep] at hfires hlast ⊢
    refine ⟨hwindow,?_,fun hclock => hfires hclock (iff_of_true (List.cons_ne_nil _ _) ?_)⟩
    · rw [lastFiring_concat,if_neg (List.cons_ne_nil _ _)]
    · rw [window_passed (hlast hclock),hwindow] at hpassed
      show lastFiring start tr+_≤x.1
      omega
  · have hstep : arriveAt target t x=({t with buffer := t.buffer++[(x.2.session,x.2.key)]},[]) :=
      if_neg hpassed
    rw [hstep] at hfires hlast ⊢
    refine ⟨hwindow,?_,fun hclock => hfires hclock (iff_of_false (fun hne => hne rfl) ?_)⟩
    · rw [lastFiring_concat,if_pos rfl]
      exact hstamp
    · rw [window_passed (hlast hclock),hwindow] at hpassed
      show ¬lastFiring start tr+_≤x.1
      omega

theorem timeStream (target : Str) (window : UInt32) {start : ℤ} {l : List (ℤ×BucketKey)}
    (hclock : (start::l.map Prod.fst).Pairwise (·≤·)) : TimeStream target window start l where
  partition := flatMap_outputs ByTimeTrigger.buffer actionKeys _ (time_keeps target)
    (openWindow window start) l
  fires := by
    have htimed : Timed window start (after (arriveAt target) (openWindow window start) l)
        (trace (arriveAt target) (openWindow window start) l) :=
      trace_invariant (fun _ _ x h => h.arrive target x) ⟨rfl,rfl,fun _ => justified_nil⟩ l
    refine htimed.fires ?_
    have htimes : (trace (arriveAt target) (openWindow window start) l).map (fun e => e.1.1)=
        l.map Prod.fst := by
      have hinputs := trace_map_fst (arriveAt target) (openWindow window start) l
      rw [←congrArg (List.map Prod.fst) hinputs,List.map_map]
      rfl
    rw [htimes]
    exact hclock

/-- Buffering triggers hand on the stream, in full batches and not before
their windows have passed. -/
theorem buffers_partition_streams (target : Str) (count : Int32) (hcount : 1≤ count.toInt)
    (window : UInt32) (objects : List BucketKey) (start : ℤ) (arrivals : List (ℤ×BucketKey))
    (hclock : (start::arrivals.map Prod.fst).Pairwise (·≤·)) :
    BatchStream target count objects ∧ TimeStream target window start arrivals :=
  ⟨batchStream target hcount objects,timeStream target window hclock⟩

/-- Objects of one session. -/
def objectsOf (keys : List String) : List BucketKey := keys.map fun key => ⟨str "b",str key,str "s"⟩

/-- Arrivals after two, four and seven milliseconds. -/
def timedArrivals : List (ℤ×BucketKey) := [2000000,4000000,7999999].zip (objectsOf ["a","b","c"])

theorem buffers_partition_streams_few :
    BatchStream (str "h") 2 (objectsOf ["a","b","c"]) ∧ TimeStream (str "h") 3 0 timedArrivals := by
  refine buffers_partition_streams (str "h") 2 (by decide) 3 (objectsOf ["a","b","c"]) 0
    timedArrivals ?_
  decide

end Pheromone.BufferedStreams
