import Pheromone.BatchReplicas
import Pheromone.BucketNetwork

/-!
# A batch trigger on many workers

The batch trigger is the abstract batch collector. Two workers can fire one
object twice, but not under the guard of the abstract layer.
-/

namespace Pheromone.BatchReplication

open GuardedRuns ReplicaNetwork BatchReplicas CommonNames TriggerPrimitives BucketNetwork

/-- A batch trigger with a buffer. -/
def Buffers (target : Str) (count : Int32) (T : Trigger) (buffer : List (Session×Key)) : Prop :=
  T.targetFunction=target ∧ ∃ b : ByBatchSizeTrigger,T.state=.byBatchSize b ∧ b.count=count ∧
    b.buffer=buffer

/-- An action of the target with the objects of a batch. -/
def Batches (target : Str) (a : TriggerAction) (objects : List (Session×Key)) : Prop :=
  a.function=target ∧ a.sessionKeys=objects

/-- A positive batch size as the comparison reads it. -/
def batchSize (count : Int32) : ℕ := (count.toInt%2^64).toNat

variable {target : Str} {count : Int32}

variable {T : Trigger} {buffer : List (Session×Key)}

/-- An arrival at the batch trigger is one at the collector. -/
theorem buffers_arrive (now : ℤ) (bk : BucketKey) (h : Buffers target count T buffer) :
    Buffers target count (T.actionForNewObject now bk).1
        ((batch (batchSize count) Prod.fst).arrive buffer (bk.session,bk.key)).1 ∧
      List.Forall₂ (Batches target) (T.actionForNewObject now bk).2
        ((batch (batchSize count) Prod.fst).arrive buffer (bk.session,bk.key)).2 := by
  obtain ⟨ht,b,hb,rfl,rfl⟩ := h
  by_cases hf : b.threshold≤b.buffer.length+1
  · have hc : batchSize b.count≤b.buffer.length+1 := hf
    simp only [Trigger.actionForNewObject,hb,TriggerState.actionForNewObject,
      ByBatchSizeTrigger.actionForNewObject,List.length_append,List.length_singleton,ge_iff_le,hf,
      if_true,batch,next,hc]
    exact ⟨⟨ht,_,rfl,rfl,rfl⟩,List.Forall₂.cons ⟨ht,rfl⟩ List.Forall₂.nil⟩
  · have hc : ¬batchSize b.count≤b.buffer.length+1 := hf
    simp only [Trigger.actionForNewObject,hb,TriggerState.actionForNewObject,
      ByBatchSizeTrigger.actionForNewObject,List.length_append,List.length_singleton,ge_iff_le,hf,
      if_false,batch,next,hc]
    exact ⟨⟨ht,_,rfl,rfl,rfl⟩,List.Forall₂.nil⟩

/-- The batch trigger as a collector. -/
def batchAbstraction (target : Str) (count : Int32) :
    Abstraction (List (Session×Key)) (Session×Key) (List (Session×Key)) where
  replica := batch (batchSize count) Prod.fst
  object bk := (bk.session,bk.key)
  Represents := Buffers target count
  Performs := Batches target
  arrive := buffers_arrive
  clear := by
    rintro T buffer session ⟨ht,b,hb,hc,-⟩
    exact ⟨ht,b.clear,by simp only [Trigger.clear,hb,TriggerState.clear],hc,rfl⟩
  note := by
    rintro T buffer call session ⟨ht,b,hb,hc,hbuf⟩
    exact ⟨ht,{b with sessionStatusCache := notifySessionCall b.sessionStatusCache call session},
      by simp only [Trigger.notifySourceFunc,hb,TriggerState.notifySourceFunc],hc,hbuf⟩
  session _ := rfl
  cleared := by
    rintro T buffer ⟨-,b,hb,-⟩
    simp [Trigger.getType,hb,TriggerState.getType]

/-- The buffer of the batch trigger of a name. -/
def bufferOf (t : Str) (triggers : List Trigger) : List (Session×Key) :=
  match (named t triggers).map Trigger.state with
  | .byBatchSize b::_ => b.buffer
  | _ => []

theorem Buffers.bufferOf_eq {t : Str} {triggers : List Trigger} (h : Buffers target count T buffer)
    (hT : named t triggers=[T]) : bufferOf t triggers=buffer := by
  obtain ⟨-,b,hb,-,hbuf⟩ := h
  simp only [bufferOf,hT,List.map_cons,hb]
  exact hbuf

/-- One trigger of the name, a batch trigger with an empty buffer. -/
def Installed (t target : Str) (count : Int32) (triggers : List Trigger) : Prop :=
  ∃ T,named t triggers=[T] ∧ Buffers target count T []

variable {ι : Type*} [DecidableEq ι]

/-- Objects of all actions fired by the trigger of a name. -/
def firedKeys (t : Str) (n : BucketNet ι) : List (Session×Key) :=
  (n.fired.filter fun f => decide (f.trigger=t)).flatMap fun f => f.action.sessionKeys

/-- All objects that were put. -/
def putKeys (n : BucketNet ι) : List (Session×Key) := n.puts.map fun p => (p.2.session,p.2.key)

/-- No notification of the worker names the trigger. -/
def Silent (t : Str) (n : BucketNet ι) (w : ι) : Prop :=
  ∀ msg∈n.notifications w,t∉msg.activeTriggerNames

/-- What a step has to respect: a put that fills a worker's batch, and a
consumed notification, happen while no other worker has a notification with
the trigger's name under way; and the buffer filled is then the one that the
coordinator will have after the worker's own notifications. -/
def InStep (c : ℕ) (t : Str) (n : BucketNet ι) : Label ι → Prop
  | .put w _ _ _ => c≤(bufferOf t (n.workers w)).length+1 →
    bufferOf t (n.workers w)=(n.notifications w).foldl
      (fun buffer msg => next c buffer (msg.bucketKey.session,msg.bucketKey.key))
      (bufferOf t n.coord) ∧ ∀ v,v≠w → Silent t n v
  | .notify w _ => ∀ v,v≠w → Silent t n v
  | .update _ => True
  | .note _ _ _ _ => True

instance (t : Str) (n : BucketNet ι) (w : ι) : Decidable (Silent t n w) :=
  inferInstanceAs (Decidable (∀ msg∈n.notifications w,t∉msg.activeTriggerNames))

instance [Fintype ι] (c : ℕ) (t : Str) (n : BucketNet ι) (l : Label ι) :
    Decidable (InStep c t n l) :=
  match l with
  | .put _ _ _ _ => inferInstanceAs (Decidable (_ → _ ∧ _))
  | .notify w _ => inferInstanceAs (Decidable (∀ v,v≠w → Silent t n v))
  | .update _ => isTrue trivial
  | .note _ _ _ _ => isTrue trivial

variable {bucket : Bucket} {t : Str}

variable {n : BucketNet ι}
  {m : Net ι (List (Session×Key)) (Session×Key) (List (Session×Key)) Session}

omit [DecidableEq ι] in
/-- Fired objects of the bucket and of the network agree. -/
theorem firedKeys_eq (h : Refines (batchAbstraction target count) bucket t n m) :
    firedKeys t n=firedObjects m := by
  unfold firedKeys firedObjects
  have hf := h.fired
  generalize (n.fired.filter fun f => decide (f.trigger=t))=l at hf ⊢
  generalize m.fired=l' at hf ⊢
  induction hf with
  | nil => rfl
  | cons hfa _ ih =>
    rw [List.flatMap_cons,List.map_cons,List.flatten_cons,ih,hfa.2.2]

omit [DecidableEq ι] in
/-- Put objects of the bucket and of the network agree. -/
theorem putKeys_eq (h : Refines (batchAbstraction target count) bucket t n m) :
    putKeys n=objects m.sent := by
  have hp := congrArg (List.map Prod.snd) h.puts
  rw [List.map_map,List.map_map] at hp
  exact hp.symm

omit [DecidableEq ι] in
theorem silent_iff (h : Refines (batchAbstraction target count) bucket t n m) (w : ι) :
    Silent t n w ↔ Unmarked (m.up w) := by
  rw [Unmarked,h.up]
  simp [Silent]

/-- The accounting holds along every guarded run. -/
theorem inv_of_inStep {n' : BucketNet ι} {l : Label ι}
    (h : ∃ m,Refines (batchAbstraction target count) bucket t n m ∧ Replica.Fifo m ∧
      Inv (batchSize count) m) (hg : InStep (batchSize count) t n l) (hs : step bucket n l=some n') :
    ∃ m,Refines (batchAbstraction target count) bucket t n' m ∧ Replica.Fifo m ∧
      Inv (batchSize count) m := by
  obtain ⟨m,href,hfifo,hinv⟩ := h
  obtain ⟨w,key,session,now,rfl,rfl⟩|⟨w,now,msg,rest,rfl,hu,rfl⟩|⟨w,msg,rest,rfl,hd,rfl⟩|
    ⟨w,index,call,session,rfl,rfl⟩ := step_cases hs
  · refine ⟨_,refines_put href w key session now,
      (batchAbstraction target count).replica.fifo_step hfifo (e:=.put w _) rfl,inv_put hinv ?_⟩
    intro hfull
    obtain ⟨T,hT,hrep⟩ := href.worker w
    obtain ⟨S,hS,hcen⟩ := href.coord
    have hw : bufferOf t (n.workers w)=m.leaf w := Buffers.bufferOf_eq hrep hT
    have hc : bufferOf t n.coord=m.center := Buffers.bufferOf_eq hcen hS
    obtain ⟨hbuf,hother⟩ := hg (hw ▸ hfull)
    refine ⟨?_,fun v hv => (silent_iff href v).mp (hother v hv)⟩
    rw [←hw,hbuf,hc,advance,href.up,List.foldl_map]
    rfl
  · have hup : m.up w=_ := href.up w
    rw [hu,List.map_cons] at hup
    refine ⟨_,refines_notify href hu now,
      (batchAbstraction target count).replica.fifo_step hfifo (e:=.deliver w) ?_,
      inv_deliver hinv hup fun v hv => (silent_iff href v).mp (hg v hv)⟩
    simp only [Replica.step,hup]
  · obtain ⟨m',-,hm',href'⟩ := refines_update href hd
    refine ⟨m',href',?_,?_⟩
    · rw [hm']
      exact hfifo
    · rw [hm']
      exact ⟨hinv.focus,hinv.delivered⟩
  · exact ⟨m,refines_note href w index call session,hfifo,hinv⟩

/-- The worker that takes part in a step. -/
def partner : Label ι → ι
  | .put w _ _ _ => w
  | .notify w _ => w
  | .update w => w
  | .note w _ _ _ => w

/-- In every run of a batch trigger of size one, and in every run of any other
size whose steps respect the guard, no put object is fired more than once; and
once nothing is under way every put object was fired exactly once or is in the
coordinator's buffer. -/
theorem batch_exactly_once_of_inStep (bucket : Bucket) (t : Str) {workers : ι → List Trigger}
    {coord : List Trigger} (hw : ∀ w,Installed t target count (workers w))
    (hc : Installed t target count coord) (l : List (Label ι)) {n : BucketNet ι}
    (hr : run (step bucket) (BucketNet.start workers coord) l=some n)
    (hg : StepsMeet (step bucket) (fun n l => count=1 ∨ InStep (batchSize count) t n l)
      (BucketNet.start workers coord) l) :
    (firedKeys t n).Subperm (putKeys n) ∧
      ((∀ w,n.notifications w=[]) → (∀ w,n.updates w=[]) →
        (firedKeys t n++bufferOf t n.coord).Perm (putKeys n)) := by
  by_cases hone : count=1
  · subst hone
    obtain ⟨es,m,hm,href⟩ := refines_run (A:=batchAbstraction target 1) hw hc hr
    have hrun : run (batch 1 Prod.fst).step (Net.start []) es=some m := hm
    obtain ⟨hfired,hcenter⟩ := single_run hrun
    obtain ⟨S,hS,hcen⟩ := href.coord
    have hbuf : bufferOf t n.coord=[] := (Buffers.bufferOf_eq hcen hS).trans hcenter
    have heq : firedKeys t n=putKeys n := by rw [firedKeys_eq href,putKeys_eq href,hfired]
    rw [hbuf,heq,List.append_nil]
    exact ⟨List.Subperm.refl _,fun _ _ => List.Perm.refl _⟩
  · cases l with
    | nil =>
      obtain rfl := Option.some.inj hr
      obtain ⟨S,hS,hcen⟩ := hc
      refine ⟨List.nil_subperm,fun _ _ => ?_⟩
      rw [show (BucketNet.start workers coord).coord=coord from rfl,Buffers.bufferOf_eq hcen hS]
      exact List.Perm.nil
    | cons a l =>
      obtain ⟨m,href,hfifo,hinv⟩ := run_invariant_of_steps
        (fun _ _ _ h hok hs => inv_of_inStep h (hok.resolve_left hone) hs)
        ⟨_,refines_start (A:=batchAbstraction target count) hw hc,Replica.fifo_start _,
          inv_start (partner a)⟩ hg hr
      obtain ⟨S,hS,hcen⟩ := href.coord
      have hbuf : bufferOf t n.coord=m.center := Buffers.bufferOf_eq hcen hS
      rw [hbuf,firedKeys_eq href,putKeys_eq href]
      refine ⟨Multiset.coe_le.mp (hinv.firedObjects_le hfifo),fun hq _ => ?_⟩
      exact Multiset.coe_eq_coe.mp (hinv.firedObjects_quiescent hfifo fun w => by
        rw [href.up,hq w,List.map_nil])

/-- A batch trigger of size two, as it is when installed. -/
def pairTrigger : Trigger := ⟨str "sum",str "t",0,.byBatchSize ⟨2,[],∅⟩⟩

/-- One worker fills a batch from the coordinator's buffer; another one then
opens the next batch. -/
def alternatingRun : List (Label Bool) :=
  [.put false (str "a1") (str "s") 0,.notify false 0,.put false (str "a2") (str "s") 0,
    .notify false 0,.put true (str "b1") (str "s") 0,.notify true 0]

theorem batch_exactly_once_of_inStep_alternating : ∃ n,
    run (step (str "b")) (BucketNet.start (fun _ : Bool => [pairTrigger]) [pairTrigger])
      alternatingRun=some n ∧
    (firedKeys (str "t") n).Subperm (putKeys n) ∧
      ((∀ w,n.notifications w=[]) → (∀ w,n.updates w=[]) →
        (firedKeys (str "t") n++bufferOf (str "t") n.coord).Perm (putKeys n)) := by
  have hi : Installed (str "t") (str "sum") 2 [pairTrigger] :=
    ⟨pairTrigger,by decide,rfl,_,rfl,rfl,rfl⟩
  refine ⟨_,rfl,batch_exactly_once_of_inStep (str "b") (str "t") (fun _ => hi) hi
    alternatingRun rfl ?_⟩
  exact stepsMeet_cons (Or.inr (by decide)) rfl (stepsMeet_cons (Or.inr (by decide)) rfl
    (stepsMeet_cons (Or.inr (by decide)) rfl (stepsMeet_cons (Or.inr (by decide)) rfl
      (stepsMeet_cons (Or.inr (by decide)) rfl (stepsMeet_cons (Or.inr (by decide)) rfl trivial)))))

/-- The coordinator dispatches a batch of both workers, and the first worker
fills its own batch before the clear arrives. -/
def overlappingRun : List (Label Bool) :=
  [.put false (str "a1") (str "s") 0,.put true (str "b1") (str "s") 0,.notify false 0,
    .notify true 0,.put false (str "a2") (str "s") 0]

/-- An object put once is fired twice. -/
theorem batch_object_fired_twice : ∃ n,
    run (step (str "b")) (BucketNet.start (fun _ : Bool => [pairTrigger]) [pairTrigger])
      overlappingRun=some n ∧
    (putKeys n).count (str "s",str "a1")=1 ∧ (firedKeys (str "t") n).count (str "s",str "a1")=2 ∧
      ¬(firedKeys (str "t") n).Subperm (putKeys n) := by
  refine ⟨_,rfl,by decide,by decide,fun h => ?_⟩
  have hle := h.count_le (str "s",str "a1")
  exact absurd hle (by decide)

end Pheromone.BatchReplication
