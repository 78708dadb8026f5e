import Pheromone.ReplicaNetwork
import Pheromone.CoordinatorNotify
import Pheromone.WorkerUpdates

/-!
# Workers and coordinator around one bucket

Triggers of one bucket are replicated at workers and coordinator. A put
advances the worker's and reports the object with the names that fired; the
coordinator advances its own, skips these and clears the others. Each
trigger name behaves as one collector of a star network.
-/

namespace Pheromone.BucketNetwork

open GuardedRuns ReplicaNetwork CommonNames TriggerPrimitives OperationMessages
open CoordinatorNotify WorkerUpdates

/-- What the coordinator reads of a notification about one object. -/
structure Notification where
  /-- The object. -/
  bucketKey : BucketKey
  /-- Triggers that fired at the worker. -/
  activeTriggerNames : List Str
  deriving DecidableEq

/-- A fired action. -/
structure Fired (ι : Type*) where
  /-- Worker that fired, none for the coordinator. -/
  node : Option ι
  /-- Name of the trigger. -/
  trigger : Str
  action : TriggerAction
  deriving DecidableEq

/-- The bucket's state at all parties and on all links. -/
structure BucketNet (ι : Type*) where
  /-- Triggers of the bucket at every worker. -/
  workers : ι → List Trigger
  /-- Triggers of the bucket at the coordinator. -/
  coord : List Trigger
  /-- Notifications on the way, oldest first. -/
  notifications : ι → List Notification
  /-- Updates on the way, oldest first. -/
  updates : ι → List UpdateCoordMsg
  /-- Workers that have reported to the bucket. -/
  nodes : Finset ι
  /-- All fired actions, oldest first. -/
  fired : List (Fired ι)
  /-- All puts, oldest first. -/
  puts : List (ι×BucketKey)

/-- One step: a put, a consumed notification, a consumed update, or the
re-execution note of a scheduled source call at one of a worker's triggers. -/
inductive Label (ι : Type*) where
  | put (w : ι) (key : Key) (session : Session) (now : ℤ)
  | notify (w : ι) (now : ℤ)
  | update (w : ι)
  | note (w : ι) (index : ℕ) (call : TriggerFunctionMetadata) (session : Session)

/-- All actions of an arrival with the names of their triggers. -/
def namedActions (results : List (Trigger×List TriggerAction)) : List (Str×TriggerAction) :=
  results.flatMap fun r => r.2.map fun action => (r.1.triggerName,action)

/-- The results of the triggers that the worker has not fired. -/
def unskipped (active : List Str) (results : List (Trigger×List TriggerAction)) :
    List (Trigger×List TriggerAction) := results.filter fun r => decide (r.1.triggerName∉active)

variable {ι : Type*} [DecidableEq ι]

/-- Triggers installed everywhere, before any put. -/
def BucketNet.start (workers : ι → List Trigger) (coord : List Trigger) : BucketNet ι :=
  ⟨workers,coord,fun _ => [],fun _ => [],∅,[],[]⟩

/-- A worker receives an object. -/
def put (n : BucketNet ι) (w : ι) (bk : BucketKey) (now : ℤ) : BucketNet ι :=
  let results := arrivals now (n.workers w) bk
  {n with
    workers := Function.update n.workers w (results.map Prod.fst)
    notifications := Function.update n.notifications w
      (n.notifications w++[⟨bk,firedNames results⟩])
    fired := n.fired++(namedActions results).map fun a => ⟨some w,a.1,a.2⟩
    puts := n.puts++[(w,bk)]}

/-- The coordinator consumes a worker's oldest notification. -/
def notify (n : BucketNet ι) (w : ι) (msg : Notification) (rest : List Notification) (now : ℤ) :
    BucketNet ι :=
  let results := arrivals now n.coord msg.bucketKey
  let nodes := insert w n.nodes
  let names := triggeredNames msg.activeTriggerNames results
  {n with
    coord := results.map Prod.fst
    notifications := Function.update n.notifications w rest
    nodes := nodes
    updates := if names=[] then n.updates else
      fun v => if v∈nodes then n.updates v++[clearMessage msg.bucketKey names] else n.updates v
    fired := n.fired++(namedActions (unskipped msg.activeTriggerNames results)).map
      fun a => ⟨none,a.1,a.2⟩}

/-- A worker consumes its oldest update. -/
def recvClear (bucket : Bucket) (n : BucketNet ι) (w : ι) (msg : UpdateCoordMsg)
    (rest : List UpdateCoordMsg) : BucketNet ι :=
  {n with
    workers := Function.update n.workers w (clearBucket bucket (n.workers w) msg.triggers)
    updates := Function.update n.updates w rest}

/-- A worker notes a scheduled source call at one of its triggers. -/
def noteSource (n : BucketNet ι) (w : ι) (index : ℕ) (call : TriggerFunctionMetadata)
    (session : Session) : BucketNet ι :=
  {n with
    workers := Function.update n.workers w
      ((n.workers w).modify index fun t => t.notifySourceFunc call session)}

/-- The step function of the bucket. -/
def step (bucket : Bucket) (n : BucketNet ι) : Label ι → Option (BucketNet ι)
  | .put w key session now => some (put n w ⟨bucket,key,session⟩ now)
  | .notify w now => match n.notifications w with
    | [] => none
    | msg::rest => some (notify n w msg rest now)
  | .update w => match n.updates w with
    | [] => none
    | msg::rest => some (recvClear bucket n w msg rest)
  | .note w index call session => some (noteSource n w index call session)

variable {n : BucketNet ι}

variable {l : Label ι}

/-- Everything one step can do. -/
theorem step_cases {bucket : Bucket} {m : BucketNet ι} (h : step bucket n l=some m) :
    (∃ w key session now,l=.put w key session now ∧ m=put n w ⟨bucket,key,session⟩ now) ∨
    (∃ w now msg rest,l=.notify w now ∧ n.notifications w=msg::rest ∧ m=notify n w msg rest now) ∨
    (∃ w msg rest,l=.update w ∧ n.updates w=msg::rest ∧ m=recvClear bucket n w msg rest) ∨
    (∃ w index call session,l=.note w index call session ∧
      m=noteSource n w index call session) := by
  cases l with
  | put w key session now => exact Or.inl ⟨w,key,session,now,rfl,(Option.some.inj h).symm⟩
  | notify w now =>
    cases hu : n.notifications w with
    | nil => simp [step,hu] at h
    | cons msg rest =>
      simp only [step,hu,Option.some.injEq] at h
      exact Or.inr (Or.inl ⟨w,now,msg,rest,rfl,hu,h.symm⟩)
  | update w =>
    cases hd : n.updates w with
    | nil => simp [step,hd] at h
    | cons msg rest =>
      simp only [step,hd,Option.some.injEq] at h
      exact Or.inr (Or.inr (Or.inl ⟨w,msg,rest,rfl,hd,h.symm⟩))
  | note w index call session =>
    exact Or.inr (Or.inr (Or.inr ⟨w,index,call,session,rfl,(Option.some.inj h).symm⟩))

/-- The triggers of a name. -/
def named (t : Str) (triggers : List Trigger) : List Trigger :=
  triggers.filter fun T => decide (T.triggerName=t)

/-- The results of the triggers of a name. -/
def resultsOf (t : Str) (results : List (Trigger×List TriggerAction)) :
    List (Trigger×List TriggerAction) := results.filter fun r => decide (r.1.triggerName=t)

/-- Arrivals keep the names apart. -/
theorem resultsOf_arrivals (t : Str) (now : ℤ) (triggers : List Trigger) (bk : BucketKey) :
    resultsOf t (arrivals now triggers bk)=arrivals now (named t triggers) bk := by
  unfold resultsOf arrivals named
  rw [List.filter_map]
  rfl

theorem named_map_fst (t : Str) (results : List (Trigger×List TriggerAction)) :
    named t (results.map Prod.fst)=(resultsOf t results).map Prod.fst := by
  unfold named resultsOf
  rw [List.filter_map]
  rfl

/-- The actions of a name are those of its results. -/
theorem namedActions_filter (t : Str) (results : List (Trigger×List TriggerAction)) :
    (namedActions results).filter (fun a => decide (a.1=t))=namedActions (resultsOf t results) := by
  induction results with
  | nil => rfl
  | cons r results ih =>
    simp only [namedActions,resultsOf,List.flatMap_cons,List.filter_append] at ih ⊢
    rw [ih]
    by_cases hr : r.1.triggerName=t
    · rw [List.filter_cons_of_pos (by simpa using hr),List.flatMap_cons]
      congr 1
      rw [List.filter_eq_self]
      intro a ha
      obtain ⟨action,-,rfl⟩ := List.mem_map.mp ha
      simpa using hr
    · rw [List.filter_cons_of_neg (by simpa using hr)]
      rw [List.filter_eq_nil_iff.mpr,List.nil_append]
      intro a ha
      obtain ⟨action,-,rfl⟩ := List.mem_map.mp ha
      simpa using hr

theorem resultsOf_unskipped (t : Str) (active : List Str)
    (results : List (Trigger×List TriggerAction)) :
    resultsOf t (unskipped active results)=if t∈active then [] else resultsOf t results := by
  unfold resultsOf unskipped
  rw [List.filter_filter]
  split
  · rename_i ht
    rw [List.filter_eq_nil_iff]
    intro r _ hr
    simp only [Bool.and_eq_true,decide_eq_true_eq] at hr
    exact hr.2 (hr.1 ▸ ht)
  · rename_i ht
    refine List.filter_congr fun r _ => ?_
    by_cases hr : r.1.triggerName=t
    · simp [hr,ht]
    · simp [hr]

variable {results : List (Trigger×List TriggerAction)}

/-- The name is among the fired ones if one of its results has an action. -/
theorem mem_firedNames {t : Str} : t∈firedNames results ↔ ∃ r∈resultsOf t results,r.2≠[] := by
  unfold firedNames resultsOf
  simp only [List.mem_map,List.mem_filter,Bool.not_eq_true',List.isEmpty_eq_false_iff,
    decide_eq_true_eq]
  exact ⟨fun ⟨r,⟨hr,ha⟩,ht⟩ => ⟨r,⟨hr,ht⟩,ha⟩,fun ⟨r,⟨hr,ht⟩,ha⟩ => ⟨r,⟨hr,ha⟩,ht⟩⟩

theorem triggeredNames_filter (t : Str) (active : List Str)
    (results : List (Trigger×List TriggerAction)) :
    (triggeredNames active results).filter (fun name => decide (name=t))=
      triggeredNames active (resultsOf t results) := by
  unfold triggeredNames resultsOf
  rw [List.filter_map,List.filter_filter,List.filter_filter]
  congr 1
  refine List.filter_congr fun r _ => ?_
  simp only [Function.comp,Bool.and_comm]

/-- Sessions for which a message clears the triggers of a name. -/
def clearedSessions (bucket : Bucket) (t : Str) (entities : List TriggerEntity) : List Session :=
  (entities.filter fun e => decide (e.bucketName=bucket ∧ e.triggerName=t)).map TriggerEntity.session

/-- A clear message clears a name once for every time it is listed. -/
theorem clearedSessions_clearMessage (t : Str) (bk : BucketKey) (names : List Str) :
    clearedSessions bk.bucket t (clearMessage bk names).triggers=
      (names.filter fun name => decide (name=t)).map fun _ => bk.session := by
  unfold clearedSessions clearMessage
  rw [List.filter_map,List.map_map]
  simp only [Function.comp_def,true_and]

/-- The clears of a name act on its triggers one after the other. -/
theorem named_clearBucket (bucket : Bucket) (t : Str) (triggers : List Trigger)
    (entities : List TriggerEntity) :
    named t (clearBucket bucket triggers entities)=
      (named t triggers).map fun T => (clearedSessions bucket t entities).foldl Trigger.clear T := by
  induction entities generalizing triggers with
  | nil => simp [clearBucket,clearedSessions]
  | cons e entities ih =>
    rw [clearBucket,List.foldl_cons]
    change named t (clearBucket bucket _ entities)=_
    rw [ih]
    by_cases hb : e.bucketName=bucket
    · rw [if_pos hb]
      have hnamed : named t (clearNamed e.triggerName e.session triggers)=
          (named t triggers).map fun T => if T.triggerName=e.triggerName then T.clear e.session else T := by
        unfold named clearNamed
        rw [List.filter_map]
        congr 1
        refine List.filter_congr fun T _ => ?_
        simp only [Function.comp]
        split <;> rfl
      rw [hnamed,List.map_map]
      refine List.map_congr_left fun T hT => ?_
      have hTt : T.triggerName=t := by simpa using (List.mem_filter.mp hT).2
      by_cases he : e.triggerName=t
      · simp [clearedSessions,hb,he,hTt]
      · simp [clearedSessions,hb,he,hTt,Ne.symm he]
    · rw [if_neg hb]
      simp [clearedSessions,hb]

/-- How the triggers of one class represent the states of a collector. -/
structure Abstraction (σ ω α : Type*) where
  /-- The collector. -/
  replica : Replica σ ω α Session
  /-- What it sees of an object. -/
  object : BucketKey → ω
  /-- Triggers that represent a state. -/
  Represents : Trigger → σ → Prop
  /-- Trigger actions that represent an action. -/
  Performs : TriggerAction → α → Prop
  arrive : ∀ {T s} (now : ℤ) (bk : BucketKey),Represents T s →
    Represents (T.actionForNewObject now bk).1 (replica.arrive s (object bk)).1 ∧
      List.Forall₂ Performs (T.actionForNewObject now bk).2 (replica.arrive s (object bk)).2
  clear : ∀ {T s} (session : Session),Represents T s → Represents (T.clear session) (replica.clear s session)
  /-- Re-execution notes do not show. -/
  note : ∀ {T s} (call : TriggerFunctionMetadata) (session : Session),Represents T s →
    Represents (T.notifySourceFunc call session) s
  /-- The collector sees the object's session. -/
  session : ∀ bk,replica.session (object bk)=bk.session
  /-- The class is cleared at the workers. -/
  cleared : ∀ {T s},Represents T s → T.getType≠.byTime

variable {σ ω α : Type*} (A : Abstraction σ ω α) (bucket : Bucket) (t : Str)

/-- The network of the collector that the triggers of one name form. -/
structure Refines (n : BucketNet ι) (m : Net ι σ ω α Session) : Prop where
  /-- Every worker has one trigger of the name. -/
  worker : ∀ w,∃ T,named t (n.workers w)=[T] ∧ A.Represents T (m.leaf w)
  /-- The coordinator has one trigger of the name. -/
  coord : ∃ T,named t n.coord=[T] ∧ A.Represents T m.center
  /-- A report is a notification, marked if it names the trigger. -/
  up : ∀ w,m.up w=(n.notifications w).map
    fun msg => (A.object msg.bucketKey,decide (t∈msg.activeTriggerNames))
  /-- Notifications are about the bucket. -/
  inBucket : ∀ w,∀ msg∈n.notifications w,msg.bucketKey.bucket=bucket
  /-- The clears under way are those of the name. -/
  down : ∀ w,m.down w=(n.updates w).flatMap fun msg => clearedSessions bucket t msg.triggers
  /-- The center knows the workers that have reported. -/
  known : m.known=n.nodes
  /-- The fired actions of the name. -/
  fired : List.Forall₂ (fun f a => f.node=a.1 ∧ A.Performs f.action a.2)
    (n.fired.filter fun f => decide (f.trigger=t)) m.fired
  /-- The reported objects are the put ones. -/
  puts : m.sent.map (fun e => (e.1,e.2.1))=n.puts.map fun p => (p.1,A.object p.2)

variable {A bucket t}

variable {s : σ}

variable {workers : ι → List Trigger} {coord : List Trigger}

omit [DecidableEq ι] in
/-- The bucket starts as the network does. -/
theorem refines_start (hw : ∀ w,∃ T,named t (workers w)=[T] ∧ A.Represents T s)
    (hc : ∃ T,named t coord=[T] ∧ A.Represents T s) :
    Refines A bucket t (BucketNet.start workers coord) (Net.start s) :=
  ⟨hw,hc,fun _ => rfl,fun _ _ h => absurd h List.not_mem_nil,fun _ => rfl,rfl,List.Forall₂.nil,rfl⟩

variable {triggers : List Trigger} {T : Trigger}

/-- The only trigger of the name determines what an arrival does for it. -/
theorem arrive_named (h : named t triggers=[T]) (now : ℤ) (bk : BucketKey) :
    resultsOf t (arrivals now triggers bk)=[T.actionForNewObject now bk] := by
  rw [resultsOf_arrivals,h]
  rfl

theorem name_of_named (h : named t triggers=[T]) : T.triggerName=t := by
  have hm : T∈named t triggers := h ▸ List.mem_cons_self
  simpa using (List.mem_filter.mp hm).2

variable {node : Option ι}

omit [DecidableEq ι] in
/-- Fired actions of one party that carry the name. -/
theorem filter_fired_of :
    ((namedActions results).map fun a => (⟨node,a.1,a.2⟩ : Fired ι)).filter
      (fun f => decide (f.trigger=t))=
    (namedActions (resultsOf t results)).map fun a => ⟨node,a.1,a.2⟩ := by
  rw [←namedActions_filter,List.filter_map]
  rfl

omit [DecidableEq ι] in
/-- Representing actions keep their party. -/
theorem forall₂_fired {r : Trigger×List TriggerAction} {l : List α}
    (h : List.Forall₂ A.Performs r.2 l) :
    List.Forall₂ (fun (f : Fired ι) a => f.node=a.1 ∧ A.Performs f.action a.2)
      ((namedActions [r]).map fun a => ⟨node,a.1,a.2⟩) (l.map fun a => (node,a)) := by
  simp only [namedActions,List.flatMap_cons,List.flatMap_nil,List.append_nil,List.map_map]
  rw [List.forall₂_map_left_iff,List.forall₂_map_right_iff]
  exact h.imp fun _ _ hp => ⟨rfl,hp⟩

theorem forall₂_isEmpty {β γ : Type*} {p : β → γ → Prop} {l : List β} {l' : List γ}
    (h : List.Forall₂ p l l') : l.isEmpty=l'.isEmpty := by
  cases h <;> rfl

variable {m : Net ι σ ω α Session}

/-- A put of the bucket is a put of the network. -/
theorem refines_put (h : Refines A bucket t n m) (w : ι) (key : Key) (session : Session) (now : ℤ) :
    Refines A bucket t (put n w ⟨bucket,key,session⟩ now)
      (A.replica.put m w (A.object ⟨bucket,key,session⟩)) := by
  obtain ⟨T,hT,hrep⟩ := h.worker w
  generalize hbk : (⟨bucket,key,session⟩ : BucketKey)=bk
  obtain ⟨hst,hact⟩ := A.arrive now bk hrep
  have hres := arrive_named hT now bk
  have hmark : decide (t∈firedNames (arrivals now (n.workers w) bk))=
      !(A.replica.arrive (m.leaf w) (A.object bk)).2.isEmpty := by
    simp only [←forall₂_isEmpty hact,mem_firedNames,hres,List.mem_singleton,exists_eq_left]
    cases (T.actionForNewObject now bk).2 <;> rfl
  refine ⟨?_,h.coord,?_,?_,h.down,h.known,?_,?_⟩
  · intro v
    by_cases hv : v=w
    · subst hv
      refine ⟨(T.actionForNewObject now bk).1,?_,?_⟩
      · simp only [put,Function.update_self,named_map_fst,hres,List.map_cons,List.map_nil]
      · simpa only [Replica.put,Function.update_self] using hst
    · simpa only [put,Replica.put,Function.update_of_ne hv] using h.worker v
  · intro v
    by_cases hv : v=w
    · subst hv
      simp only [put,Replica.put,Function.update_self,List.map_append,h.up,List.map_cons,
        List.map_nil,hmark]
    · simpa only [put,Replica.put,Function.update_of_ne hv] using h.up v
  · intro v msg hm
    by_cases hv : v=w
    · subst hv
      simp only [put,Function.update_self,List.mem_append,List.mem_singleton] at hm
      rcases hm with hm|rfl
      · exact h.inBucket v msg hm
      · exact hbk ▸ rfl
    · simp only [put,Function.update_of_ne hv] at hm
      exact h.inBucket v msg hm
  · simp only [put,Replica.put,List.filter_append,filter_fired_of,hres]
    exact List.rel_append h.fired (forall₂_fired hact)
  · simp only [put,Replica.put,List.map_append,h.puts,List.map_cons,List.map_nil]

/-- What the coordinator does for the name on a notification. -/
theorem triggeredNames_single {active : List Str} {actions : List TriggerAction}
    (hT : T.triggerName=t) (hty : T.getType≠.byTime) :
    triggeredNames active [(T,actions)]=if t∈active ∨ actions=[] then [] else [t] := by
  by_cases ht : t∈active
  · simp [triggeredNames,hT,ht]
  · cases actions <;> simp [triggeredNames,hT,ht,hty]

variable {w : ι}

/-- A consumed notification is a delivery of the network. -/
theorem refines_notify (h : Refines A bucket t n m) {msg : Notification} {rest : List Notification}
    (hu : n.notifications w=msg::rest) (now : ℤ) :
    Refines A bucket t (notify n w msg rest now)
      (A.replica.deliver m w (A.object msg.bucketKey) (decide (t∈msg.activeTriggerNames))
        (rest.map fun msg => (A.object msg.bucketKey,decide (t∈msg.activeTriggerNames)))) := by
  obtain ⟨T,hT,hrep⟩ := h.coord
  obtain ⟨hst,hact⟩ := A.arrive now msg.bucketKey hrep
  have hres := arrive_named hT now msg.bucketKey
  have hbucket : msg.bucketKey.bucket=bucket := h.inBucket w msg (hu ▸ List.mem_cons_self)
  refine ⟨h.worker,⟨(T.actionForNewObject now msg.bucketKey).1,?_,hst⟩,?_,?_,?_,?_,?_,h.puts⟩
  · simp only [notify,named_map_fst,hres,List.map_cons,List.map_nil]
  · intro v
    by_cases hv : v=w
    · subst hv
      simp only [notify,Replica.deliver,Function.update_self]
    · simpa only [notify,Replica.deliver,Function.update_of_ne hv] using h.up v
  · intro v x hx
    by_cases hv : v=w
    · subst hv
      simp only [notify,Function.update_self] at hx
      exact h.inBucket v x (hu ▸ List.mem_cons_of_mem _ hx)
    · simp only [notify,Function.update_of_ne hv] at hx
      exact h.inBucket v x hx
  · intro v
    have hname : T.triggerName=t := name_of_named hT
    replace hname : (T.actionForNewObject now msg.bucketKey).1.triggerName=t := hname
    have hcl := clearedSessions_clearMessage t msg.bucketKey
      (triggeredNames msg.activeTriggerNames (arrivals now n.coord msg.bucketKey))
    rw [triggeredNames_filter,hres,triggeredNames_single hname (A.cleared hst),hbucket] at hcl
    simp only [notify,Replica.deliver,h.known]
    by_cases hq : t∈msg.activeTriggerNames ∨ (T.actionForNewObject now msg.bucketKey).2=[]
    · have hcond : (decide (t∈msg.activeTriggerNames) ||
          (A.replica.arrive m.center (A.object msg.bucketKey)).2.isEmpty)=true := by
        rw [←forall₂_isEmpty hact]
        simpa using hq
      rw [if_pos hq] at hcl
      rw [if_pos hcond,h.down]
      split
      · rfl
      · beta_reduce
        split
        · rw [List.flatMap_append,List.flatMap_singleton,hcl,List.map_nil,List.append_nil]
        · rfl
    · have hcond : ¬(decide (t∈msg.activeTriggerNames) ||
          (A.replica.arrive m.center (A.object msg.bucketKey)).2.isEmpty)=true := by
        rw [←forall₂_isEmpty hact]
        simpa using hq
      have hne : triggeredNames msg.activeTriggerNames (arrivals now n.coord msg.bucketKey)≠[] := by
        intro hnil
        have hf := triggeredNames_filter t msg.activeTriggerNames (arrivals now n.coord msg.bucketKey)
        rw [hres,triggeredNames_single hname (A.cleared hst),if_neg hq,hnil] at hf
        cases hf
      rw [if_neg hq] at hcl
      rw [if_neg hcond,if_neg hne]
      simp only [h.down]
      split
      · rw [List.flatMap_append,List.flatMap_singleton,hcl,A.session]
        rfl
      · rfl
  · simp only [notify,Replica.deliver,h.known]
  · simp only [notify,Replica.deliver,List.filter_append,filter_fired_of,resultsOf_unskipped,hres]
    by_cases ha : t∈msg.activeTriggerNames
    · simp only [ha,decide_true,if_true]
      simpa [namedActions] using h.fired
    · simp only [ha,decide_false,Bool.false_eq_true,if_false]
      exact List.rel_append h.fired (forall₂_fired hact)

/-- Consuming a list of clears that stand first on a link. -/
theorem run_clears (R : Replica σ ω α Session) {sessions rest : List Session}
    (hd : m.down w=sessions++rest) :
    ∃ m',run R.step m (sessions.map fun _ => Event.clear w)=some m' ∧
      m'={m with
        leaf := Function.update m.leaf w (sessions.foldl R.clear (m.leaf w))
        down := Function.update m.down w rest} := by
  induction sessions generalizing m with
  | nil =>
    refine ⟨m,rfl,?_⟩
    rw [List.nil_append] at hd
    simp [←hd]
  | cons s sessions ih =>
    have hstep : R.step m (.clear w)=some (R.recvClear m w s (sessions++rest)) := by
      simp only [Replica.step,hd,List.cons_append]
    obtain ⟨m',hrun,rfl⟩ := ih (m:=R.recvClear m w s (sessions++rest)) (by simp [Replica.recvClear])
    refine ⟨_,run_cons_eq_some.mpr ⟨_,hstep,hrun⟩,?_⟩
    simp [Replica.recvClear]

theorem represents_clears (h : A.Represents T s) (sessions : List Session) :
    A.Represents (sessions.foldl Trigger.clear T) (sessions.foldl A.replica.clear s) := by
  induction sessions generalizing T s with
  | nil => exact h
  | cons session sessions ih => exact ih (A.clear session h)

/-- A consumed update is a sequence of clears of the network; it changes
nothing but the worker's replica and its link. -/
theorem refines_update (h : Refines A bucket t n m) {msg : UpdateCoordMsg}
    {rest : List UpdateCoordMsg} (hd : n.updates w=msg::rest) :
    ∃ m',run A.replica.step m ((clearedSessions bucket t msg.triggers).map fun _ => Event.clear w)=
      some m' ∧ m'={m with leaf := m'.leaf,down := m'.down} ∧
        Refines A bucket t (recvClear bucket n w msg rest) m' := by
  have hdown := h.down w
  rw [hd,List.flatMap_cons] at hdown
  obtain ⟨m',hrun,rfl⟩ := run_clears A.replica hdown
  refine ⟨_,hrun,rfl,?_,h.coord,h.up,h.inBucket,?_,h.known,h.fired,h.puts⟩
  · intro v
    by_cases hv : v=w
    · subst hv
      obtain ⟨T,hT,hrep⟩ := h.worker v
      refine ⟨(clearedSessions bucket t msg.triggers).foldl Trigger.clear T,?_,?_⟩
      · simp only [recvClear,Function.update_self,named_clearBucket,hT,List.map_cons,List.map_nil]
      · simpa only [Function.update_self] using represents_clears hrep _
    · simpa only [recvClear,Function.update_of_ne hv] using h.worker v
  · intro v
    by_cases hv : v=w
    · subst hv
      simp only [recvClear,Function.update_self]
    · simpa only [recvClear,Function.update_of_ne hv] using h.down v

/-- Changing one trigger of a list in a way that keeps names changes at
most the trigger of the name. -/
theorem named_modify (f : Trigger → Trigger) (index : ℕ) (hf : ∀ T,(f T).triggerName=T.triggerName)
    (h : named t triggers=[T]) :
    named t (triggers.modify index f)=[T] ∨ named t (triggers.modify index f)=[f T] := by
  induction triggers generalizing index with
  | nil => cases h
  | cons S triggers ih =>
    by_cases hS : S.triggerName=t
    · have hnil : S=T ∧ named t triggers=[] := by
        rw [named,List.filter_cons_of_pos (by simpa using hS)] at h
        exact ⟨(List.cons.inj h).1,(List.cons.inj h).2⟩
      obtain ⟨rfl,hnil⟩ := hnil
      cases index with
      | zero =>
        refine Or.inr ?_
        rw [List.modify_zero_cons,named,List.filter_cons_of_pos (by simpa [hf] using hS)]
        exact congrArg _ hnil
      | succ index =>
        refine Or.inl ?_
        rw [List.modify_succ_cons,named,List.filter_cons_of_pos (by simpa using hS)]
        congr 1
        rw [named,List.filter_eq_nil_iff] at hnil
        rw [List.filter_eq_nil_iff]
        intro U hU
        obtain ⟨i,hi,rfl⟩ := List.mem_iff_getElem.mp hU
        rw [List.length_modify] at hi
        have hname : ((triggers.modify index f)[i]).triggerName=triggers[i].triggerName := by
          rw [List.getElem_modify]
          split
          · exact hf _
          · rfl
        rw [hname]
        exact hnil _ (List.getElem_mem hi)
    · rw [named,List.filter_cons_of_neg (by simpa using hS)] at h
      cases index with
      | zero =>
        refine Or.inl ?_
        rw [List.modify_zero_cons,named,List.filter_cons_of_neg (by simpa [hf] using hS)]
        exact h
      | succ index =>
        rw [List.modify_succ_cons,named,List.filter_cons_of_neg (by simpa using hS)]
        exact ih index h

/-- A re-execution note does not show in the network. -/
theorem refines_note (h : Refines A bucket t n m) (w : ι) (index : ℕ)
    (call : TriggerFunctionMetadata) (session : Session) :
    Refines A bucket t (noteSource n w index call session) m := by
  refine ⟨?_,h.coord,h.up,h.inBucket,h.down,h.known,h.fired,h.puts⟩
  intro v
  by_cases hv : v=w
  · subst hv
    obtain ⟨T,hT,hrep⟩ := h.worker v
    simp only [noteSource,Function.update_self]
    rcases named_modify (fun T => T.notifySourceFunc call session) index (fun _ => rfl) hT with hm|hm
    · exact ⟨T,hm,hrep⟩
    · exact ⟨_,hm,A.note call session hrep⟩
  · simpa only [noteSource,Function.update_of_ne hv] using h.worker v

/-- Every step of the bucket is a run of the network. -/
theorem refines_step {n' : BucketNet ι} (h : Refines A bucket t n m) (hs : step bucket n l=some n') :
    ∃ es m',run A.replica.step m es=some m' ∧ Refines A bucket t n' m' := by
  obtain ⟨w,key,session,now,-,rfl⟩|⟨w,now,msg,rest,-,hu,rfl⟩|⟨w,msg,rest,-,hd,rfl⟩|
    ⟨w,index,call,session,-,rfl⟩ := step_cases hs
  · exact ⟨[.put w _],_,rfl,refines_put h w key session now⟩
  · refine ⟨[.deliver w],_,?_,refines_notify h hu now⟩
    simp only [run,Replica.step,h.up,hu,List.map_cons,Option.bind_some]
  · obtain ⟨m',hrun,-,hm'⟩ := refines_update h hd
    exact ⟨_,m',hrun,hm'⟩
  · exact ⟨[],m,rfl,refines_note h w index call session⟩

/-- Every run of the bucket is a run of the network. -/
theorem refines_run {l : List (Label ι)} (hw : ∀ w,∃ T,named t (workers w)=[T] ∧ A.Represents T s)
    (hc : ∃ T,named t coord=[T] ∧ A.Represents T s)
    (hr : run (step bucket) (BucketNet.start workers coord) l=some n) :
    ∃ es m,run A.replica.step (Net.start s) es=some m ∧ Refines A bucket t n m :=
  run_simulation (fun _ _ _ _ => refines_step) (refines_start hw hc) hr

end Pheromone.BucketNetwork
