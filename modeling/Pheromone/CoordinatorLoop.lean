import Pheromone.EventHistories
import Pheromone.FuncCallHandler
import Pheromone.CoordinatorOps
import Pheromone.CoordinatorRefinement

/-!
# The coordinator's loop

A coordinator thread takes one message after the other and keeps a history of
what was received and sent. Where a handler leaves defined behaviour the run
ends.
-/

namespace Pheromone.CoordinatorLoop

open UnorderedContainers CommonNames TriggerPrimitives OperationMessages CoordinatorNotify
open GuardedRuns DispatchCapacity CoordinatorOps FuncCallHandler CoordinatorRefinement

/-- Worker to coordinator: where are these objects? -/
structure KeyQueryRequest where
  /-- Where the worker waits. -/
  responseAddress : Address
  /-- The objects. -/
  addresses : List BucketKeyAddress
  /-- Identifier chosen by the worker. -/
  requestId : Str
  deriving DecidableEq

/-- Answer to a query. -/
structure KeyQueryResponse where
  /-- The objects up to the first unknown one, with their data servers. -/
  addresses : List BucketKeyAddress
  /-- The first error. -/
  error : KVSError
  /-- Identifier of the query. -/
  responseId : Str
  deriving DecidableEq

/-- Outcome of looking up an object. -/
structure GetAddressResult where
  /-- Success, or why there is no address. -/
  error : KVSError
  /-- The data servers. -/
  addr : USet Address

/-- Look up the data servers of a bucket and key. -/
def getAddress (bk : BucketKey) (m : UMap Bucket (UMap Key (USet Address))) : GetAddressResult :=
  match (m.find? bk.bucket).bind fun keys => keys.find? bk.key with
  | some addr => ⟨.success,addr⟩
  | none => ⟨.keyNe,∅⟩

/-- Look up objects until one is missing. -/
def queryResults (m : UMap Bucket (UMap Key (USet Address))) :
    List BucketKeyAddress → List (BucketKey×GetAddressResult)×KVSError
  | [] => ([],.success)
  | address::rest =>
    let bk := getBucketKeyFromAddr address
    if m.contains bk.bucket then
      let result := getAddress bk m
      if result.error=.success then
        let tail := queryResults m rest
        ((bk,result)::tail.1,tail.2)
      else ([(bk,result)],result.error)
    else ([(bk,⟨.bucketNe,∅⟩)],.bucketNe)

/-- The handler of a query: the answer names data servers only if every
object was found. -/
def queryHandler (m : UMap Bucket (UMap Key (USet Address))) (req : KeyQueryRequest) :
    KeyQueryResponse :=
  let results := queryResults m req.addresses
  ⟨results.1.map fun r => ⟨r.1.bucket,r.1.key,r.1.session,
    if results.2=.success then r.2.addr.elems else [],[]⟩,results.2,req.requestId⟩

/-- Worker to coordinator: the number of its free executors. -/
structure UpdateStatusMessage where
  /-- Address of the worker. -/
  ip : Address
  /-- Its free executors. -/
  availExecutors : UInt32
  deriving DecidableEq

/-- A report creates or overwrites the worker's entry. -/
def updateStatus (st : CoordState) (msg : UpdateStatusMessage) : CoordState :=
  {st with nodeStatusMap := st.nodeStatusMap.set msg.ip ⟨msg.availExecutors.toInt32.toInt⟩}

/-- The messages of the sockets, with the clock readings of their handlers. -/
inductive CoordIn where
  | notify (req : KeyNotifyRequest) (now : ℤ)
  | query (req : KeyQueryRequest)
  | bucket (req : BucketOperationRequest)
  | trigger (req : TriggerOperationRequest) (now : ℤ)
  | status (msg : UpdateStatusMessage)
  | register (reg : AppRegistration) (now : ℤ)
  | call (msg : FunctionCall)
  deriving DecidableEq

/-- What happens at a coordinator. -/
inductive CoordEvent where
  | received (i : CoordIn)
  | sent (o : CoordOut)
  | answered (address : Address) (msg : KeyQueryResponse)
  deriving DecidableEq

/-- The tables of a coordinator and its history, oldest event first. -/
structure CoordRun where
  tables : CoordState
  /-- Everything received and sent. -/
  history : List CoordEvent
  deriving DecidableEq

/-- A coordinator before its first message. -/
def start (seed : UInt32) : CoordRun := ⟨⟨∅,∅,∅,∅,∅,∅,∅,seed⟩,[]⟩

/-- The handler of every message. -/
def handle (cfg : CoordConfig) (self : CoordIdentity) (st : CoordState) :
    CoordIn → Option (CoordState×List CoordEvent)
  | .notify req now => (notifyHandler cfg now st req).map fun r => (r.1,r.2.map .sent)
  | .query req => some (st,[.answered req.responseAddress (queryHandler st.bucketKeyAddressMap req)])
  | .bucket req => some ((bucketOpHandler st req).1,(bucketOpHandler st req).2.map .sent)
  | .trigger req now => (triggerOpHandler self now st req).map fun r => (r.1,r.2.map .sent)
  | .status msg => some (updateStatus st msg,[])
  | .register reg now => (appRegisterHandler self now st reg).map fun r => (r.1,r.2.map .sent)
  | .call msg => (funcCallHandler cfg st msg).map fun r => (r.1,r.2.map .sent)

/-- One turn of the loop. -/
def step (cfg : CoordConfig) (self : CoordIdentity) (r : CoordRun) (i : CoordIn) : Option CoordRun :=
  (handle cfg self r.tables i).map fun p => ⟨p.1,r.history++.received i::p.2⟩

variable {cfg : CoordConfig} {self : CoordIdentity}

theorem step_eq_some {r r' : CoordRun} {i : CoordIn} (h : step cfg self r i=some r') :
    ∃ st events,handle cfg self r.tables i=some (st,events) ∧
      r'=⟨st,r.history++.received i::events⟩ := by
  obtain ⟨p,hp,he⟩ := Option.map_eq_some_iff.mp h
  exact ⟨p.1,p.2,hp,he.symm⟩

variable {st : CoordState}

/-- What the handlers with messages only return. -/
theorem map_sent_eq_some {x : Option (CoordState×List CoordOut)} {events : List CoordEvent}
    (h : x.map (fun r => (r.1,r.2.map CoordEvent.sent))=some (st,events)) :
    ∃ out,x=some (st,out) ∧ events=out.map .sent := by
  obtain ⟨r,hr,he⟩ := Option.map_eq_some_iff.mp h
  cases he
  exact ⟨r.2,hr,rfl⟩

section Rules

variable {now : ℤ} {req : KeyNotifyRequest} {bk : BucketKey} {inv : CoordState → Prop}

variable {good : Dispatch → Prop} {st st' : CoordState}

/-- What routing one action keeps and gives, routing the actions of all
triggers that did not fire on the worker does. -/
theorem dispatchResults_rule {results : List (Trigger×List TriggerAction)}
    (haction : ∀ r∈results,∀ action∈r.2,∀ st st' d,inv st →
      dispatchAction cfg req bk r.1 st action=some (st',d) → inv st' ∧ good d) {ds : List Dispatch}
    (hs : inv st) (h : dispatchResults cfg req bk results st=some (st',ds)) :
    inv st' ∧ ∀ d∈ds,good d := by
  have hchain := dispatchResults_chain (T:=fun st l ds st' => (∀ p∈l,∀ st st' d,inv st →
      dispatchAction cfg req bk p.1 st p.2=some (st',d) → inv st' ∧ good d) →
    inv st → inv st' ∧ ∀ d∈ds,good d) (fun _ _ hs => ⟨hs,fun _ hd => absurd hd List.not_mem_nil⟩)
    (fun _ _ _ _ _ _ _ hd he hl hs => ?_) (fun _ _ _ _ _ hd hl hs => ?_) h
  · refine hchain (fun p hp => ?_) hs
    obtain ⟨r,hr,hp⟩ := List.mem_flatMap.mp hp
    obtain ⟨action,ha,rfl⟩ := List.mem_map.mp hp
    split at ha
    · cases ha
    · exact haction r hr action ha
  · obtain ⟨hl,hl'⟩ := List.forall_mem_append.mp hl
    obtain ⟨hs1,hd1⟩ := hd hl hs
    obtain ⟨hs2,hd2⟩ := he hl' hs1
    exact ⟨hs2,List.forall_mem_append.mpr ⟨hd1,hd2⟩⟩
  · obtain ⟨hs1,hgood⟩ := hl _ List.mem_cons_self _ _ _ hs hd
    exact ⟨hs1,List.forall_mem_singleton.mpr hgood⟩

/-- The triggers of the bucket after the arrival of an object. -/
def advanced (now : ℤ) (bk : BucketKey) (st : CoordState) : CoordState :=
  {st with
    bucketTriggersMap := st.bucketTriggersMap.set bk.bucket
      ((arrivals now (st.bucketTriggersMap.getD bk.bucket []) bk).map Prod.fst)}

/-- Advancing and routing the triggers of a bucket sends dispatches and updates. -/
theorem notifyTriggers_rule {st st' : CoordState} {out : List CoordOut}
    (hs : inv (advanced now bk st))
    (haction : ∀ r∈arrivals now (st.bucketTriggersMap.getD bk.bucket []) bk,∀ action∈r.2,
      ∀ st st' d,inv st → dispatchAction cfg req bk r.1 st action=some (st',d) → inv st' ∧ good d)
    (h : notifyTriggers cfg now req bk st=some (st',out)) :
    inv st' ∧ ∀ o∈out,(∃ d,o=.dispatch d ∧ good d) ∨ ∃ node msg,o=.update node msg ∧ msg.msgType=1 := by
  simp only [notifyTriggers,Option.bind_eq_bind,Option.bind_eq_some_iff] at h
  obtain ⟨⟨st1,ds⟩,h1,h⟩ := h
  cases h
  obtain ⟨hs1,hgood⟩ := dispatchResults_rule haction hs h1
  refine ⟨hs1,fun o ho => ?_⟩
  rcases List.mem_append.mp ho with ho|ho
  · obtain ⟨d,hd,rfl⟩ := List.mem_map.mp ho
    exact Or.inl ⟨d,rfl,hgood d hd⟩
  · right
    split at ho
    · cases ho
    · obtain ⟨ip,-,rfl⟩ := List.mem_map.mp ho
      exact ⟨ip,_,rfl,rfl⟩

/-- What recording an object and advancing its triggers keeps and gives, the
handler does. -/
theorem notifyHandler_rule {good : CoordOut → Prop}
    (hobject : ∀ a∈req.addresses,∀ st st₁ st₂ out,inv st → registerObject st a=some (some st₁) →
      notifyTriggers cfg now req (getBucketKeyFromAddr a) st₁=some (st₂,out) →
      inv st₂ ∧ ∀ o∈out,good o)
    {st st' : CoordState} {out : List CoordOut} (hs : inv st)
    (h : notifyHandler cfg now st req=some (st',out)) : inv st' ∧ ∀ o∈out,good o := by
  have hall : ∀ addresses,(∀ a∈addresses,a∈req.addresses) → ∀ st out,inv st →
      notifyAddresses cfg now req addresses st=some (st',out) → inv st' ∧ ∀ o∈out,good o := by
    intro addresses
    induction addresses with
    | nil =>
      intro _ st out hs h
      cases h
      exact ⟨hs,fun o ho => absurd ho List.not_mem_nil⟩
    | cons a addresses ih =>
      intro hsub st out hs h
      simp only [notifyAddresses,Option.bind_eq_bind,Option.bind_eq_some_iff] at h
      obtain ⟨registered,hr,h⟩ := h
      cases registered with
      | none =>
        cases h
        exact ⟨hs,fun o ho => absurd ho List.not_mem_nil⟩
      | some st1 =>
        obtain ⟨⟨st2,out1⟩,h1,h⟩ := Option.bind_eq_some_iff.mp h
        obtain ⟨⟨st3,out2⟩,h2,h⟩ := Option.bind_eq_some_iff.mp h
        cases h
        obtain ⟨hs1,ho1⟩ := hobject a (hsub a List.mem_cons_self) st st1 st2 out1 hs hr h1
        obtain ⟨hs2,ho2⟩ := ih (fun b hb => hsub b (List.mem_cons_of_mem _ hb)) st2 out2 hs1 h2
        exact ⟨hs2,List.forall_mem_append.mpr ⟨ho1,ho2⟩⟩
  exact hall req.addresses (fun a ha => ha) st out hs h

end Rules

/-- Objects, workers and seed are as before. -/
structure Undisturbed (st st' : CoordState) : Prop where
  addresses : st'.bucketKeyAddressMap=st.bucketKeyAddressMap
  values : st'.bucketKeyValMap=st.bucketKeyValMap
  nodes : st'.nodeStatusMap=st.nodeStatusMap

theorem Undisturbed.refl (st : CoordState) : Undisturbed st st := ⟨rfl,rfl,rfl⟩

variable {st' : CoordState}

theorem Undisturbed.trans {st'' : CoordState} (h : Undisturbed st st') (h' : Undisturbed st' st'') :
    Undisturbed st st'' :=
  ⟨h'.addresses.trans h.addresses,h'.values.trans h.values,h'.nodes.trans h.nodes⟩

theorem undisturbed_bucketOp (st : CoordState) (req : BucketOperationRequest) :
    Undisturbed st (bucketOpHandler st req).1 := by
  unfold bucketOpHandler
  dsimp only
  split
  · split <;> exact ⟨rfl,rfl,rfl⟩
  · split <;> exact ⟨rfl,rfl,rfl⟩
  · exact Undisturbed.refl st

variable {now : ℤ} {req : TriggerOperationRequest}

theorem undisturbed_triggerOp {r : TriggerOperation} (h : triggerOp now st req=some r) :
    Undisturbed st r.st := by
  unfold triggerOp at h
  split at h
  · split at h
    · obtain ⟨t,-,h⟩ := Option.bind_eq_some_iff.mp h
      cases h
      exact ⟨rfl,rfl,rfl⟩
    · cases h
      exact Undisturbed.refl st
  · split at h
    · cases h
      unfold deleteTriggerOp
      dsimp only
      split <;> exact ⟨rfl,rfl,rfl⟩
    · cases h
      exact Undisturbed.refl st
  · cases h
    exact Undisturbed.refl st

variable {out : List CoordOut}

theorem triggerOpHandler_eq_some (h : triggerOpHandler self now st req=some (st',out)) :
    ∃ r,triggerOp now st req=some r ∧ st'=r.st ∧ Undisturbed st st' ∧
      out=.triggerResponse req.responseAddress
          ⟨req.bucketName,req.triggerName,req.requestId,r.error⟩::
        broadcast r.st ⟨self.privateIp,self.threadId,req.appName,[],[],r.triggers,r.msgType⟩ := by
  obtain ⟨r,hr,h⟩ := Option.bind_eq_some_iff.mp h
  cases h
  exact ⟨r,hr,rfl,undisturbed_triggerOp hr,rfl⟩

variable {dep : DataDependency}

theorem undisturbed_registerDependency {app : Str}
    {r r' : CoordState×List DataDependency×List TriggerEntity}
    (h : registerDependency app now r dep=some r') : Undisturbed r.1 r'.1 := by
  unfold registerDependency at h
  split at h
  · cases h
    exact Undisturbed.refl _
  · obtain ⟨tgt,-,h⟩ := Option.bind_eq_some_iff.mp h
    obtain ⟨t,-,h⟩ := Option.bind_eq_some_iff.mp h
    cases h
    cases t <;> exact ⟨rfl,rfl,rfl⟩

/-- A registration is broadcast to the known workers. -/
theorem appRegisterHandler_eq_some {reg : AppRegistration}
    (h : appRegisterHandler self now st reg=some (st',out)) :
    Undisturbed st st' ∧ ∃ msg,out=broadcast st msg := by
  obtain ⟨r,hr,h⟩ := Option.bind_eq_some_iff.mp h
  cases h
  have hkept : Undisturbed st r.1 := by
    have hstep : ∀ (q q' : CoordState×List DataDependency×List TriggerEntity),∀ dep∈reg.dependencies,
        Undisturbed st q.1 → registerDependency reg.appName now q dep=some q' →
          Undisturbed st q'.1 :=
      fun q q' dep _ hq hd => hq.trans (undisturbed_registerDependency hd)
    exact foldlM_invariant hstep (Undisturbed.refl st) hr
  refine ⟨hkept,⟨self.privateIp,self.threadId,reg.appName,reg.functions,r.2.1,r.2.2,0⟩,?_⟩
  unfold broadcast
  rw [hkept.nodes]

/-- A trigger that holds nothing yet. -/
structure Fresh (s : TriggerState) : Prop where
  sound : Sound s
  empty : ∀ o,¬Holds s o

theorem Fresh.contents {s : TriggerState} (h : Fresh s) (known : Session×Key → Prop) :
    Contents known s := ⟨h.sound,fun o ho => absurd ho (h.empty o)⟩

theorem fresh_bySet (keys : USet Key) : Fresh (.bySet ⟨keys,∅,∅,∅⟩) :=
  ⟨fun _ _ hk => absurd hk (USet.not_mem_empty _),fun _ ho => absurd ho (USet.not_mem_empty _)⟩

theorem fresh_redundant (k n : UInt32) : Fresh (.redundant ⟨k,n,0,[]⟩) :=
  ⟨trivial,fun _ ho => absurd ho List.not_mem_nil⟩

theorem fresh_byTime (window : UInt32) (now : ℤ) : Fresh (.byTime ⟨window,[],now⟩) :=
  ⟨trivial,fun _ ho => absurd ho List.not_mem_nil⟩

variable {t : Trigger}

theorem fresh_genTriggerPointer {type : PrimitiveType} {name : Str} {p : PrimitiveFields}
    (h : genTriggerPointer type name p now=some t) : Fresh t.state := by
  obtain ⟨s,hs,rfl⟩ := Option.map_eq_some_iff.mp h
  cases type <;> cases hs
  · exact ⟨trivial,fun _ ho => ho⟩
  · exact ⟨trivial,fun _ ho => ho⟩
  · exact ⟨trivial,fun _ ho => absurd ho List.not_mem_nil⟩
  · exact fresh_bySet _
  · exact ⟨trivial,fun _ ⟨_,he,_⟩ => absurd he List.not_mem_nil⟩
  · exact fresh_redundant _ _
  · exact fresh_byTime _ _

theorem fresh_dependencyTrigger {tgt : Str} (h : dependencyTrigger now tgt dep=some (some t)) :
    Fresh t.state := by
  unfold dependencyTrigger at h
  split at h
  · cases h
    exact fresh_bySet _
  · obtain ⟨_,_,h⟩ := Option.bind_eq_some_iff.mp h
    obtain ⟨_,_,h⟩ := Option.bind_eq_some_iff.mp h
    obtain ⟨_,_,h⟩ := Option.bind_eq_some_iff.mp h
    obtain ⟨_,_,h⟩ := Option.bind_eq_some_iff.mp h
    cases h
    exact fresh_redundant _ _
  · obtain ⟨_,_,h⟩ := Option.bind_eq_some_iff.mp h
    cases h
    exact fresh_byTime _ _
  · cases h

/-- Every trigger was there before or is fresh. -/
def AddsFresh (st st' : CoordState) : Prop :=
  ∀ bucket,∀ t∈st'.bucketTriggersMap.getD bucket [],
    t∈st.bucketTriggersMap.getD bucket [] ∨ Fresh t.state

theorem AddsFresh.trans {st'' : CoordState} (h : AddsFresh st st') (h' : AddsFresh st' st'') :
    AddsFresh st st'' := by
  intro bucket t ht
  rcases h' bucket t ht with ht|hfresh
  · exact h bucket t ht
  · exact Or.inr hfresh

theorem addsFresh_of_eq (h : st'.bucketTriggersMap=st.bucketTriggersMap) : AddsFresh st st' := by
  intro bucket t ht
  rw [h] at ht
  exact Or.inl ht

theorem addsFresh_pushTrigger (bucket : Bucket) (ht : Fresh t.state) (st : CoordState) :
    AddsFresh st (pushTrigger bucket t st) := by
  intro b u hu
  have hset := UMap.getD_set st.bucketTriggersMap bucket b
    (st.bucketTriggersMap.getD bucket []++[t]) []
  rw [pushTrigger,hset] at hu
  split at hu
  · rename_i hb
    rcases List.mem_append.mp hu with hu|hu
    · rw [hb]
      exact Or.inl hu
    · rw [List.mem_singleton.mp hu]
      exact Or.inr ht
  · exact Or.inl hu

theorem addsFresh_bucketOp (st : CoordState) (req : BucketOperationRequest) :
    AddsFresh st (bucketOpHandler st req).1 := by
  unfold bucketOpHandler
  dsimp only
  split
  · split <;> exact addsFresh_of_eq rfl
  · split
    · intro b t ht
      have herase := UMap.getD_erase st.bucketTriggersMap req.bucketName b []
      dsimp only at ht
      rw [herase] at ht
      split at ht
      · cases ht
      · exact Or.inl ht
    · exact addsFresh_of_eq rfl
  · exact addsFresh_of_eq rfl

theorem addsFresh_triggerOp {r : TriggerOperation} (h : triggerOp now st req=some r) :
    AddsFresh st r.st := by
  unfold triggerOp at h
  split at h
  · split at h
    · obtain ⟨t,ht,h⟩ := Option.bind_eq_some_iff.mp h
      cases h
      have hfresh : Fresh t.state := fresh_genTriggerPointer ht
      have hset : Fresh (t.setTriggerOption req.triggerOption.toInt32.toInt).state := hfresh
      exact addsFresh_pushTrigger req.bucketName hset st
    · cases h
      exact addsFresh_of_eq rfl
  · split at h
    · cases h
      intro b t ht
      have hmap : (deleteTriggerOp st req).st.bucketTriggersMap=
          st.bucketTriggersMap.set req.bucketName
            ((st.bucketTriggersMap.getD req.bucketName []).filter
              fun t => decide (t.triggerName≠req.triggerName)) := by
        unfold deleteTriggerOp
        dsimp only
        split <;> rfl
      rw [hmap,UMap.getD_set] at ht
      split at ht
      · rename_i hb
        rw [hb]
        exact Or.inl (List.mem_of_mem_filter ht)
      · exact Or.inl ht
    · cases h
      exact addsFresh_of_eq rfl
  · cases h
    exact addsFresh_of_eq rfl

theorem addsFresh_registerDependency {app : Str}
    {r r' : CoordState×List DataDependency×List TriggerEntity}
    (h : registerDependency app now r dep=some r') : AddsFresh r.1 r'.1 := by
  unfold registerDependency at h
  split at h
  · cases h
    exact addsFresh_of_eq rfl
  · obtain ⟨tgt,-,h⟩ := Option.bind_eq_some_iff.mp h
    obtain ⟨t,ht,h⟩ := Option.bind_eq_some_iff.mp h
    cases h
    cases t with
    | none => exact addsFresh_of_eq rfl
    | some t =>
      have hown : AddsFresh r.1 (ownBucket app (dependencyBucket tgt) r.1) := addsFresh_of_eq rfl
      exact hown.trans (addsFresh_pushTrigger _ (fresh_dependencyTrigger ht) _)

theorem addsFresh_register {reg : AppRegistration}
    (h : appRegisterHandler self now st reg=some (st',out)) : AddsFresh st st' := by
  obtain ⟨r,hr,h⟩ := Option.bind_eq_some_iff.mp h
  cases h
  have hstep : ∀ (q q' : CoordState×List DataDependency×List TriggerEntity),∀ dep∈reg.dependencies,
      AddsFresh st q.1 → registerDependency reg.appName now q dep=some q' → AddsFresh st q'.1 :=
    fun q q' dep _ hq hd => hq.trans (addsFresh_registerDependency hd)
  exact foldlM_invariant hstep (addsFresh_of_eq rfl) hr

theorem bucketOpHandler_responses {req : BucketOperationRequest} {o : CoordOut}
    (h : o∈(bucketOpHandler st req).2) : ∃ address msg,o=.bucketResponse address msg := by
  unfold bucketOpHandler at h
  dsimp only at h
  split at h
  · split at h <;> exact ⟨_,_,List.mem_singleton.mp h⟩
  · split at h <;> exact ⟨_,_,List.mem_singleton.mp h⟩
  · exact ⟨_,_,List.mem_singleton.mp h⟩

theorem sendCalls_calls {msgs : List (Address×FunctionCall)} {seed : UInt32} {o : CoordOut}
    (h : o∈(sendCalls cfg msgs seed).1) : ∃ node ioThread msg,o=.call node ioThread msg := by
  induction msgs generalizing seed with
  | nil => cases h
  | cons e msgs ih =>
    rcases List.mem_cons.mp h with rfl|h
    · exact ⟨_,_,_,rfl⟩
    · exact ih h

/-- The handler of a call sends calls or an answer and changes no table. -/
theorem funcCallHandler_out {msg : FunctionCall} (h : funcCallHandler cfg st msg=some (st',out)) :
    st'={st with seed := st'.seed} ∧ ∀ o∈out,(∃ node ioThread part,o=.call node ioThread part) ∨
      ∃ address response,o=.callResponse address response := by
  obtain ⟨r,-,h⟩ := Option.bind_eq_some_iff.mp h
  split at h
  · cases h
    refine ⟨rfl,fun o ho => Or.inr ?_⟩
    split at ho
    · cases ho
    · exact ⟨_,_,List.mem_singleton.mp ho⟩
  · cases h
    exact ⟨rfl,fun o ho => Or.inl (sendCalls_calls ho)⟩

/-- What all handlers but that of notifications have in common. -/
structure Aside (st st' : CoordState) (events : List CoordEvent) : Prop where
  addresses : st'.bucketKeyAddressMap=st.bucketKeyAddressMap
  values : st'.bucketKeyValMap=st.bucketKeyValMap
  triggers : AddsFresh st st'
  undispatched : ∀ e∈events,∀ d,e≠.sent (.dispatch d)
  produced : ∀ e∈events,∀ i,e≠.received i

theorem handle_aside {i : CoordIn} {events : List CoordEvent} (hi : ∀ req now,i≠.notify req now)
    (h : handle cfg self st i=some (st',events)) : Aside st st' events := by
  have hsent : ∀ out : List CoordOut,∀ e∈out.map CoordEvent.sent,∀ i,e≠.received i := by
    intro out e he i
    obtain ⟨o,-,rfl⟩ := List.mem_map.mp he
    exact nofun
  have hkept : ∀ {out : List CoordOut},Undisturbed st st' → AddsFresh st st' →
      (∀ o∈out,∀ d,o≠.dispatch d) → Aside st st' (out.map .sent) := by
    intro out hk hadd hout
    refine ⟨hk.addresses,hk.values,hadd,fun e he d hd => ?_,hsent out⟩
    obtain ⟨o,ho,rfl⟩ := List.mem_map.mp he
    cases hd
    exact hout _ ho d rfl
  have hbroadcast : ∀ (st : CoordState) msg,∀ o∈broadcast st msg,∀ d,o≠.dispatch d := by
    intro st msg o ho d hd
    obtain ⟨e,-,rfl⟩ := List.mem_map.mp ho
    cases hd
  cases i with
  | notify req now => exact absurd rfl (hi req now)
  | query req =>
    cases h
    exact ⟨rfl,rfl,addsFresh_of_eq rfl,by simp,by simp⟩
  | bucket req =>
    cases h
    refine hkept (undisturbed_bucketOp st req) (addsFresh_bucketOp st req) fun o ho d hd => ?_
    obtain ⟨_,_,rfl⟩ := bucketOpHandler_responses ho
    cases hd
  | trigger req now =>
    obtain ⟨out,hout,rfl⟩ := map_sent_eq_some h
    obtain ⟨q,hq,hst,hk,rfl⟩ := triggerOpHandler_eq_some hout
    refine hkept hk (by rw [hst]; exact addsFresh_triggerOp hq) ?_
    exact List.forall_mem_cons.mpr ⟨nofun,hbroadcast _ _⟩
  | status msg =>
    cases h
    exact ⟨rfl,rfl,addsFresh_of_eq rfl,by simp,by simp⟩
  | register reg now =>
    obtain ⟨out,hout,rfl⟩ := map_sent_eq_some h
    obtain ⟨hk,msg,rfl⟩ := appRegisterHandler_eq_some hout
    exact hkept hk (addsFresh_register hout) (hbroadcast _ _)
  | call msg =>
    obtain ⟨out,hout,rfl⟩ := map_sent_eq_some h
    obtain ⟨hst,hcalls⟩ := funcCallHandler_out hout
    have hk : Undisturbed st st' := by
      rw [hst]
      exact ⟨rfl,rfl,rfl⟩
    refine hkept hk (addsFresh_of_eq (by rw [hst])) fun o ho d hd => ?_
    rcases hcalls o ho with ⟨_,_,_,rfl⟩|⟨_,_,rfl⟩ <;> cases hd

end Pheromone.CoordinatorLoop
