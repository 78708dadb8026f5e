import Pheromone.CoordinatorLoop
import Pheromone.RegistrationDelivery

/-!
# Calls and the registrations their workers were sent

Registrations are sent to the workers known then; a worker that joins late
gets calls of applications it was not told of.
-/

namespace Pheromone.InformedWorkers

open UnorderedContainers CommonNames TriggerPrimitives OperationMessages CoordinatorNotify
open GuardedRuns EventHistories DispatchCapacity CoordinatorRefinement FuncCallHandler CoordinatorOps
open RegistrationDelivery CoordinatorLoop

/-- The call that an event routes, and the worker it goes to. -/
def routes : CoordEvent → Option (Address×FunctionCall)
  | .sent (.call node _ msg) => some (node,msg)
  | .sent (.dispatch d) => d.routed.map fun worker => (worker.1,d.call)
  | _ => none

variable {m : UMap Address NodeStatus}

variable {e : Address×NodeStatus}

theorem contains_of_mem_entries (h : e∈m.entries) : m.contains e.1=true :=
  UMap.contains_eq_true_iff.mpr ⟨e.2,UMap.find?_eq_some_iff.mpr h⟩

variable {ip : Address}

theorem contains_of_freeAt_pos (h : 0<freeAt m ip) : m.contains ip=true := by
  obtain ⟨status,hf,-⟩ := find?_of_freeAt_pos h
  exact UMap.contains_eq_true_iff.mpr ⟨status,hf⟩

variable {source : Str}

theorem mem_of_mem_eligible (h : e∈eligible source m) : e∈m.entries := List.mem_of_mem_filter h

/-- A worker chosen for its free executors is known. -/
theorem mostAvailable_known (h : 0<(mostAvailable (eligible source m) (0,[])).1) :
    m.contains (mostAvailable (eligible source m) (0,[])).2=true := by
  rcases mostAvailable_mem (eligible source m) (0,[]) with hb|⟨e,he,hb,-⟩
  · rw [hb] at h
    exact absurd h (lt_irrefl 0)
  · rw [hb]
    exact contains_of_mem_entries (mem_of_mem_eligible he)

variable {call : FunctionCall}

theorem mem_entries_singleton {e : Address×FunctionCall} (h : e∈(UMap.set ∅ ip call).entries) :
    e.1=ip := by
  rw [List.mem_singleton.mp h]

variable {msgs : UMap Address FunctionCall}

theorem batchNodeMsg_known (hb : 1<call.requests.length)
    (h : batchNodeMsg (eligible call.source m) call=some msgs) :
    ∀ e∈msgs.entries,m.contains e.1=true := by
  intro e he
  by_cases hs : Splits m call
  · obtain ⟨sizes,parts,-,hm,hp⟩ := scheduledNodeMsg_split oneThread hs 0
    rw [scheduledNodeMsg,if_pos hs.1,h] at hm
    cases hm
    rw [hp] at he
    obtain ⟨p,hp,rfl⟩ := List.mem_map.mp he
    have havail : p.1∈availNodes (eligible call.source m) := (List.of_mem_zip hp).1
    obtain ⟨n,hn,hp1⟩ := List.mem_map.mp havail
    rw [←hp1]
    exact contains_of_mem_entries (mem_of_mem_eligible (List.mem_of_mem_filter hn))
  · unfold batchNodeMsg at h
    dsimp only at h
    split at h
    · rename_i hmax
      cases h
      rw [mem_entries_singleton he]
      exact mostAvailable_known (by omega)
    · rename_i hmax
      have hlt := (mostAvailable_lt_iff (by omega)).mp (Int.not_le.mp hmax)
      rw [if_neg fun ht => hs ⟨hb,hlt,ht⟩] at h
      cases h
      cases he

variable {cfg : CoordConfig}

theorem singleNodeMsg_known {seed seed' : UInt32}
    (h : singleNodeMsg cfg m seed call=some (msgs,seed')) :
    ∀ e∈msgs.entries,m.contains e.1=true := by
  intro e he
  unfold singleNodeMsg at h
  dsimp only at h
  split at h
  · rename_i hmax
    cases h
    rw [mem_entries_singleton he]
    exact mostAvailable_known hmax
  · split at h
    · obtain ⟨entry,hentry,h⟩ := Option.bind_eq_some_iff.mp h
      cases h
      rw [mem_entries_singleton he]
      exact contains_of_mem_entries (List.mem_of_getElem? hentry)
    · cases h
      cases he

variable {st' : CoordState} {out : List CoordOut}

/-- A call goes to known workers only, and its handler changes no table. -/
theorem funcCallHandler_known {st : CoordState} {msg : FunctionCall}
    (h : funcCallHandler cfg st msg=some (st',out)) : st'={st with seed := st'.seed} ∧
      ∀ o∈out,∀ target,routes (.sent o)=some target → st.nodeStatusMap.contains target.1=true := by
  obtain ⟨⟨msgs,seed⟩,hr,h⟩ := Option.bind_eq_some_iff.mp h
  have hknown : ∀ e∈msgs.entries,st.nodeStatusMap.contains e.1=true := by
    unfold scheduledNodeMsg at hr
    split at hr
    · rename_i hb
      obtain ⟨msgs',hm,he⟩ := Option.map_eq_some_iff.mp hr
      cases he
      exact batchNodeMsg_known hb hm
    · exact singleNodeMsg_known hr
  dsimp only at h
  split at h
  · cases h
    refine ⟨rfl,fun o ho target ht => ?_⟩
    split at ho
    · cases ho
    · rw [List.mem_singleton.mp ho] at ht
      cases ht
  · cases h
    refine ⟨rfl,fun o ho target ht => ?_⟩
    cases o with
    | call node ioThread part =>
      cases ht
      exact hknown _ ((mem_sendCalls cfg seed).mp ⟨ioThread,ho⟩)
    | dispatch d =>
      obtain ⟨_,_,_,hcall⟩ := sendCalls_calls ho
      cases hcall
    | _ => cases ht

/-- The known workers are as given, and every recorded data server is one of them. -/
structure Settled (known : Address → Bool) (st : CoordState) : Prop where
  nodes : ∀ ip,st.nodeStatusMap.contains ip=known ip
  hosts : ∀ bucket key,∀ ip∈addressesOf st.bucketKeyAddressMap bucket key,∀ host,
    hostOf ip=some host → known host=true

variable {known : Address → Bool}

theorem contains_touchNodes {nodes : List Address} (h : ∀ ip∈nodes,m.contains ip=true) :
    ∀ ip,(touchNodes nodes m).contains ip=m.contains ip := by
  have hkeep : ∀ nodes,(∀ ip∈nodes,m.contains ip=true) → touchNodes nodes m=m := by
    intro nodes hn
    induction nodes with
    | nil => rfl
    | cons a nodes ih =>
      rw [touchNodes,List.foldl_cons,UMap.touch,if_pos (hn a List.mem_cons_self)]
      exact ih fun ip hip => hn ip (List.mem_cons_of_mem _ hip)
  rw [hkeep nodes h]
  exact fun _ => rfl

variable {action : TriggerAction}

/-- The workers that hold the objects of an action are among those recorded. -/
theorem packArguments_nodes {st : CoordState} (hs : Settled known st) {bucket : Bucket}
    {argFlag : ℤ} {arguments : List Argument} {nodes : USet Address}
    (h : packArguments cfg st bucket argFlag action=some (arguments,nodes)) :
    ∀ ip∈nodes.elems,known ip=true := by
  intro ip hip
  rcases packArguments_eq_some h with ⟨value,rfl,rfl⟩|⟨hosts,hargs,hhosts,rfl⟩
  · cases hip
  · obtain ⟨arg,harg,hhost⟩ := exists_of_mem_mapM hhosts (USet.mem_ofList.mp hip)
    obtain ⟨o,-,ho⟩ := exists_of_mem_mapM hargs harg
    obtain ⟨address,haddress,ho⟩ := Option.bind_eq_some_iff.mp ho
    cases ho
    exact hs.hosts bucket o.2 address (USet.mem_of_first haddress) ip hhost

theorem Settled.record {st : CoordState} (hs : Settled known st) {a : BucketKeyAddress}
    (ha : ∀ ip,a.ips.head?=some ip → ∀ host,hostOf ip=some host → known host=true)
    (h : registerObject st a=some (some st')) : Settled known st' := by
  obtain ⟨ip,host,hip,-,rfl⟩ := registerObject_eq_some h
  refine ⟨hs.nodes,fun bucket key x hx host' hhost => ?_⟩
  rcases mem_addressesOf_update.mp hx with ⟨-,-,rfl⟩|hx
  · exact ha x hip host' hhost
  · exact hs.hosts bucket key x hx host' hhost

variable {req : KeyNotifyRequest}

/-- An action is routed to a known worker and makes no worker known. -/
theorem Settled.dispatch {bk : BucketKey} {trigger : Trigger} {st : CoordState} {d : Dispatch}
    (hs : Settled known st) (h : dispatchAction cfg req bk trigger st action=some (st',d)) :
    Settled known st' ∧ ∀ target,routes (.sent (.dispatch d))=some target → known target.1=true := by
  obtain ⟨arguments,nodes,hp,-,-,-,hst,hrouted⟩ := dispatchAction_eq_some h
  have hdata : ∀ ip∈nodes.elems,st.nodeStatusMap.contains ip=true := by
    intro ip hip
    rw [hs.nodes]
    exact packArguments_nodes hs hp ip hip
  have htouch : ∀ ip,(touchNodes nodes.elems st.nodeStatusMap).contains ip=known ip := by
    intro ip
    rw [contains_touchNodes hdata]
    exact hs.nodes ip
  have hhosts : ∀ bucket key,∀ ip∈addressesOf st'.bucketKeyAddressMap bucket key,∀ host,
      hostOf ip=some host → known host=true := by
    rw [hst]
    exact hs.hosts
  rcases hrouted with ⟨-,hr,hnodes⟩|⟨worker,ioThread,-,-,hfree,hr,hnodes⟩
  · refine ⟨⟨fun ip => ?_,hhosts⟩,fun target ht => ?_⟩
    · rw [hnodes]
      exact htouch ip
    · simp only [routes,hr,Option.map_none] at ht
      cases ht
  · have hworker : known worker=true := by
      rw [←htouch]
      exact contains_of_freeAt_pos hfree
    refine ⟨⟨fun ip => ?_,hhosts⟩,fun target ht => ?_⟩
    · rw [hnodes,UMap.contains_set,htouch]
      by_cases he : ip=worker
      · subst he
        simp [hworker]
      · simp [he]
    · simp only [routes,hr,Option.map_some,Option.some.injEq] at ht
      rw [←ht]
      exact hworker

variable {now : ℤ}

/-- A notification of known workers routes calls to known workers only. -/
theorem Settled.notify {st : CoordState} (hs : Settled known st)
    (hreq : ∀ a∈req.addresses,∀ ip,a.ips.head?=some ip → ∀ host,hostOf ip=some host →
      known host=true) (h : notifyHandler cfg now st req=some (st',out)) :
    Settled known st' ∧
      ∀ o∈out,∀ target,routes (.sent o)=some target → known target.1=true := by
  refine notifyHandler_rule (fun a ha st st₁ st₂ out hs hr hn => ?_) hs h
  have hs1 := hs.record (hreq a ha) hr
  have hadv : Settled known (advanced now (getBucketKeyFromAddr a) st₁) := ⟨hs1.nodes,hs1.hosts⟩
  obtain ⟨hs2,hout⟩ := notifyTriggers_rule hadv (fun _ _ action _ st st' d hs hd => hs.dispatch hd) hn
  refine ⟨hs2,fun o ho target ht => ?_⟩
  rcases hout o ho with ⟨d,rfl,hd⟩|⟨node,msg,rfl,-⟩
  · exact hd target ht
  · cases ht

/-- The event is the receipt of a registration. -/
def CoordEvent.registers : CoordEvent → Bool
  | .received (.register _ _) => true
  | _ => false

/-- A routed call finds its worker informed of all registrations of its application. -/
def Prepared (before : List CoordEvent) (e : CoordEvent) : Prop :=
  ∀ node call,routes e=some (node,call) → ∀ reg now,.received (.register reg now)∈before →
    reg.appName=call.appName → ∃ msg,.sent (.update node msg)∈before ∧ Announcement now reg msg

/-- No call is routed to a worker that was not sent the registrations of the
call's application before. -/
def Informed (history : List CoordEvent) : Prop := Justified Prepared history

/-- Workers report their status before the first registration and before
they notify. -/
def JoinsFirst (r : CoordRun) : CoordIn → Prop
  | .status msg => r.tables.nodeStatusMap.contains msg.ip=true ∨
      ∀ e∈r.history,CoordEvent.registers e=false
  | .notify req _ => ∀ a∈req.addresses,∀ ip∈a.ips.head?,∀ host∈hostOf ip,
      r.tables.nodeStatusMap.contains host=true
  | _ => True

instance (r : CoordRun) (i : CoordIn) : Decidable (JoinsFirst r i) :=
  match i with
  | .status _ => inferInstanceAs (Decidable (_ ∨ _))
  | .notify req _ => inferInstanceAs (Decidable (∀ a∈req.addresses,_))
  | .query _ => isTrue trivial
  | .bucket _ => isTrue trivial
  | .trigger _ _ => isTrue trivial
  | .register _ _ => isTrue trivial
  | .call _ => isTrue trivial

/-- Every known worker was sent every registration, and data servers and
routed calls are as above. -/
structure Told (r : CoordRun) : Prop where
  told : ∀ reg now,.received (.register reg now)∈r.history →
    ∀ node,r.tables.nodeStatusMap.contains node=true →
      ∃ msg,.sent (.update node msg)∈r.history ∧ Announcement now reg msg
  settled : Settled r.tables.nodeStatusMap.contains r.tables
  informed : Informed r.history

theorem told_start (seed : UInt32) : Told (start seed) := by
  refine ⟨fun _ _ h => absurd h List.not_mem_nil,⟨fun _ => rfl,fun _ _ _ h => ?_⟩,justified_nil⟩
  exact absurd h (USet.not_mem_empty _)

/-- Only tables matter that hold data servers and known workers. -/
theorem Settled.congr {st : CoordState} (hs : Settled known st)
    (hn : st'.nodeStatusMap=st.nodeStatusMap) (ha : st'.bucketKeyAddressMap=st.bucketKeyAddressMap) :
    Settled known st' := by
  refine ⟨?_,?_⟩
  · rw [hn]
    exact hs.nodes
  · rw [ha]
    exact hs.hosts

variable {r : CoordRun} {st : CoordState} {i : CoordIn} {events : List CoordEvent}

/-- A turn without registration that sends calls to known workers. -/
theorem Told.turn (h : Told r) (hi : CoordEvent.registers (.received i)=false)
    (hevents : ∀ e∈events,CoordEvent.registers e=false)
    (hroutes : ∀ e∈events,∀ target,routes e=some target →
      r.tables.nodeStatusMap.contains target.1=true)
    (hnodes : ∀ node,st.nodeStatusMap.contains node=true →
      r.tables.nodeStatusMap.contains node=true ∨ ∀ e∈r.history,CoordEvent.registers e=false)
    (hs : Settled st.nodeStatusMap.contains st) : Told ⟨st,r.history++.received i::events⟩ := by
  have hold : ∀ before,before⊆events → ∀ reg now,
      .received (.register reg now)∈r.history++.received i::before →
        .received (.register reg now)∈r.history := by
    intro before hb reg now hm
    rcases List.mem_append.mp hm with hm|hm
    · exact hm
    · rcases List.mem_cons.mp hm with hm|hm
      · rw [←hm] at hi
        cases hi
      · cases hevents _ (hb hm)
  refine ⟨fun reg now hm node hn => ?_,hs,?_⟩
  · have hreg := hold events (fun _ he => he) reg now hm
    have hknown : r.tables.nodeStatusMap.contains node=true := by
      rcases hnodes node hn with hk|hnone
      · exact hk
      · cases hnone _ hreg
    obtain ⟨msg,hmsg,ha⟩ := h.told reg now hreg node hknown
    exact ⟨msg,List.mem_append_left _ hmsg,ha⟩
  · refine h.informed.record (fun _ _ hr => by cases hr) fun before hb e he node call hr reg now hm _ => ?_
    have hknown := hroutes e he _ hr
    obtain ⟨msg,hmsg,ha⟩ := h.told reg now (hold before hb reg now hm) node hknown
    exact ⟨msg,List.mem_append_left _ hmsg,ha⟩

theorem registers_map_sent (out : List CoordOut) :
    ∀ e∈out.map CoordEvent.sent,CoordEvent.registers e=false := by
  intro e he
  obtain ⟨o,-,rfl⟩ := List.mem_map.mp he
  rfl

theorem routes_map_sent (h : ∀ o∈out,∀ target,routes (.sent o)=some target → known target.1=true) :
    ∀ e∈out.map CoordEvent.sent,∀ target,routes e=some target → known target.1=true := by
  intro e he
  obtain ⟨o,ho,rfl⟩ := List.mem_map.mp he
  exact h o ho

theorem routes_broadcast (st : CoordState) (msg : UpdateCoordMsg) :
    ∀ o∈broadcast st msg,routes (.sent o)=none := by
  intro o ho
  obtain ⟨e,-,rfl⟩ := List.mem_map.mp ho
  rfl

variable {self : CoordIdentity}

theorem Told.register {reg : AppRegistration} (h : Told r)
    (hreg : appRegisterHandler self now r.tables reg=some (st,out)) :
    Told ⟨st,r.history++.received (.register reg now)::out.map .sent⟩ := by
  obtain ⟨hkept,msg,hout⟩ := appRegisterHandler_eq_some hreg
  have hmsg : ∀ node,r.tables.nodeStatusMap.contains node=true →
      .update node msg∈out := by
    intro node hn
    obtain ⟨status,hf⟩ := UMap.contains_eq_true_iff.mp hn
    rw [hout]
    exact List.mem_map.mpr ⟨(node,status),UMap.find?_eq_some_iff.mp hf,rfl⟩
  have hnone : ∀ e∈out.map CoordEvent.sent,routes e=none := by
    intro e he
    obtain ⟨o,ho,rfl⟩ := List.mem_map.mp he
    rw [hout] at ho
    exact routes_broadcast _ msg o ho
  refine ⟨fun reg' now' hm node hn => ?_,?_,?_⟩
  · rw [hkept.nodes] at hn
    rcases List.mem_append.mp hm with hm|hm
    · obtain ⟨msg',hmsg',ha⟩ := h.told reg' now' hm node hn
      exact ⟨msg',List.mem_append_left _ hmsg',ha⟩
    · rcases List.mem_cons.mp hm with hm|hm
      · cases hm
        refine ⟨msg,?_,announcement_of_mem hreg (hmsg node hn)⟩
        exact List.mem_append_right _ (List.mem_cons_of_mem _ (List.mem_map_of_mem (hmsg node hn)))
      · cases registers_map_sent out _ hm
  · rw [hkept.nodes]
    exact h.settled.congr hkept.nodes hkept.addresses
  · refine h.informed.record (fun _ _ hr => by cases hr) fun before hb e he node call hr => ?_
    rw [hnone e he] at hr
    cases hr

theorem told_step {r' : CoordRun} (h : Told r) (hok : JoinsFirst r i)
    (hstep : step cfg self r i=some r') : Told r' := by
  obtain ⟨st,events,hh,rfl⟩ := step_eq_some hstep
  have hsame : ∀ st' : CoordState,st'.nodeStatusMap=r.tables.nodeStatusMap → ∀ node,
      st'.nodeStatusMap.contains node=true → r.tables.nodeStatusMap.contains node=true ∨
        ∀ e∈r.history,CoordEvent.registers e=false := by
    intro st' he node hn
    rw [he] at hn
    exact Or.inl hn
  cases i with
  | notify req now =>
    obtain ⟨out,hout,rfl⟩ := map_sent_eq_some hh
    obtain ⟨hs,hroutes⟩ := h.settled.notify (fun a ha ip hip host hhost => hok a ha ip hip host hhost) hout
    have hfun : st.nodeStatusMap.contains=r.tables.nodeStatusMap.contains := funext hs.nodes
    refine h.turn rfl (registers_map_sent out) (routes_map_sent hroutes) (fun node hn => Or.inl ?_) ?_
    · rw [←hs.nodes]
      exact hn
    · rw [hfun]
      exact hs
  | query req =>
    cases hh
    refine h.turn rfl (by simp [CoordEvent.registers]) (by simp [routes]) (hsame _ rfl) h.settled
  | bucket req =>
    cases hh
    have hkept := undisturbed_bucketOp r.tables req
    have hroutes : ∀ o∈(bucketOpHandler r.tables req).2,∀ target,routes (.sent o)=some target →
        r.tables.nodeStatusMap.contains target.1=true := by
      intro o ho target ht
      obtain ⟨_,_,rfl⟩ := bucketOpHandler_responses ho
      cases ht
    refine h.turn rfl (registers_map_sent _) (routes_map_sent hroutes) (hsame _ hkept.nodes) ?_
    rw [hkept.nodes]
    exact h.settled.congr hkept.nodes hkept.addresses
  | trigger req now =>
    obtain ⟨out,hout,rfl⟩ := map_sent_eq_some hh
    obtain ⟨q,-,-,hkept,rfl⟩ := triggerOpHandler_eq_some hout
    have hroutes : ∀ o∈CoordOut.triggerResponse req.responseAddress
          ⟨req.bucketName,req.triggerName,req.requestId,q.error⟩::
        broadcast q.st ⟨self.privateIp,self.threadId,req.appName,[],[],q.triggers,q.msgType⟩,
        ∀ target,routes (.sent o)=some target → r.tables.nodeStatusMap.contains target.1=true := by
      intro o ho target ht
      rcases List.mem_cons.mp ho with rfl|ho
      · cases ht
      · rw [routes_broadcast _ _ o ho] at ht
        cases ht
    refine h.turn rfl (registers_map_sent _) (routes_map_sent hroutes) (hsame _ hkept.nodes) ?_
    rw [hkept.nodes]
    exact h.settled.congr hkept.nodes hkept.addresses
  | status msg =>
    cases hh
    have hset : ∀ node,(updateStatus r.tables msg).nodeStatusMap.contains node=true →
        node=msg.ip ∨ r.tables.nodeStatusMap.contains node=true := by
      intro node hn
      have hcontains := UMap.contains_set r.tables.nodeStatusMap msg.ip node
        ⟨msg.availExecutors.toInt32.toInt⟩
      rw [updateStatus,hcontains] at hn
      simpa using hn
    refine h.turn rfl (by simp) (by simp) (fun node hn => ?_) ⟨fun _ => rfl,?_⟩
    · rcases hset node hn with rfl|hk
      · exact hok
      · exact Or.inl hk
    · intro bucket key ip hip host hhost
      have hk := h.settled.hosts bucket key ip hip host hhost
      rw [updateStatus,UMap.contains_set,hk]
      simp
  | register reg now =>
    obtain ⟨out,hout,rfl⟩ := map_sent_eq_some hh
    exact h.register hout
  | call msg =>
    obtain ⟨out,hout,rfl⟩ := map_sent_eq_some hh
    obtain ⟨hst,hroutes⟩ := funcCallHandler_known hout
    refine h.turn rfl (registers_map_sent out) (routes_map_sent hroutes) (hsame st ?_) ?_
    · rw [hst]
    · rw [hst]
      exact h.settled.congr rfl rfl

/-- Along every run in which workers report their status before the first
registration and before they notify, no call is routed to a worker that was
not sent the registrations of the call's application earlier. -/
theorem calls_reach_informed_workers (cfg : CoordConfig) (self : CoordIdentity) (seed : UInt32)
    (inputs : List CoordIn) (r : CoordRun)
    (hok : StepsMeet (step cfg self) JoinsFirst (start seed) inputs)
    (hrun : run (step cfg self) (start seed) inputs=some r) : Informed r.history :=
  (run_invariant_of_steps (fun _ _ _ h hok hstep => told_step h hok hstep) (told_start seed) hok
    hrun).informed

/-- An application with one function. -/
def sampleRegistration : AppRegistration := ⟨str "app",[str "f"],[]⟩

/-- A call of that function. -/
def sampleCall : FunctionCall := ⟨str "app",[⟨str "f",[]⟩],[],[],[],str "s",true⟩

/-- A worker that joins before the application is registered. -/
def joinedInTime : List CoordIn :=
  [.status ⟨str "10.0.0.1",1⟩,.register sampleRegistration 0,.call sampleCall]

/-- A worker that joins after it. -/
def joinedLate : List CoordIn :=
  [.register sampleRegistration 0,.status ⟨str "10.0.0.1",1⟩,.call sampleCall]

theorem calls_reach_informed_workers_inTime :
    ∃ r,run (step oneThread ⟨[],0⟩) (start 1) joinedInTime=some r ∧
      (∃ e∈r.history,routes e=some (str "10.0.0.1",sampleCall)) ∧ Informed r.history := by
  refine ⟨_,rfl,?_,calls_reach_informed_workers oneThread ⟨[],0⟩ 1 joinedInTime _
    (by decide +kernel) rfl⟩
  exact ⟨_,List.mem_of_getLast? rfl,rfl⟩

/-- The worker gets a call of an application it has never been told of. -/
theorem late_worker_uninformed :
    ∃ r,run (step oneThread ⟨[],0⟩) (start 1) joinedLate=some r ∧ ¬Informed r.history := by
  refine ⟨_,rfl,fun h => ?_⟩
  obtain ⟨msg,hmsg,-⟩ := h [_,_,_] (.sent (.call (str "10.0.0.1") 0 sampleCall)) [] rfl
    (str "10.0.0.1") sampleCall rfl sampleRegistration 0 List.mem_cons_self rfl
  simp at hmsg

end Pheromone.InformedWorkers
