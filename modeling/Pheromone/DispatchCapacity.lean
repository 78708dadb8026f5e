import Pheromone.CoordinatorNotify
import Mathlib.Algebra.Order.BigOperators.Group.List

/-!
# Free executors and the actions of a notification

Every routed action takes one executor from the coordinator's view, and an
action is dropped exactly when none is left.
-/

namespace Pheromone.DispatchCapacity

open UnorderedContainers CommonNames TriggerPrimitives OperationMessages CoordinatorNotify

/-- Free executors of a worker, as the coordinator sees it. -/
def freeAt (m : UMap Address NodeStatus) (ip : Address) : ℤ := (m.getD ip .unset).availExecutors

/-- Free executors of all known workers together. -/
def capacity (m : UMap Address NodeStatus) : ℕ :=
  (m.entries.map fun e => e.2.availExecutors.toNat).sum

theorem freeAt_touch (m : UMap Address NodeStatus) (k ip : Address) :
    freeAt (m.touch k .unset) ip=freeAt m ip := by
  unfold freeAt UMap.getD
  rw [UMap.find?_touch]
  split
  · rename_i h
    rw [h]
    rfl
  · rfl

theorem capacity_touch (m : UMap Address NodeStatus) (k : Address) :
    capacity (m.touch k .unset)=capacity m :=
  UMap.sum_touch (fun s : NodeStatus => s.availExecutors.toNat) m k rfl

/-- Reading the data workers changes nobody's free executors. -/
theorem freeAt_touchNodes (nodes : List Address) (m : UMap Address NodeStatus) (ip : Address) :
    freeAt (touchNodes nodes m) ip=freeAt m ip := by
  induction nodes generalizing m with
  | nil => rfl
  | cons k nodes ih => exact (ih _).trans (freeAt_touch m k ip)

theorem capacity_touchNodes (nodes : List Address) (m : UMap Address NodeStatus) :
    capacity (touchNodes nodes m)=capacity m := by
  induction nodes generalizing m with
  | nil => rfl
  | cons k nodes ih => exact (ih _).trans (capacity_touch m k)

variable {m : UMap Address NodeStatus}

variable {ip : Address}

/-- A worker with a free executor is known. -/
theorem find?_of_freeAt_pos (h : 0<freeAt m ip) :
    ∃ status,m.find? ip=some status ∧ status.availExecutors=freeAt m ip := by
  unfold freeAt UMap.getD at h ⊢
  cases hf : m.find? ip with
  | none => simp [hf,NodeStatus.unset] at h
  | some status => exact ⟨status,rfl,rfl⟩

/-- Some worker has a free executor exactly when the capacity is positive. -/
theorem capacity_pos_iff : 0<capacity m ↔ ∃ ip,0<freeAt m ip := by
  unfold capacity
  rw [Nat.pos_iff_ne_zero,Ne,List.sum_eq_zero_iff]
  constructor
  · intro h
    push Not at h
    obtain ⟨x,hx,hne⟩ := h
    obtain ⟨⟨ip,status⟩,he,rfl⟩ := List.mem_map.mp hx
    refine ⟨ip,?_⟩
    rw [freeAt,UMap.getD,UMap.find?_eq_some_iff.mpr he]
    show 0<status.availExecutors
    dsimp only at hne
    omega
  · rintro ⟨ip,hp⟩ h
    obtain ⟨status,hf,hs⟩ := find?_of_freeAt_pos hp
    have hz := h _ (List.mem_map_of_mem (UMap.find?_eq_some_iff.mp hf))
    dsimp only at hz
    omega

/-- Taking an executor of a worker lowers the capacity by one. -/
theorem capacity_take (h : 0<freeAt m ip) : capacity (m.set ip ⟨freeAt m ip-1⟩)+1=capacity m := by
  obtain ⟨status,hf,hs⟩ := find?_of_freeAt_pos h
  have hsum := UMap.sum_set (fun s : NodeStatus => s.availExecutors.toNat) hf ⟨freeAt m ip-1⟩
  unfold capacity
  dsimp only at hsum
  omega

/-- The running maximum starts from its seed or comes from the list. -/
theorem mostAvailable_mem (l : List (Address×NodeStatus)) (best : ℤ×Address) :
    mostAvailable l best=best ∨
      ∃ e∈l,mostAvailable l best=(e.2.availExecutors,e.1) ∧ best.1<e.2.availExecutors := by
  induction l generalizing best with
  | nil => exact Or.inl rfl
  | cons x l ih =>
    rw [mostAvailable]
    by_cases hx : x.2.availExecutors>best.1
    · rw [if_pos hx]
      rcases ih (x.2.availExecutors,x.1) with h|⟨e,he,h,hlt⟩
      · exact Or.inr ⟨x,List.mem_cons_self,h,hx⟩
      · exact Or.inr ⟨e,List.mem_cons_of_mem _ he,h,hx.trans hlt⟩
    · rw [if_neg hx]
      rcases ih best with h|⟨e,he,h,hlt⟩
      · exact Or.inl h
      · exact Or.inr ⟨e,List.mem_cons_of_mem _ he,h,hlt⟩

/-- The running maximum dominates its seed and the list. -/
theorem le_mostAvailable (l : List (Address×NodeStatus)) (best : ℤ×Address) :
    best.1≤(mostAvailable l best).1 ∧ ∀ e∈l,e.2.availExecutors≤(mostAvailable l best).1 := by
  induction l generalizing best with
  | nil => simp [mostAvailable]
  | cons x l ih =>
    have hseed : best.1≤(if x.2.availExecutors>best.1 then (x.2.availExecutors,x.1) else best).1 ∧
        x.2.availExecutors≤
          (if x.2.availExecutors>best.1 then (x.2.availExecutors,x.1) else best).1 := by
      split <;> constructor <;> omega
    rw [mostAvailable]
    obtain ⟨h1,h2⟩ := ih (if x.2.availExecutors>best.1 then (x.2.availExecutors,x.1) else best)
    refine ⟨hseed.1.trans h1,?_⟩
    intro e he
    rcases List.mem_cons.mp he with rfl|he
    · exact hseed.2.trans h1
    · exact h2 e he

variable {nodes : USet Address}

/-- A chosen worker has a free executor. -/
theorem freeAt_routedWorker (h : routedWorker nodes m≠[]) : 0<freeAt m (routedWorker nodes m) := by
  unfold routedWorker at h ⊢
  dsimp only at h ⊢
  have hdata := mostAvailable_mem (nodes.elems.map fun ip => (ip,m.getD ip .unset)) (0,[])
  split at h
  · rename_i hb
    rw [if_pos hb]
    have hall := mostAvailable_mem m.entries
      (mostAvailable (nodes.elems.map fun ip => (ip,m.getD ip .unset)) (0,[]))
    rcases hall with hr|⟨e,he,hr,hlt⟩
    · rw [hr,hb] at h
      exact absurd rfl h
    · have hz := (le_mostAvailable (nodes.elems.map fun ip => (ip,m.getD ip .unset)) (0,[])).1
      rw [hr,freeAt,UMap.getD,UMap.find?_eq_some_iff.mpr he]
      show 0<e.2.availExecutors
      dsimp only at hz
      omega
  · rename_i hb
    rw [if_neg hb]
    rcases hdata with hr|⟨e,he,hr,hlt⟩
    · rw [hr] at hb
      exact absurd rfl hb
    · obtain ⟨ip,-,rfl⟩ := List.mem_map.mp he
      rw [hr]
      exact hlt

/-- The running maximum over all entries, or nothing if no entry is positive. -/
theorem mostAvailable_cases (l : List (Address×NodeStatus)) :
    mostAvailable l (0,[])=(0,[]) ∧ (∀ e∈l,e.2.availExecutors≤0) ∨
      ∃ e∈l,mostAvailable l (0,[])=(e.2.availExecutors,e.1) ∧ 0<e.2.availExecutors ∧
        ∀ e'∈l,e'.2.availExecutors≤ e.2.availExecutors := by
  have hle := (le_mostAvailable l (0,[])).2
  rcases mostAvailable_mem l (0,[]) with hr|⟨e,he,hr,hlt⟩
  · rw [hr] at hle
    exact Or.inl ⟨hr,hle⟩
  · rw [hr] at hle
    exact Or.inr ⟨e,he,hr,hlt,hle⟩

/-- How the worker of an action is found when no executor is free under the
empty address. -/
theorem routedWorker_cases (hname : freeAt m []≤0) :
    routedWorker nodes m=[] ∧ (∀ ip,freeAt m ip≤0) ∨
      routedWorker nodes m≠[] ∧ 0<freeAt m (routedWorker nodes m) ∧
        (routedWorker nodes m∈nodes ∧
            (∀ ip∈nodes,freeAt m ip≤freeAt m (routedWorker nodes m)) ∨
          (∀ ip∈nodes,freeAt m ip≤0) ∧ ∀ ip,freeAt m ip≤freeAt m (routedWorker nodes m)) := by
  have hne : ∀ ip,0<freeAt m ip → ip≠[] := by
    rintro ip hip rfl
    omega
  unfold routedWorker
  dsimp only
  rcases mostAvailable_cases (nodes.elems.map fun ip => (ip,m.getD ip .unset))
    with ⟨hr,hall⟩|⟨e,he,hr,hpos,hmax⟩
  · have hnodes : ∀ ip∈nodes,freeAt m ip≤0 := fun ip hip => hall _ (List.mem_map_of_mem hip)
    rw [hr,if_pos rfl]
    rcases mostAvailable_cases m.entries with ⟨hr,hall⟩|⟨e,he,hr,hpos,hmax⟩
    · refine Or.inl ⟨by rw [hr],fun ip => ?_⟩
      by_contra hip
      obtain ⟨status,hf,hs⟩ := find?_of_freeAt_pos (not_le.mp hip)
      have hle := hall _ (UMap.find?_eq_some_iff.mp hf)
      dsimp only at hle
      omega
    · have hfree : freeAt m e.1=e.2.availExecutors := by
        rw [freeAt,UMap.getD,UMap.find?_eq_some_iff.mpr he]
        rfl
      rw [hr]
      dsimp only
      rw [hfree]
      refine Or.inr ⟨hne _ (by omega),hpos,Or.inr ⟨hnodes,fun ip => ?_⟩⟩
      by_cases hip : 0<freeAt m ip
      · obtain ⟨status,hf,hs⟩ := find?_of_freeAt_pos hip
        have hle := hmax _ (UMap.find?_eq_some_iff.mp hf)
        dsimp only at hle
        omega
      · omega
  · obtain ⟨ip,hip,rfl⟩ := List.mem_map.mp he
    have hname' := hne ip hpos
    rw [hr,if_neg hname']
    exact Or.inr ⟨hname',hpos,Or.inl ⟨hip,fun k hk => hmax _ (List.mem_map_of_mem hk)⟩⟩

/-- How routing a list of actions changes the view of the workers. -/
structure Drains (m m' : UMap Address NodeStatus) (ds : List Dispatch) : Prop where
  /-- The empty address stays without free executors. -/
  unnamed : freeAt m' []≤0
  /-- Every action takes one executor while there are any. -/
  remaining : capacity m'=capacity m-ds.length
  /-- All actions are routed exactly when there are enough executors. -/
  routed_iff : (∀ d∈ds,d.routed.isSome=true) ↔ ds.length≤ capacity m
  free_of_free : ∀ ip,0<freeAt m' ip → 0<freeAt m ip
  /-- Calls go to workers that had a free executor. -/
  destination : ∀ d∈ds,∀ worker,d.routed=some worker → 0<freeAt m worker.1
  /-- Every call requests the function of its action, and nothing else. -/
  requests : ∀ d∈ds,d.call.requests.map FunctionRequest.name=[d.action.function]

theorem Drains.nil (h : freeAt m []≤0) : Drains m m [] :=
  ⟨h,by simp,by simp,fun _ hp => hp,by simp,by simp⟩

variable {ds : List Dispatch}

theorem Drains.append {m' m'' : UMap Address NodeStatus} {es : List Dispatch} (hd : Drains m m' ds)
    (he : Drains m' m'' es) : Drains m m'' (ds++es) := by
  have hd2 := hd.remaining
  have he2 := he.remaining
  refine ⟨he.unnamed,?_,?_,fun ip hp => hd.free_of_free ip (he.free_of_free ip hp),?_,
    List.forall_mem_append.mpr ⟨hd.requests,he.requests⟩⟩
  · rw [List.length_append]
    omega
  · simp only [List.forall_mem_append,hd.routed_iff,he.routed_iff,List.length_append]
    omega
  · intro d hm worker hw
    rcases List.mem_append.mp hm with hm|hm
    · exact hd.destination d hm worker hw
    · exact hd.free_of_free _ (he.destination d hm worker hw)

/-- The tables which routing leaves alone. -/
structure Kept (st st' : CoordState) : Prop where
  triggers : st'.bucketTriggersMap=st.bucketTriggersMap
  nodes : st'.bucketNodeMap=st.bucketNodeMap
  registered : ∀ b,st.bucketAppMap.contains b=true → st'.bucketAppMap.contains b=true

theorem Kept.refl (st : CoordState) : Kept st st := ⟨rfl,rfl,fun _ h => h⟩

variable {st st' : CoordState}

theorem Kept.trans {st'' : CoordState} (h : Kept st st') (h' : Kept st' st'') : Kept st st'' :=
  ⟨h'.triggers.trans h.triggers,h'.nodes.trans h.nodes,fun b hb => h'.registered b (h.registered b hb)⟩

/-- The trigger and the action of a dispatch. -/
def Dispatch.produced (d : Dispatch) : Trigger×TriggerAction := (d.trigger,d.action)

variable {cfg : CoordConfig} {req : KeyNotifyRequest} {bk : BucketKey} {trigger : Trigger}

variable {action : TriggerAction} {d : Dispatch}

/-- Packed arguments are one joined value, or objects by key and their workers. -/
theorem packArguments_eq_some {bucket : Bucket} {argFlag : ℤ} {arguments : List Argument}
    {nodes : USet Address}
    (h : packArguments cfg st bucket argFlag action=some (arguments,nodes)) :
    (∃ value,arguments=[⟨value,0,[]⟩] ∧ nodes=∅) ∨
      ∃ hosts,keyArguments cfg st bucket argFlag action=some arguments ∧
        arguments.mapM (fun arg => hostOf arg.dataAddress)=some hosts ∧ nodes=USet.ofList hosts := by
  unfold packArguments at h
  split at h
  · cases h
    exact Or.inl ⟨_,rfl,rfl⟩
  · obtain ⟨args,hargs,h⟩ := Option.bind_eq_some_iff.mp h
    obtain ⟨nodes,hnodes,h⟩ := Option.bind_eq_some_iff.mp h
    cases h
    obtain ⟨hosts,hhosts,hnodes⟩ := Option.bind_eq_some_iff.mp hnodes
    exact Or.inr ⟨hosts,hargs,hhosts,(Option.some.inj hnodes).symm⟩

/-- Routing one action: the call it builds and the tables it changes. -/
theorem dispatchAction_eq_some (h : dispatchAction cfg req bk trigger st action=some (st',d)) :
    ∃ arguments nodes,packArguments cfg st bk.bucket (trigger.triggerOption+1) action=
        some (arguments,nodes) ∧
      d.trigger=trigger ∧ d.action=action ∧
      d.call=⟨(st.bucketAppMap.touch bk.bucket []).getD bk.bucket [],[⟨action.function,arguments⟩],
        [],[],req.responseAddress,bk.session,true⟩ ∧
      st'={st with
        bucketAppMap := st.bucketAppMap.touch bk.bucket []
        nodeStatusMap := st'.nodeStatusMap
        seed := st'.seed} ∧
      (routedWorker nodes (touchNodes nodes.elems st.nodeStatusMap)=[] ∧ d.routed=none ∧
          st'.nodeStatusMap=touchNodes nodes.elems st.nodeStatusMap ∨
        ∃ worker ioThread,routedWorker nodes (touchNodes nodes.elems st.nodeStatusMap)=worker ∧
          worker≠[] ∧ 0<freeAt (touchNodes nodes.elems st.nodeStatusMap) worker ∧
          d.routed=some (worker,ioThread) ∧
          st'.nodeStatusMap=(touchNodes nodes.elems st.nodeStatusMap).set worker
            ⟨freeAt (touchNodes nodes.elems st.nodeStatusMap) worker-1⟩) := by
  simp only [dispatchAction,Option.bind_eq_bind,Option.bind_eq_some_iff] at h
  obtain ⟨⟨arguments,nodes⟩,hp,h⟩ := h
  dsimp only at h
  refine ⟨arguments,nodes,hp,?_⟩
  split at h
  · rename_i hw
    cases h
    exact ⟨rfl,rfl,rfl,rfl,Or.inl ⟨hw,rfl,rfl⟩⟩
  · rename_i hw
    cases h
    exact ⟨rfl,rfl,rfl,rfl,Or.inr ⟨_,_,rfl,hw,freeAt_routedWorker hw,rfl,rfl⟩⟩

/-- An action whose arguments can be built is routed. -/
theorem dispatchAction_of_pack {arguments : List Argument}
    (h : packArguments cfg st bk.bucket (trigger.triggerOption+1) action=some (arguments,nodes)) :
    ∃ st' d,dispatchAction cfg req bk trigger st action=some (st',d) ∧
      d.call.requests=[⟨action.function,arguments⟩] := by
  have hp : packArguments cfg {st with bucketAppMap := st.bucketAppMap.touch bk.bucket []} bk.bucket
      (trigger.triggerOption+1) action=some (arguments,nodes) := h
  simp only [dispatchAction,Option.bind_eq_bind,hp,Option.bind_some]
  split
  · exact ⟨_,_,rfl,rfl⟩
  · exact ⟨_,_,rfl,rfl⟩

/-- Routing one action: its dispatch and the tables that stay. -/
theorem dispatchAction_spec (h : dispatchAction cfg req bk trigger st action=some (st',d)) :
    Dispatch.produced d=(trigger,action) ∧ Kept st st' := by
  obtain ⟨arguments,nodes,-,htrigger,haction,-,hst,-⟩ := dispatchAction_eq_some h
  refine ⟨by rw [Dispatch.produced,htrigger,haction],?_⟩
  rw [hst]
  exact ⟨rfl,rfl,fun b hb => UMap.contains_touch hb _ _⟩

theorem freeAt_take (m : UMap Address NodeStatus) (worker ip : Address) :
    freeAt (m.set worker ⟨freeAt m worker-1⟩) ip=
      if ip=worker then freeAt m worker-1 else freeAt m ip := by
  unfold freeAt
  rw [UMap.getD_set]
  split <;> rfl

/-- One action takes one executor. -/
theorem dispatchAction_drains (hname : freeAt st.nodeStatusMap []≤0)
    (h : dispatchAction cfg req bk trigger st action=some (st',d)) :
    Drains st.nodeStatusMap st'.nodeStatusMap [d] := by
  obtain ⟨arguments,nodes,-,-,haction,hcall,-,h⟩ := dispatchAction_eq_some h
  have hrequests : ∀ d'∈[d],d'.call.requests.map FunctionRequest.name=[d'.action.function] := by
    intro d' hd'
    rw [List.mem_singleton.mp hd',hcall,haction]
    rfl
  have hfree := freeAt_touchNodes nodes.elems st.nodeStatusMap
  have hcap := capacity_touchNodes nodes.elems st.nodeStatusMap
  generalize touchNodes nodes.elems st.nodeStatusMap=m at h hfree hcap
  rw [←hfree] at hname
  rcases h with ⟨hw,hr,hm⟩|⟨worker,ioThread,-,hne,hpos,hr,hm⟩
  · have hz : capacity m=0 := by
      by_contra hpos
      obtain ⟨ip,hip⟩ := capacity_pos_iff.mp (Nat.pos_of_ne_zero hpos)
      rcases routedWorker_cases hname with ⟨-,hall⟩|⟨hsome,-⟩
      · exact absurd hip (not_lt.mpr (hall ip))
      · exact hsome hw
    rw [hm]
    exact ⟨hname,by rw [←hcap,hz,Nat.zero_sub],by simp [hr,←hcap,hz],fun ip hp => by rwa [←hfree],
      by simp [hr],hrequests⟩
  · have htake := capacity_take hpos
    rw [hm]
    refine ⟨?_,?_,?_,?_,?_,hrequests⟩
    · rw [freeAt_take,if_neg (Ne.symm hne)]
      exact hname
    · rw [←hcap,List.length_singleton]
      omega
    · simp only [List.mem_singleton,forall_eq,hr,Option.isSome_some,List.length_singleton,true_iff]
      omega
    · intro ip hp
      rw [freeAt_take] at hp
      rw [←hfree]
      split at hp
      · rename_i he
        rwa [he]
      · exact hp
    · intro d' hd' target ht
      rw [List.mem_singleton.mp hd',hr,Option.some.injEq] at ht
      rw [←ht,←hfree]
      exact hpos

/-- The actions that are not skipped, each with its trigger after the arrival. -/
def produced (active : List Str) (results : List (Trigger×List TriggerAction)) :
    List (Trigger×TriggerAction) :=
  results.flatMap fun r =>
    (if r.1.triggerName∈active then [] else r.2).map fun action => (r.1,action)

section Chain

variable {T : CoordState → List (Trigger×TriggerAction) → List Dispatch → CoordState → Prop}
  (hnil : ∀ st,T st [] [] st)
  (happend : ∀ st st' st'' l l' ds es,T st l ds st' → T st' l' es st'' → T st (l++l') (ds++es) st'')
  (hstep : ∀ trigger action st st' d,dispatchAction cfg req bk trigger st action=some (st',d) →
    T st [(trigger,action)] [d] st')

include hnil happend hstep

/-- What routing one action relates, routing the actions of a trigger relates. -/
theorem dispatchActions_chain {actions : List TriggerAction} {st st' : CoordState}
    (h : dispatchActions cfg req bk trigger actions st=some (st',ds)) :
    T st (actions.map fun action => (trigger,action)) ds st' := by
  induction actions generalizing st ds with
  | nil =>
    cases h
    exact hnil _
  | cons action actions ih =>
    simp only [dispatchActions,Option.bind_eq_bind,Option.bind_eq_some_iff] at h
    obtain ⟨⟨st1,d⟩,h1,⟨st2,ds'⟩,h2,h⟩ := h
    cases h
    exact happend _ _ _ [_] _ [d] ds' (hstep _ _ _ _ _ h1) (ih h2)

/-- Routing the actions of all triggers that did not fire on the worker. -/
theorem dispatchResults_chain {results : List (Trigger×List TriggerAction)} {st st' : CoordState}
    (h : dispatchResults cfg req bk results st=some (st',ds)) :
    T st (produced req.activeTriggerNames results) ds st' := by
  induction results generalizing st ds with
  | nil =>
    cases h
    exact hnil _
  | cons r results ih =>
    simp only [dispatchResults,Option.bind_eq_bind,Option.bind_eq_some_iff] at h
    obtain ⟨⟨st1,ds1⟩,h1,⟨st2,ds2⟩,h2,h⟩ := h
    cases h
    exact happend _ _ _ _ _ ds1 ds2 (dispatchActions_chain hnil happend hstep h1) (ih h2)

end Chain

variable {results : List (Trigger×List TriggerAction)}

/-- Routing the actions of all triggers of a bucket. -/
theorem dispatchResults_spec (h : dispatchResults cfg req bk results st=some (st',ds)) :
    ds.map Dispatch.produced=produced req.activeTriggerNames results ∧ Kept st st' := by
  refine dispatchResults_chain (T:=fun st l ds st' => ds.map Dispatch.produced=l ∧ Kept st st')
    (fun st => ⟨rfl,Kept.refl st⟩) (fun _ _ _ _ _ _ _ hd he => ?_) (fun _ _ _ _ _ hd => ?_) h
  · exact ⟨by rw [List.map_append,hd.1,he.1],hd.2.trans he.2⟩
  · obtain ⟨hp,hk⟩ := dispatchAction_spec hd
    exact ⟨congrArg (fun p => [p]) hp,hk⟩

/-- Whether a trigger still holds an object that it could hand out later.
Group triggers keep keys only; the session is that of the firing object. -/
def Holds : TriggerState → Session×Key → Prop
  | .immediate _,_ => False
  | .byName _,_ => False
  | .byBatchSize t,o => o∈t.buffer
  | .bySet t,o => o.2∈t.sessionPreparedKeysMap.getD o.1 ∅
  | .dynamicGroup t,o => ∃ e∈t.dataGroupKeysMap.entries,o.2∈e.2
  | .redundant t,o => o∈t.buffer
  | .byTime t,o => o∈t.buffer

/-- Whether a trigger could produce an action again: it holds its objects. -/
def Retains (t : Trigger) (action : TriggerAction) : Prop :=
  action.sessionKeys≠[] ∧ ∀ o∈action.sessionKeys,Holds t.state o

variable {now : ℤ}

/-- A trigger that produces an action lets go of its objects. -/
theorem not_holds_of_action {target : Str} {s : TriggerState}
    (h : action∈(s.actionForNewObject target now bk).2) {o : Session×Key}
    (ho : o∈action.sessionKeys) : ¬Holds (s.actionForNewObject target now bk).1 o := by
  cases s with
  | immediate t => exact id
  | byName t => exact id
  | byBatchSize t =>
    simp only [TriggerState.actionForNewObject,ByBatchSizeTrigger.actionForNewObject] at h ⊢
    split at h
    · rename_i hf
      rw [if_pos hf]
      exact List.not_mem_nil
    · simp at h
  | bySet t =>
    simp only [TriggerState.actionForNewObject,BySetTrigger.actionForNewObject] at h ⊢
    split at h
    · rename_i hk
      split at h
      · rename_i hf
        simp only [if_pos hk,if_pos hf,List.mem_singleton] at h ⊢
        subst h
        obtain ⟨key,-,rfl⟩ := List.mem_map.mp ho
        simp [Holds,UMap.getD_erase]
      · simp at h
    · simp at h
  | dynamicGroup t =>
    simp only [TriggerState.actionForNewObject,DynamicGroupTrigger.actionForNewObject] at h ⊢
    generalize (if bk.key∈t.controlGroup then t.curControlKeys.insert bk.key else
      t.curControlKeys)=control at h ⊢
    split at h
    · rename_i hg
      split at h
      · rename_i hf
        rw [if_pos hg,if_pos hf]
        rintro ⟨e,he,-⟩
        exact absurd he List.not_mem_nil
      · simp at h
    · simp at h
  | redundant t =>
    simp only [TriggerState.actionForNewObject,RedundantTrigger.actionForNewObject] at h ⊢
    split at h
    · rename_i hk
      split at h
      · rename_i hf
        simp [if_pos hk,if_pos hf,Holds]
      · simp at h
    · split at h <;> simp at h
  | byTime t =>
    simp only [TriggerState.actionForNewObject,ByTimeTrigger.actionForNewObject] at h ⊢
    split at h
    · rename_i hf
      simp [if_pos hf,Holds]
    · simp at h

variable {active : List Str} {r : Trigger×TriggerAction}

/-- No trigger could produce again what it has just produced. -/
theorem not_retains_of_produced {triggers : List Trigger}
    (h : r∈produced active (arrivals now triggers bk)) : ¬Retains r.1 r.2 := by
  obtain ⟨x,hx,hr⟩ := List.mem_flatMap.mp h
  obtain ⟨t,-,rfl⟩ := List.mem_map.mp hx
  obtain ⟨action,ha,rfl⟩ := List.mem_map.mp hr
  have hm : action∈(t.actionForNewObject now bk).2 := by
    split at ha
    · cases ha
    · exact ha
  rintro ⟨hne,hall⟩
  obtain ⟨o,ho⟩ := List.exists_mem_of_ne_nil _ hne
  exact not_holds_of_action hm ho (hall o ho)

/-- The routed and dropped actions among the outputs. -/
def dispatches (out : List CoordOut) : List Dispatch :=
  out.filterMap fun o => match o with
    | .dispatch d => some d
    | _ => none

/-- The updates among the outputs. -/
def updates (out : List CoordOut) : List (Address×UpdateCoordMsg) :=
  out.filterMap fun o => match o with
    | .update node msg => some (node,msg)
    | _ => none

theorem dispatches_append (out out' : List CoordOut) :
    dispatches (out++out')=dispatches out++dispatches out' := List.filterMap_append

theorem updates_append (out out' : List CoordOut) :
    updates (out++out')=updates out++updates out' := List.filterMap_append

theorem dispatches_dispatch (ds : List Dispatch) : dispatches (ds.map .dispatch)=ds := by
  simp [dispatches,List.filterMap_map]

theorem updates_dispatch (ds : List Dispatch) : updates (ds.map .dispatch)=[] := by
  simp [updates,List.filterMap_map]

theorem dispatches_update (nodes : List Address) (msg : UpdateCoordMsg) :
    dispatches (nodes.map fun ip => .update ip msg)=[] := by
  simp [dispatches,List.filterMap_map]

theorem updates_update (nodes : List Address) (msg : UpdateCoordMsg) :
    updates (nodes.map fun ip => .update ip msg)=nodes.map fun ip => (ip,msg) := by
  simp [updates,List.filterMap_map]

/-- The clears that a bucket's workers are sent after an arrival. -/
def clears (nodes : USet Address) (bk : BucketKey) (names : List Str) :
    List (Address×UpdateCoordMsg) :=
  if names=[] then [] else nodes.elems.map fun ip => (ip,clearMessage bk names)

theorem outputs_notified (ds : List Dispatch) (names : List Str) (nodes : List Address)
    (msg : UpdateCoordMsg) :
    dispatches (ds.map .dispatch++if names=[] then [] else nodes.map fun ip => .update ip msg)=ds ∧
      updates (ds.map .dispatch++if names=[] then [] else nodes.map fun ip => .update ip msg)=
        if names=[] then [] else nodes.map fun ip => (ip,msg) := by
  rw [dispatches_append,updates_append,dispatches_dispatch,updates_dispatch]
  split
  · simp [dispatches,updates]
  · rw [dispatches_update,updates_update,List.append_nil,List.nil_append]
    exact ⟨rfl,rfl⟩

variable {out : List CoordOut}

/-- Advancing and routing the triggers of one bucket. -/
theorem notifyTriggers_spec
    (hres : results=arrivals now (st.bucketTriggersMap.getD bk.bucket []) bk)
    (h : notifyTriggers cfg now req bk st=some (st',out)) :
    (dispatches out).map Dispatch.produced=produced req.activeTriggerNames results ∧
      updates out=clears (st.bucketNodeMap.getD bk.bucket ∅) bk
        (triggeredNames req.activeTriggerNames results) ∧
      Kept {st with bucketTriggersMap := st.bucketTriggersMap.set bk.bucket (results.map Prod.fst)}
        st' := by
  simp only [notifyTriggers,Option.bind_eq_bind,Option.bind_eq_some_iff,←hres] at h
  obtain ⟨⟨st1,ds⟩,h1,h⟩ := h
  simp only [Option.some.injEq,Prod.mk.injEq] at h
  obtain ⟨rfl,rfl⟩ := h
  obtain ⟨hp,hk⟩ := dispatchResults_spec h1
  rw [hk.nodes]
  generalize triggeredNames req.activeTriggerNames results=names
  have hout := outputs_notified ds names (st.bucketNodeMap.getD bk.bucket ∅).elems
    (clearMessage bk names)
  rw [hout.1,hout.2]
  exact ⟨hp,rfl,hk⟩

theorem registerObject_eq_some {a : BucketKeyAddress} (h : registerObject st a=some (some st')) :
    ∃ ip host,a.ips.head?=some ip ∧ hostOf ip=some host ∧
      st'={st.recordObject (getBucketKeyFromAddr a) ip host with
        bucketKeyValMap := if a.payload=[] then st.bucketKeyValMap else
          st.bucketKeyValMap.set (getBucketKeyFromAddr a).shmKeyName a.payload} := by
  simp only [registerObject,Option.bind_eq_bind,Option.bind_eq_some_iff] at h
  obtain ⟨ip,hip,h⟩ := h
  split at h
  · rename_i hp
    obtain ⟨host,hh,h⟩ := Option.bind_eq_some_iff.mp h
    cases h
    exact ⟨ip,host,hip,hh,by rw [if_neg hp]; rfl⟩
  · rename_i hp
    split at h
    · obtain ⟨host,hh,h⟩ := Option.bind_eq_some_iff.mp h
      cases h
      exact ⟨ip,host,hip,hh,by rw [if_pos (not_not.mp hp)]; rfl⟩
    · cases h

/-- An object is passed over only without a payload, in an unknown bucket. -/
theorem registerObject_eq_none {a : BucketKeyAddress} (h : registerObject st a=some none) :
    a.payload=[] ∧ st.bucketAppMap.contains a.bucket≠true := by
  obtain ⟨ip,-,h⟩ := Option.bind_eq_some_iff.mp h
  split at h
  · obtain ⟨host,-,h⟩ := Option.bind_eq_some_iff.mp h
    cases h
  · rename_i hp
    split at h
    · obtain ⟨host,-,h⟩ := Option.bind_eq_some_iff.mp h
      cases h
    · rename_i hno
      exact ⟨not_not.mp hp,hno⟩

/-- Recording an object of a registered bucket succeeds and concerns only the
addresses and values of objects. -/
theorem registerObject_spec {address : BucketKeyAddress} {r : Option CoordState}
    (hreg : st.bucketAppMap.contains address.bucket=true) (h : registerObject st address=some r) :
    ∃ ip host st1,address.ips.head?=some ip ∧ hostOf ip=some host ∧ r=some st1 ∧
      st1.bucketTriggersMap=st.bucketTriggersMap ∧ st1.nodeStatusMap=st.nodeStatusMap ∧
      st1.bucketAppMap=st.bucketAppMap ∧
      st1.bucketNodeMap=st.bucketNodeMap.set address.bucket
        ((st.bucketNodeMap.getD address.bucket ∅).insert host) := by
  cases r with
  | some st1 =>
    obtain ⟨ip,host,hip,hh,rfl⟩ := registerObject_eq_some h
    exact ⟨ip,host,_,hip,hh,rfl,rfl,rfl,rfl,rfl⟩
  | none => exact absurd hreg (registerObject_eq_none h).2

/-- The actions that the objects of a request produce one after the other and
that did not fire on the worker. -/
def productions (now : ℤ) (active : List Str) :
    List BucketKeyAddress → UMap Bucket (List Trigger) → List (Trigger×TriggerAction)
  | [],_ => []
  | address::rest,m =>
    let results := arrivals now (m.getD address.bucket []) (getBucketKeyFromAddr address)
    produced active results++productions now active rest (m.set address.bucket (results.map Prod.fst))

variable {addresses : List BucketKeyAddress}

theorem not_retains_of_productions {m : UMap Bucket (List Trigger)}
    (h : r∈productions now active addresses m) : ¬Retains r.1 r.2 := by
  induction addresses generalizing m with
  | nil => cases h
  | cons address rest ih =>
    rcases List.mem_append.mp h with h|h
    · exact not_retains_of_produced h
    · exact ih h

theorem notifyAddresses_spec (hreg : ∀ a∈addresses,st.bucketAppMap.contains a.bucket=true)
    (h : notifyAddresses cfg now req addresses st=some (st',out)) :
    (dispatches out).map Dispatch.produced=
      productions now req.activeTriggerNames addresses st.bucketTriggersMap := by
  induction addresses generalizing st out with
  | nil =>
    simp only [notifyAddresses,Option.some.injEq,Prod.mk.injEq] at h
    obtain ⟨rfl,rfl⟩ := h
    rfl
  | cons address rest ih =>
    simp only [notifyAddresses,Option.bind_eq_bind,Option.bind_eq_some_iff] at h
    obtain ⟨r,hr,h⟩ := h
    obtain ⟨ip,host,st1,-,-,rfl,htrig,-,happ,-⟩ :=
      registerObject_spec (hreg address List.mem_cons_self) hr
    obtain ⟨⟨st2,out1⟩,h1,h⟩ := Option.bind_eq_some_iff.mp h
    obtain ⟨⟨st3,out2⟩,h2,h⟩ := Option.bind_eq_some_iff.mp h
    simp only [Option.some.injEq,Prod.mk.injEq] at h
    obtain ⟨rfl,rfl⟩ := h
    obtain ⟨hp,-,hk⟩ := notifyTriggers_spec rfl h1
    have hreg2 : ∀ a∈rest,st2.bucketAppMap.contains a.bucket=true := by
      intro a ha
      apply hk.registered
      show st1.bucketAppMap.contains a.bucket=true
      rw [happ]
      exact hreg a (List.mem_cons_of_mem _ ha)
    have hps := ih hreg2 h2
    rw [dispatches_append,List.map_append,hp,hps,hk.triggers,htrig]
    rfl

section Chain

variable {R : UMap Address NodeStatus → List Dispatch → UMap Address NodeStatus → Prop}
  (hnil : ∀ m,R m [] m)
  (happend : ∀ m m' m'' ds es,R m ds m' → R m' es m'' → R m (ds++es) m'')
  (hstep : ∀ bk trigger st action st' d,dispatchAction cfg req bk trigger st action=some (st',d) →
    R st.nodeStatusMap [d] st'.nodeStatusMap)

include hnil happend hstep

variable {st st' : CoordState}

/-- What relates the views of the workers around one action relates them
around the whole notification. -/
theorem notifyHandler_chain (h : notifyHandler cfg now st req=some (st',out)) :
    R st.nodeStatusMap (dispatches out) st'.nodeStatusMap := by
  unfold notifyHandler at h
  generalize req.addresses=addresses at h
  induction addresses generalizing st out with
  | nil =>
    cases h
    exact hnil _
  | cons a addresses ih =>
    simp only [notifyAddresses,Option.bind_eq_bind,Option.bind_eq_some_iff] at h
    obtain ⟨registered,hr,h⟩ := h
    cases registered with
    | none =>
      cases h
      exact hnil _
    | some st1 =>
      obtain ⟨⟨st2,out1⟩,h1,h⟩ := Option.bind_eq_some_iff.mp h
      obtain ⟨⟨st3,out2⟩,h2,h⟩ := Option.bind_eq_some_iff.mp h
      cases h
      obtain ⟨ip,host,-,-,rfl⟩ := registerObject_eq_some hr
      simp only [notifyTriggers,Option.bind_eq_bind,Option.bind_eq_some_iff] at h1
      obtain ⟨⟨st4,ds⟩,hds,h1⟩ := h1
      cases h1
      rw [dispatches_append,(outputs_notified ds _ _ _).1]
      have hchain := dispatchResults_chain
        (T:=fun st _ ds st' => R st.nodeStatusMap ds st'.nodeStatusMap) (fun _ => hnil _)
        (fun _ _ _ _ _ _ _ => happend _ _ _ _ _) (fun _ _ _ _ _ => hstep _ _ _ _ _ _) hds
      exact happend _ _ _ ds _ hchain (ih h2)

end Chain

/-- A whole notification takes one executor for every action. -/
theorem notifyHandler_drains (hname : freeAt st.nodeStatusMap []≤0)
    (h : notifyHandler cfg now st req=some (st',out)) :
    Drains st.nodeStatusMap st'.nodeStatusMap (dispatches out) := by
  have hstep : ∀ bk trigger st action st' d,dispatchAction cfg req bk trigger st action=some (st',d) →
      freeAt st.nodeStatusMap []≤0 → Drains st.nodeStatusMap st'.nodeStatusMap [d] :=
    fun _ _ _ _ _ _ hd hm => dispatchAction_drains hm hd
  exact notifyHandler_chain (R:=fun m ds m' => freeAt m []≤0 → Drains m m' ds)
    (fun _ hm => Drains.nil hm) (fun _ _ _ _ _ hd he hm => (hd hm).append (he (hd hm).unnamed))
    hstep h hname

/-- A notification turns every action that did not fire on the worker into
one dispatch, and each of them becomes a call to a known worker or stays with
its trigger exactly when the actions are at most as many as the free
executors of all known workers. -/
theorem notify_loses_no_action_iff (cfg : CoordConfig) (now : ℤ) (st st' : CoordState)
    (req : KeyNotifyRequest) (out : List CoordOut)
    (hreg : ∀ a∈req.addresses,st.bucketAppMap.contains a.bucket=true)
    (hname : freeAt st.nodeStatusMap []≤0)
    (h : notifyHandler cfg now st req=some (st',out)) :
    (dispatches out).map Dispatch.produced=
        productions now req.activeTriggerNames req.addresses st.bucketTriggersMap ∧
      (∀ d∈dispatches out,d.call.requests.map FunctionRequest.name=[d.action.function]) ∧
      ((∀ d∈dispatches out,(∃ ip ioThread,d.routed=some (ip,ioThread) ∧
            st.nodeStatusMap.contains ip=true) ∨ Retains d.trigger d.action) ↔
        (productions now req.activeTriggerNames req.addresses st.bucketTriggersMap).length≤
          capacity st.nodeStatusMap) := by
  have hp := notifyAddresses_spec hreg h
  have hd := notifyHandler_drains hname h
  refine ⟨hp,hd.requests,?_⟩
  rw [←hp,List.length_map,←hd.routed_iff]
  apply forall₂_congr
  intro d hm
  have hnot : ¬Retains d.trigger d.action := by
    have hmem : Dispatch.produced d∈
        productions now req.activeTriggerNames req.addresses st.bucketTriggersMap := by
      rw [←hp]
      exact List.mem_map_of_mem hm
    exact not_retains_of_productions hmem
  rw [or_iff_left hnot,Option.isSome_iff_exists]
  constructor
  · rintro ⟨ip,ioThread,hr,-⟩
    exact ⟨_,hr⟩
  · rintro ⟨worker,hr⟩
    obtain ⟨status,hf,-⟩ := find?_of_freeAt_pos (hd.destination d hm worker hr)
    exact ⟨worker.1,worker.2,hr,UMap.contains_eq_true_iff.mpr ⟨status,hf⟩⟩

/-- A coordinator with one bucket, one trigger that fires on every object and
one worker with the given number of free executors. -/
def oneWorker (free : ℤ) : CoordState :=
  ⟨∅,(∅ : UMap Bucket (List Trigger)).set (str "b") [⟨str "f",str "t",0,.immediate ⟨∅⟩⟩],
    (∅ : UMap Bucket Str).set (str "b") (str "app"),∅,∅,∅,
    (∅ : UMap Address NodeStatus).set (str "10.0.0.1") ⟨free⟩,1⟩

/-- Another worker reports an object of the bucket. -/
def oneObject : KeyNotifyRequest :=
  ⟨[],[⟨str "b",str "k",str "s",[str "tcp://10.0.0.2:6000"],[]⟩],[]⟩

/-- One I/O thread and constant random numbers. -/
def oneThread : CoordConfig := ⟨1,fun seed => (0,seed),fun l => l.length-1⟩

theorem notify_loses_no_action_iff_one_free : ∃ st' out,
    notifyHandler oneThread 0 (oneWorker 1) oneObject=some (st',out) ∧
    (dispatches out).length=1 ∧
    ∀ d∈dispatches out,(∃ ip ioThread,d.routed=some (ip,ioThread) ∧
      (oneWorker 1).nodeStatusMap.contains ip=true) ∨ Retains d.trigger d.action :=
  ⟨_,_,rfl,rfl,(notify_loses_no_action_iff oneThread 0 (oneWorker 1) _ oneObject _ (by decide)
    (by decide) rfl).2.2.mpr (by decide)⟩

/-- The only known worker is busy: the action is neither sent nor kept. -/
theorem notify_drops_action : ∃ st' out d,(oneWorker 0).nodeStatusMap.entries≠[] ∧
    (∀ a∈oneObject.addresses,(oneWorker 0).bucketAppMap.contains a.bucket=true) ∧
    notifyHandler oneThread 0 (oneWorker 0) oneObject=some (st',out) ∧
    d∈dispatches out ∧ d.trigger.triggerName∉oneObject.activeTriggerNames ∧
    d.routed=none ∧ ¬Retains d.trigger d.action :=
  ⟨_,_,_,by decide,by decide,rfl,List.mem_singleton_self _,by decide,rfl,
    fun h => h.2 (str "s",str "k") (by decide)⟩

end Pheromone.DispatchCapacity
