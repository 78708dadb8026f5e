import Pheromone.CoordinatorRefinement
import Pheromone.SlotBudgets

/-!
# Where a notification's calls are routed

A routed call goes to the worker with most free executors among those that
hold an object of it, or else among all.
-/

namespace Pheromone.DataLocalRouting

open UnorderedContainers CommonNames TriggerPrimitives OperationMessages CoordinatorNotify
open DispatchCapacity CoordinatorRefinement SlotBudgets

/-- The worker that gets a call. -/
def target (d : Dispatch) : Option Address := d.routed.map Prod.fst

/-- The workers that hold objects of a call, as its arguments name them. -/
def dataHosts (d : Dispatch) : List Address :=
  (d.call.requests.flatMap FunctionRequest.arguments).filterMap fun arg => hostOf arg.dataAddress

/-- The choice of a worker at the given numbers of free executors. -/
structure Chosen (free : Address → ℤ) (d : Dispatch) : Prop where
  /-- While a worker with data has a free executor, the one with most is taken. -/
  data : ∀ ip,target d=some ip → (∃ node∈dataHosts d,0<free node) →
    ip∈dataHosts d ∧ ∀ node∈dataHosts d,free node≤free ip
  /-- Otherwise the worker with most free executors is taken. -/
  other : ∀ ip,target d=some ip → (∀ node∈dataHosts d,free node≤0) →
    0<free ip ∧ ∀ node,free node≤free ip
  /-- A call is not sent only if nobody has a free executor. -/
  idle : target d=none → ∀ node,free node≤0

theorem Chosen.free_pos {free : Address → ℤ} {d : Dispatch} {ip : Address} (h : Chosen free d)
    (ht : target d=some ip) : 0<free ip := by
  by_cases hd : ∃ node∈dataHosts d,0<free node
  · obtain ⟨node,hn,hpos⟩ := hd
    have hle := (h.data ip ht ⟨node,hn,hpos⟩).2 node hn
    omega
  · push Not at hd
    exact (h.other ip ht hd).1

/-- Data-local routing without overcommitment, from one view of the workers
to another. -/
structure DataLocal (m : UMap Address NodeStatus) (ds : List Dispatch)
    (m' : UMap Address NodeStatus) : Prop where
  /-- Every call is routed by the rule at what the earlier ones have left. -/
  chosen : Obeys Chosen target (freeAt m) ds
  /-- A worker gets at most as many calls as it had free executors. -/
  within : ∀ ip,(taken (ds.map target) ip : ℤ)≤freeAt m ip
  /-- No number of free executors ever falls below zero. -/
  nonneg : ∀ served,served<+:ds → ∀ ip,0≤left (freeAt m) (served.map target) ip
  /-- Nothing else changes the numbers. -/
  remaining : ∀ ip,freeAt m' ip=left (freeAt m) (ds.map target) ip

theorem DataLocal.of_chosen {m m' : UMap Address NodeStatus} {ds : List Dispatch}
    (hfree : ∀ ip,0≤freeAt m ip) (h : Obeys Chosen target (freeAt m) ds)
    (hm : freeAt m'=left (freeAt m) (ds.map target)) : DataLocal m ds m' := by
  have hpos : ∀ free d ip,Chosen free d → target d=some ip → 0<free ip :=
    fun _ _ _ hd ht => hd.free_pos ht
  refine ⟨h,?_,?_,fun ip => congrFun hm ip⟩
  · intro ip
    have hleft := h.left_nonneg hpos hfree ip
    unfold left at hleft
    omega
  · rintro served ⟨rest,rfl⟩ ip
    exact (obeys_append.mp h).1.left_nonneg hpos hfree ip

variable {cfg : CoordConfig} {req : KeyNotifyRequest} {bk : BucketKey} {trigger : Trigger}

/-- The workers that are looked up for an action are those its arguments name. -/
theorem packArguments_hosts {st : CoordState} {bucket : Bucket} {argFlag : ℤ}
    {action : TriggerAction} {arguments : List Argument} {nodes : USet Address}
    (h : packArguments cfg st bucket argFlag action=some (arguments,nodes)) (ip : Address) :
    ip∈nodes ↔ ip∈arguments.filterMap fun arg => hostOf arg.dataAddress := by
  rcases packArguments_eq_some h with ⟨value,rfl,rfl⟩|⟨hosts,-,hhosts,rfl⟩
  · exact iff_of_false List.not_mem_nil (by simp [hostOf])
  · rw [filterMap_of_mapM hhosts,USet.mem_ofList]

/-- One action is routed by the rule and takes one executor of its worker. -/
theorem dispatchAction_chosen {st st' : CoordState} {action : TriggerAction} {d : Dispatch}
    (hname : freeAt st.nodeStatusMap []≤0)
    (h : dispatchAction cfg req bk trigger st action=some (st',d)) :
    Chosen (freeAt st.nodeStatusMap) d ∧
      freeAt st'.nodeStatusMap=left (freeAt st.nodeStatusMap) [target d] := by
  obtain ⟨arguments,nodes,hpack,-,-,hcall,-,h⟩ := dispatchAction_eq_some h
  have hhosts : ∀ ip,ip∈nodes ↔ ip∈dataHosts d := by
    intro ip
    rw [packArguments_hosts hpack,dataHosts,hcall]
    simp
  have hfree : freeAt (touchNodes nodes.elems st.nodeStatusMap)=freeAt st.nodeStatusMap :=
    funext fun ip => freeAt_touchNodes nodes.elems st.nodeStatusMap ip
  generalize touchNodes nodes.elems st.nodeStatusMap=m at h hfree
  rw [←hfree] at hname ⊢
  have hcases := @routedWorker_cases m nodes hname
  simp only [hhosts] at hcases
  rcases h with ⟨hw,hr,hm⟩|⟨worker,ioThread,hw,hne,hpos,hr,hm⟩
  · have ht : target d=none := by rw [target,hr,Option.map_none]
    rcases hcases with ⟨-,hall⟩|⟨hsome,-⟩
    · rw [ht,left_none,hm]
      refine ⟨⟨?_,?_,fun _ => hall⟩,rfl⟩
      · intro ip hip
        rw [ht] at hip
        cases hip
      · intro ip hip
        rw [ht] at hip
        cases hip
    · exact absurd hw hsome
  · have ht : target d=some worker := by rw [target,hr,Option.map_some]
    rw [hw] at hcases
    rcases hcases with ⟨hnil,-⟩|⟨-,-,hbest⟩
    · exact absurd hnil hne
    · constructor
      · constructor
        · intro ip hip hsome
          rw [ht,Option.some.injEq] at hip
          subst hip
          rcases hbest with hbest|⟨hnone,-⟩
          · exact hbest
          · obtain ⟨node,hn,hlt⟩ := hsome
            have hle := hnone node hn
            omega
        · intro ip hip hnone
          rw [ht,Option.some.injEq] at hip
          subst hip
          rcases hbest with ⟨hmem,-⟩|⟨-,hmax⟩
          · have hle := hnone _ hmem
            omega
          · exact ⟨hpos,hmax⟩
        · intro hnone
          rw [ht] at hnone
          cases hnone
      · funext ip
        rw [ht,left_some,hm,freeAt_take]

/-- The calls of a notification are routed by the rule, if no executor is
free under the empty address. -/
theorem notifyHandler_chosen {now : ℤ} {st st' : CoordState} {out : List CoordOut}
    (hname : freeAt st.nodeStatusMap []≤0) (h : notifyHandler cfg now st req=some (st',out)) :
    Obeys Chosen target (freeAt st.nodeStatusMap) (dispatches out) ∧
      freeAt st'.nodeStatusMap=left (freeAt st.nodeStatusMap) ((dispatches out).map target) := by
  let R := fun (m : UMap Address NodeStatus) ds (m' : UMap Address NodeStatus) => freeAt m []≤0 →
    Obeys Chosen target (freeAt m) ds ∧ freeAt m'=left (freeAt m) (ds.map target)
  have hnil : ∀ m,R m [] m := fun m _ => ⟨trivial,left_nil.symm⟩
  have happend : ∀ m m' m'' ds es,R m ds m' → R m' es m'' → R m (ds++es) m'' := by
    intro m m' m'' ds es hd he hm
    obtain ⟨hd,hm'⟩ := hd hm
    have hname' : freeAt m' []≤0 := by
      rw [hm']
      exact (left_le _ _).trans hm
    obtain ⟨he,hm''⟩ := he hname'
    rw [hm'] at he hm''
    exact ⟨obeys_append.mpr ⟨hd,he⟩,by rw [hm'',List.map_append,left_append]⟩
  have hstep : ∀ bk trigger st action st' d,dispatchAction cfg req bk trigger st action=some (st',d) →
      R st.nodeStatusMap [d] st'.nodeStatusMap := by
    intro bk trigger st action st' d hd hm
    obtain ⟨hchosen,hfree⟩ := dispatchAction_chosen hm hd
    exact ⟨⟨hchosen,trivial⟩,hfree⟩
  exact notifyHandler_chain hnil happend hstep h hname

/-- A coordinator with one bucket, one trigger that fires on every object and
the given view of the workers. -/
def viewing (m : UMap Address NodeStatus) : CoordState := {oneWorker 0 with nodeStatusMap := m}

/-- An object whose data server has no host part. -/
def hostless : KeyNotifyRequest := ⟨[],[⟨str "b",str "k",str "s",[str "tcp://:6000"],[]⟩],[]⟩

/-- The reported object. -/
def hostlessKey : BucketKey := ⟨str "b",str "k",str "s"⟩

/-- The trigger of the bucket. -/
def firing : Trigger := ⟨str "f",str "t",0,.immediate ⟨∅⟩⟩

/-- The action of the trigger. -/
def hostlessAction : TriggerAction := ⟨str "f",[(str "s",str "k")]⟩

/-- The coordinator once the object is recorded. -/
def recorded (m : UMap Address NodeStatus) : CoordState :=
  (viewing m).recordObject hostlessKey (str "tcp://:6000") []

/-- The object's action is routed to nobody or away from its data. -/
theorem hostless_routed (m : UMap Address NodeStatus) : ∃ st' out d,
    notifyHandler oneThread 0 (viewing m) hostless=some (st',out) ∧ dispatches out=[d] ∧
      dataHosts d=[[]] ∧ target d≠some [] := by
  have hregister : registerObject (viewing m) ⟨str "b",str "k",str "s",[str "tcp://:6000"],[]⟩=
      some (some (recorded m)) := rfl
  have harrivals : arrivals 0 ((recorded m).bucketTriggersMap.getD hostlessKey.bucket []) hostlessKey=
      [(firing,[hostlessAction])] := rfl
  have hpack : packArguments oneThread {recorded m with
        bucketTriggersMap := (recorded m).bucketTriggersMap.set hostlessKey.bucket [firing]}
      hostlessKey.bucket (firing.triggerOption+1) hostlessAction=
      some ([⟨getLocalObjectName (str "b") (str "k") (str "s"),1,str "tcp://:6000"⟩],
        USet.ofList [[]]) := rfl
  obtain ⟨st',d,hd,hcall⟩ := @dispatchAction_of_pack _ _ oneThread hostless hostlessKey firing
    hostlessAction _ hpack
  have hactions : dispatchActions oneThread hostless hostlessKey firing [hostlessAction] {recorded m with
      bucketTriggersMap := (recorded m).bucketTriggersMap.set hostlessKey.bucket [firing]}=
      some (st',[d]) := by
    simp only [dispatchActions,Option.bind_eq_bind,hd,Option.bind_some]
  have hskip : ¬firing.triggerName∈hostless.activeTriggerNames := by decide
  have htriggers : ∃ out,notifyTriggers oneThread 0 hostless hostlessKey (recorded m)=some (st',out) ∧
      dispatches out=[d] := by
    simp only [notifyTriggers,harrivals,dispatchResults,Option.bind_eq_bind,List.map_cons,List.map_nil,
      if_neg hskip,hactions,Option.bind_some,List.append_nil]
    exact ⟨_,rfl,(outputs_notified [d] _ _ _).1⟩
  obtain ⟨out,htriggers,hout⟩ := htriggers
  have htarget : target d≠some [] := by
    obtain ⟨arguments,nodes,-,-,-,-,-,hrouted⟩ := dispatchAction_eq_some hd
    rcases hrouted with ⟨-,hr,-⟩|⟨worker,ioThread,-,hne,-,hr,-⟩
    · simp [target,hr]
    · simp [target,hr,hne]
  refine ⟨st',out++[],d,?_,by rw [List.append_nil,hout],by rw [dataHosts,hcall]; rfl,htarget⟩
  have haddresses : hostless.addresses=[⟨str "b",str "k",str "s",[str "tcp://:6000"],[]⟩] := rfl
  have hkey : getBucketKeyFromAddr ⟨str "b",str "k",str "s",[str "tcp://:6000"],[]⟩=hostlessKey := rfl
  simp only [notifyHandler,haddresses,notifyAddresses,hregister,hkey,htriggers,Option.bind_eq_bind,
    Option.bind_some]

/-- The calls of every notification are routed data-locally and without
overcommitment exactly when no executor is free under the empty address. -/
theorem data_local_routing_iff (m : UMap Address NodeStatus) (hfree : ∀ ip,0≤freeAt m ip) :
    (∀ cfg now st st' req out,st.nodeStatusMap=m →
        notifyHandler cfg now st req=some (st',out) →
        DataLocal m (dispatches out) st'.nodeStatusMap) ↔
      freeAt m []=0 := by
  constructor
  · intro h
    obtain ⟨st',out,d,hn,hd,hhosts,ht⟩ := hostless_routed m
    have hlocal := (h oneThread 0 (viewing m) st' hostless out rfl hn).chosen
    rw [hd] at hlocal
    have hchosen := hlocal.1
    by_contra hne
    have hnonneg := hfree []
    have hpos : 0<freeAt m [] := by omega
    cases htarget : target d with
    | none =>
      have hidle := hchosen.idle htarget []
      omega
    | some ip =>
      have hdata := (hchosen.data ip htarget ⟨[],by rw [hhosts]; exact List.mem_cons_self,hpos⟩).1
      rw [hhosts,List.mem_singleton] at hdata
      rw [htarget,hdata] at ht
      exact ht rfl
  · rintro hname cfg now st st' req out rfl h
    obtain ⟨hchosen,hm⟩ := notifyHandler_chosen hname.le h
    exact DataLocal.of_chosen hfree hchosen hm

/-- A view with one worker that has one free executor. -/
def oneFree (ip : Address) : UMap Address NodeStatus := (∅ : UMap Address NodeStatus).set ip ⟨1⟩

theorem freeAt_oneFree_nonneg (worker ip : Address) : 0≤freeAt (oneFree worker) ip := by
  rw [freeAt,oneFree,UMap.getD_set]
  split
  · exact Int.one_nonneg
  · exact le_refl 0

/-- A call that is routed to the only known worker, which has no data. -/
theorem data_local_routing_one : ∃ st' out,
    notifyHandler oneThread 0 (oneWorker 1) oneObject=some (st',out) ∧
    (dispatches out).map target=[some (str "10.0.0.1")] ∧
    DataLocal (oneWorker 1).nodeStatusMap (dispatches out) st'.nodeStatusMap := by
  refine ⟨_,_,rfl,by decide +kernel,?_⟩
  exact (data_local_routing_iff _ (freeAt_oneFree_nonneg _)).mpr rfl oneThread 0 (oneWorker 1) _
    oneObject _ rfl rfl

/-- The only known worker has a free executor, but no address: the call is
not sent. -/
theorem nameless_worker_not_called : ∃ st' out d,(∀ ip,0≤freeAt (oneFree []) ip) ∧
    notifyHandler oneThread 0 (viewing (oneFree [])) oneObject=some (st',out) ∧
    dispatches out=[d] ∧ target d=none ∧ 0<freeAt (oneFree []) [] ∧
    ¬DataLocal (oneFree []) (dispatches out) st'.nodeStatusMap := by
  refine ⟨_,_,_,freeAt_oneFree_nonneg [],rfl,rfl,rfl,by decide,?_⟩
  intro hlocal
  exact absurd (hlocal.chosen.1.idle rfl []) (by decide)

end Pheromone.DataLocalRouting
