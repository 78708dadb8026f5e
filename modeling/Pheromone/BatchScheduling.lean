import Pheromone.FuncCallHandler

/-!
# A batch is partitioned among workers that can take it

If the free executors suffice, the messages hold the requests of the batch,
each once and in order. The handler adds up the free executors in an `int`:
a sum beyond its range can leave a batch that fits unscheduled.
-/

namespace Pheromone.BatchScheduling

open UnorderedContainers CappedRoundRobin CommonNames OperationMessages CoordinatorNotify
open DispatchCapacity FuncCallHandler

/-- The largest eligible worker can take the batch, or all of them can. -/
def Fits (m : UMap Address NodeStatus) (call : FunctionCall) : Prop :=
  (∃ e∈eligible call.source m,(call.requests.length : ℤ)≤e.2.availExecutors) ∨
    (call.requests.length : ℤ)≤freeExecutors (availNodes (eligible call.source m))

/-- The messages hold the requests of the call, and workers can take them. -/
structure Partitions (m : UMap Address NodeStatus) (call : FunctionCall)
    (msgs : UMap Address FunctionCall) : Prop where
  /-- Worker by worker, in the order of the list of free workers, the requests
  of the messages are those of the call. -/
  requests : ((availNodes (eligible call.source m)).filterMap
    fun e => msgs.find? e.1).flatMap FunctionCall.requests=call.requests
  /-- Every message goes to a worker with free executors that has not forwarded
  the call, and has no more requests than that worker has free executors. -/
  capacity : ∀ node msg,msgs.find? node=some msg → ∃ status,m.find? node=some status ∧
    0<status.availExecutors ∧ (call.source=[] ∨ call.source≠node) ∧
    (msg.requests.length : ℤ)≤ status.availExecutors

variable {m : UMap Address NodeStatus} {call : FunctionCall}

theorem mem_eligible {source : Str} {e : Address×NodeStatus} :
    e∈eligible source m ↔ m.find? e.1=some e.2 ∧ (source=[] ∨ source≠e.1) := by
  rw [eligible,List.mem_filter,UMap.find?_eq_some_iff,decide_eq_true_iff]

/-- A free worker is a known one with free executors that has not forwarded
the call. -/
theorem mem_availNodes {source : Str} {e : Address×ℤ} (he : e∈availNodes (eligible source m)) :
    ∃ status,m.find? e.1=some status ∧ 0<status.availExecutors ∧ (source=[] ∨ source≠e.1) ∧
      e.2=status.availExecutors := by
  obtain ⟨n,hn,rfl⟩ := List.mem_map.mp he
  obtain ⟨hmem,hpos⟩ := List.mem_filter.mp hn
  obtain ⟨hfind,hsource⟩ := mem_eligible.mp hmem
  exact ⟨n.2,hfind,of_decide_eq_true hpos,hsource,rfl⟩

/-- One worker takes the whole batch. -/
theorem partitions_whole {e : Address×NodeStatus} (he : e∈eligible call.source m)
    (hpos : 0<e.2.availExecutors) (hfit : (call.requests.length : ℤ)≤e.2.availExecutors) :
    Partitions m call (UMap.set ∅ e.1 call) := by
  obtain ⟨hfind,hsource⟩ := mem_eligible.mp he
  have hmem : e.1∈(availNodes (eligible call.source m)).map Prod.fst := by
    rw [availNodes_keys]
    exact List.mem_map_of_mem (List.mem_filter.mpr ⟨he,decide_eq_true hpos⟩)
  refine ⟨?_,fun node msg hmsg => ?_⟩
  · have hlookup := UMap.filterMap_find? (availNodes_nodup call.source m)
      (m:=UMap.set ∅ e.1 call) (List.singleton_sublist.mpr hmem)
    rw [List.filterMap_map] at hlookup
    refine (congrArg (List.flatMap FunctionCall.requests) hlookup).trans ?_
    exact List.append_nil _
  · rw [UMap.find?_set] at hmsg
    split at hmsg
    · rename_i hnode
      rw [hnode,←Option.some.inj hmsg]
      exact ⟨e.2,hfind,hpos,hsource,hfit⟩
    · cases hmsg

/-- The batch is dealt over several workers. -/
theorem partitions_dealt {sizes : List ℕ} {msgs : UMap Address FunctionCall}
    (hparts : Parts (availNodes (eligible call.source m)) call sizes)
    (hentries : msgs.entries=((availNodes (eligible call.source m)).zip
      (sizes.splitLengths call.requests)).map fun e => (e.1.1,routedCall call e.2)) :
    Partitions m call msgs := by
  have hlength : (sizes.splitLengths call.requests).length≤
      (availNodes (eligible call.source m)).length := by
    rw [List.length_splitLengths]
    exact hparts.length_le
  refine ⟨?_,fun node msg hmsg => ?_⟩
  · have hkeys : msgs.keys.Sublist ((availNodes (eligible call.source m)).map Prod.fst) := by
      have hsub := (map_fst_zip_sublist (availNodes (eligible call.source m))
        (sizes.splitLengths call.requests)).map Prod.fst
      rw [List.map_map] at hsub
      rw [UMap.keys,hentries,List.map_map]
      exact hsub
    have hlookup := UMap.filterMap_find? (availNodes_nodup call.source m) hkeys
    rw [List.filterMap_map] at hlookup
    refine (congrArg (List.flatMap FunctionCall.requests) hlookup).trans ?_
    have hflat : ((availNodes (eligible call.source m)).zip
        (sizes.splitLengths call.requests)).flatMap Prod.snd=call.requests := by
      rw [List.flatMap_def,List.map_snd_zip hlength]
      exact List.flatten_splitLengths _ _ hparts.total.ge
    rw [hentries,List.map_map,List.flatMap_map]
    exact hflat
  · have hmem := UMap.find?_eq_some_iff.mp hmsg
    rw [hentries] at hmem
    obtain ⟨⟨e,part⟩,hpair,he⟩ := List.mem_map.mp hmem
    obtain ⟨rfl,rfl⟩ := Prod.mk.inj he
    obtain ⟨i,hi⟩ := List.mem_iff_getElem?.mp hpair
    obtain ⟨havail,hpart⟩ := List.getElem?_zip_eq_some.mp hi
    obtain ⟨status,hfind,hpos,hsource,hstatus⟩ := mem_availNodes (List.mem_of_getElem? havail)
    have hsize : sizes[i]?=some part.length := by
      have hlengths := List.map_splitLengths_length call.requests sizes hparts.total.le
      rw [←hlengths,List.getElem?_map,hpart]
      rfl
    refine ⟨status,hfind,hpos,hsource,?_⟩
    rw [←hstatus]
    exact hparts.le i e _ havail hsize

/-- A batch beyond every worker and beyond the handler's sum is not scheduled. -/
theorem scheduledNodeMsg_unfit (cfg : CoordConfig) (seed : UInt32)
    (hbatch : 1<call.requests.length)
    (hlt : ∀ e∈eligible call.source m,e.2.availExecutors<(call.requests.length : ℤ))
    (htotal : totalExecutors (availNodes (eligible call.source m))<call.requests.length) :
    scheduledNodeMsg cfg m seed call=some (∅,seed) := by
  have hmax := (mostAvailable_lt_iff (by omega)).mpr hlt
  rw [scheduledNodeMsg,if_pos hbatch,batchNodeMsg,if_neg (Int.not_le.mpr hmax),
    if_neg (Int.not_le.mpr htotal)]
  rfl

/-- A batch that one worker can take goes to one that can. -/
theorem scheduledNodeMsg_fit (cfg : CoordConfig) (seed : UInt32) (hbatch : 1<call.requests.length)
    {e : Address×NodeStatus} (he : e∈eligible call.source m)
    (hfit : (call.requests.length : ℤ)≤e.2.availExecutors) :
    ∃ msgs,scheduledNodeMsg cfg m seed call=some (msgs,seed) ∧ Partitions m call msgs := by
  have hmax : (call.requests.length : ℤ)≤(mostAvailable (eligible call.source m) (0,[])).1 :=
    hfit.trans ((le_mostAvailable _ _).2 e he)
  rcases mostAvailable_mem (eligible call.source m) (0,[]) with hbest|⟨b,hb,hbest,hpos⟩
  · rw [hbest] at hmax
    omega
  · refine ⟨UMap.set ∅ b.1 call,?_,partitions_whole hb hpos (by rwa [hbest] at hmax)⟩
    rw [scheduledNodeMsg,if_pos hbatch,batchNodeMsg,if_pos hmax,hbest]
    rfl

/-- While the free executors of the eligible workers add up to an `int`, a
batch is scheduled exactly if it fits: the loops end with nothing left over,
and the messages partition the requests within the capacities. -/
theorem batch_partitioned (cfg : CoordConfig) (m : UMap Address NodeStatus) (call : FunctionCall)
    (seed : UInt32) (hbatch : 1<call.requests.length)
    (hint : freeExecutors (availNodes (eligible call.source m))<2^31) :
    (Fits m call → ∃ msgs,scheduledNodeMsg cfg m seed call=some (msgs,seed) ∧
      Partitions m call msgs) ∧
    (Splits m call → ∃ t parts,deal call.requests.length
        (Table.start ((availNodes (eligible call.source m)).map Prod.snd))=some t ∧
      cut t.loads 0 [] call.requests=some (parts,[])) ∧
    (¬Fits m call → scheduledNodeMsg cfg m seed call=some (∅,seed)) := by
  have hreq : call.requests≠[] := List.length_pos_iff.mp (by omega)
  have htotal := totalExecutors_of_lt (fun c hc => availNodes_pos hc) hint
  refine ⟨fun hfits => ?_,fun hsplits => ?_,fun hfits => ?_⟩
  · by_cases hone : ∃ e∈eligible call.source m,(call.requests.length : ℤ)≤e.2.availExecutors
    · obtain ⟨e,he,hfit⟩ := hone
      exact scheduledNodeMsg_fit cfg seed hbatch he hfit
    · have hlt : ∀ e∈eligible call.source m,e.2.availExecutors<(call.requests.length : ℤ) :=
        fun e he => not_le.mp fun hc => hone ⟨e,he,hc⟩
      obtain ⟨sizes,msgs,hparts,hmsgs,hentries⟩ :=
        scheduledNodeMsg_split cfg ⟨hbatch,hlt,(hfits.resolve_left hone).trans_eq htotal.symm⟩ seed
      exact ⟨msgs,hmsgs,partitions_dealt hparts hentries⟩
  · obtain ⟨t,sizes,-,ht,hcut⟩ := dealt_cut (fun c hc => availNodes_pos hc) hreq
      (hsplits.2.2.trans_eq htotal)
    exact ⟨t,_,ht,hcut⟩
  · refine scheduledNodeMsg_unfit cfg seed hbatch ?_ ?_
    · exact fun e he => not_le.mp fun hc => hfits (Or.inl ⟨e,he,hc⟩)
    · rw [htotal]
      exact not_le.mp fun hc => hfits (Or.inr hc)

/-- Two workers with two and one free executors, and one without. -/
def threeNodes : UMap Address NodeStatus :=
  ((UMap.set ∅ (str "10.0.0.1") ⟨2⟩).set (str "10.0.0.2") ⟨0⟩).set (str "10.0.0.3") ⟨1⟩

/-- A batch of three functions. -/
def threeCalls : FunctionCall :=
  ⟨str "app",[⟨str "f",[]⟩,⟨str "g",[]⟩,⟨str "h",[]⟩],[],[],[],str "s",false⟩

theorem batch_partitioned_three : ∃ msgs,
    scheduledNodeMsg oneThread threeNodes 0 threeCalls=some (msgs,0) ∧
    Partitions threeNodes threeCalls msgs := by
  have hfits : Fits threeNodes threeCalls := Or.inr (by decide +kernel)
  exact (batch_partitioned oneThread threeNodes threeCalls 0 (by decide) (by decide +kernel)).1 hfits

/-- Eight workers with `2^28` free executors each. -/
def eightNodes : UMap Address NodeStatus :=
  (List.range 8).foldl (fun m i => m.set (str "10.0.0."++[.ofNat (49+i)]) ⟨2^28⟩) ∅

/-- A batch of one function more than one of them can take. -/
def manyCalls : FunctionCall :=
  ⟨str "app",List.replicate (2^28+1) ⟨str "f",[]⟩,[],[],[],str "s",false⟩

/-- The batch fits eight times over, but the sum is `-2^31` in an `int` and
nothing is scheduled. -/
theorem overflow_leaves_batch : 1< manyCalls.requests.length ∧ Fits eightNodes manyCalls ∧
    scheduledNodeMsg oneThread eightNodes 0 manyCalls=some (∅,0) := by
  have hlength : manyCalls.requests.length=2^28+1 := List.length_replicate
  have hbatch : 1< manyCalls.requests.length := by
    rw [hlength]
    norm_num
  have hall : ∀ e∈eligible [] eightNodes,e.2.availExecutors=2^28 := by decide +kernel
  have hfree : freeExecutors (availNodes (eligible [] eightNodes))=2^31 := by decide +kernel
  have htotal : totalExecutors (availNodes (eligible [] eightNodes))= -2^31 := by decide +kernel
  refine ⟨hbatch,Or.inr ?_,scheduledNodeMsg_unfit oneThread 0 hbatch (fun e he => ?_) ?_⟩
  · show (manyCalls.requests.length : ℤ)≤freeExecutors (availNodes (eligible [] eightNodes))
    rw [hlength,hfree]
    norm_num
  · rw [hlength,hall e he]
    norm_num
  · show totalExecutors (availNodes (eligible [] eightNodes))<(manyCalls.requests.length : ℤ)
    rw [hlength,htotal]
    norm_num

end Pheromone.BatchScheduling
