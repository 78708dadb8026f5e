import Pheromone.CappedRoundRobin
import Pheromone.DispatchCapacity

/-!
# The coordinator's call handler

A single function goes to the worker with most free executors. A batch goes
to one worker or is dealt over several, with some fields of the call.
-/

namespace Pheromone.FuncCallHandler

open UnorderedContainers CappedRoundRobin CommonNames OperationMessages CoordinatorNotify
open DispatchCapacity

/-- The workers a call may be routed to: all but the one that forwards it. -/
def eligible (source : Str) (m : UMap Address NodeStatus) : List (Address×NodeStatus) :=
  m.entries.filter fun e => decide (source=[] ∨ source≠e.1)

/-- The workers with free executors, and how many. -/
def availNodes (nodes : List (Address×NodeStatus)) : List (Address×ℤ) :=
  (nodes.filter fun e => decide (e.2.availExecutors>0)).map fun e => (e.1,e.2.availExecutors)

/-- The free executors of some workers together, added up in an `int`. -/
def totalExecutors (avail : List (Address×ℤ)) : ℤ :=
  (avail.foldl (fun (total : Int32) e => total+e.2.toInt32) 0).toInt

/-- One part of a dealt batch. Session, source and request identifier of the
call are not copied. -/
def routedCall (call : FunctionCall) (requests : List FunctionRequest) : FunctionCall :=
  ⟨call.appName,requests,[],[],call.respAddress,[],true⟩

/-- Deal the requests of a call over the workers with free executors. -/
def splitCall (avail : List (Address×ℤ)) (call : FunctionCall) :
    Option (UMap Address FunctionCall) := do
  let t ← deal call.requests.length (Table.start (avail.map Prod.snd))
  let r ← cut t.loads 0 [] call.requests
  some ((avail.zip r.1).foldl (fun m e => m.set e.1.1 (routedCall call e.2)) ∅)

/-- The messages for a batch. -/
def batchNodeMsg (nodes : List (Address×NodeStatus)) (call : FunctionCall) :
    Option (UMap Address FunctionCall) :=
  let best := mostAvailable nodes (0,[])
  if best.1≥call.requests.length then some (UMap.set ∅ best.2 call)
  else if totalExecutors (availNodes nodes)≥call.requests.length then
    splitCall (availNodes nodes) call
  else some ∅

/-- The message for at most one function. -/
def singleNodeMsg (cfg : CoordConfig) (m : UMap Address NodeStatus) (seed : UInt32)
    (call : FunctionCall) : Option (UMap Address FunctionCall×UInt32) :=
  let best := mostAvailable (eligible call.source m) (0,[])
  if best.1>0 then some (UMap.set ∅ best.2 call,seed)
  else if m.size>0 then do
    let draw := cfg.randR seed
    let entry ← m.entries[draw.1.toNat%m.size]?
    some (UMap.set ∅ entry.1 call,draw.2)
  else some (∅,seed)

/-- The message for every worker that is to get one. -/
def scheduledNodeMsg (cfg : CoordConfig) (m : UMap Address NodeStatus) (seed : UInt32)
    (call : FunctionCall) : Option (UMap Address FunctionCall×UInt32) :=
  if call.requests.length>1 then
    (batchNodeMsg (eligible call.source m) call).map fun msgs => (msgs,seed)
  else singleNodeMsg cfg m seed call

/-- Send every worker its message, to a random I/O thread. -/
def sendCalls (cfg : CoordConfig) : List (Address×FunctionCall) → UInt32 → List CoordOut×UInt32
  | [],seed => ([],seed)
  | e::rest,seed =>
    let draw := cfg.randR seed
    let tail := sendCalls cfg rest draw.2
    (.call e.1 (draw.1.toNat%cfg.ioThreadNum) e.2::tail.1,tail.2)

/-- A call without session gets a random one of sixteen letters. -/
def openSession (cfg : CoordConfig) (seed : UInt32) (call : FunctionCall) : FunctionCall×UInt32 :=
  if call.sessionId=[] then
    let id := genRandom cfg.randR seed 16
    ({call with sessionId := id.1},id.2)
  else (call,seed)

/-- The handler of a call. -/
def funcCallHandler (cfg : CoordConfig) (st : CoordState) (call : FunctionCall) :
    Option (CoordState×List CoordOut) := do
  let opened := openSession cfg st.seed call
  let r ← scheduledNodeMsg cfg st.nodeStatusMap opened.2 opened.1
  if r.1.isEmpty then
    some ({st with seed := r.2},if call.respAddress=[] then [] else
      [.callResponse call.respAddress ⟨call.appName,call.requestId,[],1⟩])
  else
    let sent := sendCalls cfg r.1.entries r.2
    some ({st with seed := sent.2},sent.1)

variable {nodes : List (Address×NodeStatus)}

theorem availNodes_pos {c : ℤ} (hc : c∈(availNodes nodes).map Prod.snd) : 0<c := by
  obtain ⟨e,he,rfl⟩ := List.mem_map.mp hc
  obtain ⟨n,hn,rfl⟩ := List.mem_map.mp he
  exact of_decide_eq_true (List.mem_filter.mp hn).2

theorem availNodes_keys (nodes : List (Address×NodeStatus)) :
    (availNodes nodes).map Prod.fst=
      (nodes.filter fun e => decide (e.2.availExecutors>0)).map Prod.fst := by
  rw [availNodes,List.map_map]
  rfl

theorem availNodes_nodup (source : Str) (m : UMap Address NodeStatus) :
    ((availNodes (eligible source m)).map Prod.fst).Nodup := by
  rw [availNodes_keys]
  exact ((List.filter_sublist.trans List.filter_sublist).map Prod.fst).nodup m.nodup

/-- What dealing a batch gives: consecutive parts of the requests, none of
them empty, for the first workers of the list, none above its capacity. -/
structure Parts (avail : List (Address×ℤ)) (call : FunctionCall) (sizes : List ℕ) : Prop where
  pos : ∀ p∈sizes,0<p
  /-- Every part has a worker. -/
  length_le : sizes.length≤avail.length
  /-- No worker gets more than it can take. -/
  le : ∀ (i : ℕ) (e : Address×ℤ) (p : ℕ),avail[i]?=some e → sizes[i]?=some p → (p : ℤ)≤e.2
  /-- The parts make up the batch. -/
  total : sizes.sum=call.requests.length

/-- The left sides of paired lists are part of the left list. -/
theorem map_fst_zip_sublist {α β : Type*} (l : List α) (l' : List β) :
    ((l.zip l').map Prod.fst).Sublist l := by
  induction l generalizing l' with
  | nil => simp
  | cons a l ih =>
    cases l' with
    | nil => simp
    | cons b l' => exact (ih l').cons_cons a

/-- The exact number of free executors. -/
def freeExecutors (avail : List (Address×ℤ)) : ℤ := (avail.map Prod.snd).sum

/-- The sum in an `int` is the exact one modulo its range. -/
theorem totalExecutors_eq (avail : List (Address×ℤ)) :
    totalExecutors avail=(freeExecutors avail).bmod (2^32) := by
  have hfold : ∀ total : Int32,(avail.foldl (fun total e => total+e.2.toInt32) total).toInt=
      (total.toInt+freeExecutors avail).bmod (2^32) := by
    induction avail with
    | nil =>
      intro total
      simp [freeExecutors]
    | cons e avail ih =>
      intro total
      have hterm : e.2.toInt32.toInt=e.2.bmod (2^32) := Int32.toInt_ofInt
      have hsum : freeExecutors (e::avail)=e.2+freeExecutors avail := List.sum_cons
      rw [List.foldl_cons,ih,Int32.toInt_add,Int.bmod_add_bmod,hterm,hsum,←add_assoc,
        Int.add_right_comm,Int.add_bmod_bmod,Int.add_right_comm]
  simpa [totalExecutors] using hfold 0

variable {avail : List (Address×ℤ)} {call : FunctionCall}

theorem freeExecutors_nonneg (hpos : ∀ c∈avail.map Prod.snd,0<c) : 0≤freeExecutors avail :=
  List.sum_nonneg fun c hc => (hpos c hc).le

/-- An overflow can only hide executors. -/
theorem totalExecutors_le (hpos : ∀ c∈avail.map Prod.snd,0<c) :
    totalExecutors avail≤freeExecutors avail := by
  have hnonneg := freeExecutors_nonneg hpos
  rw [totalExecutors_eq,Int.bmod_def]
  split <;> omega

/-- Below the bound of an `int` the sum is exact. -/
theorem totalExecutors_of_lt (hpos : ∀ c∈avail.map Prod.snd,0<c) (h : freeExecutors avail<2^31) :
    totalExecutors avail=freeExecutors avail := by
  have hnonneg := freeExecutors_nonneg hpos
  rw [totalExecutors_eq]
  exact Int.bmod_eq_of_le (by norm_num; omega) (by norm_num; omega)

/-- Where the free executors suffice both loops come to their end, and nothing
is left over. -/
theorem dealt_cut (hpos : ∀ c∈avail.map Prod.snd,0<c) (hreq : call.requests≠[])
    (hcap : (call.requests.length : ℤ)≤freeExecutors avail) :
    ∃ t sizes,Parts avail call sizes ∧
      deal call.requests.length (Table.start (avail.map Prod.snd))=some t ∧
      cut t.loads 0 [] call.requests=some (sizes.splitLengths call.requests,[]) := by
  have hne : avail.map Prod.snd≠[] := by
    intro h
    have hlen : 0<call.requests.length := List.length_pos_iff.mpr hreq
    rw [freeExecutors,h,List.sum_nil] at hcap
    omega
  obtain ⟨t,ht,hd⟩ := dealt_deal hpos (dealt_start hne hpos) call.requests.length
    (by rw [Nat.zero_add]; exact hcap)
  obtain ⟨sizes,zeros,hl,hsz⟩ := hd.loads_eq
  have hsum : sizes.sum=call.requests.length := by
    have htotal := hd.total
    rw [hl,List.sum_append,Nat.zero_add] at htotal
    simpa using htotal
  have hlen : sizes.length≤avail.length := by
    have hloads := hd.loads_length
    rw [hl,List.length_append,List.length_map] at hloads
    omega
  have hcut : cut t.loads 0 [] call.requests=some (sizes.splitLengths call.requests,[]) := by
    refine cut_eq (by rw [List.drop_zero]; exact hl) hsz [] call.requests ?_ ?_
    · exact fun p hp => hsz p (List.mem_of_mem_head? hp)
    · rw [List.length_nil,Nat.zero_add,hsum]
  refine ⟨t,sizes,⟨hsz,hlen,fun i e p he hp => ?_,hsum⟩,ht,hcut⟩
  obtain ⟨s,l,-,hload,h0,hb⟩ := hd.balance i e.2 (by rw [List.getElem?_map,he]; rfl)
  have hi : i<sizes.length := (List.getElem?_eq_some_iff.mp hp).1
  rw [hl,List.getElem?_append_left hi,hp] at hload
  have hpl : p=l := Option.some.inj hload
  omega

/-- Dealing succeeds where the free executors suffice. -/
theorem splitCall_spec (hpos : ∀ c∈avail.map Prod.snd,0<c) (hnodup : (avail.map Prod.fst).Nodup)
    (hreq : call.requests≠[]) (hcap : (call.requests.length : ℤ)≤freeExecutors avail) :
    ∃ sizes msgs,Parts avail call sizes ∧ splitCall avail call=some msgs ∧
      msgs.entries=(avail.zip (sizes.splitLengths call.requests)).map
        fun e => (e.1.1,routedCall call e.2) := by
  obtain ⟨t,sizes,hparts,ht,hcut⟩ := dealt_cut hpos hreq hcap
  have hsplit : splitCall avail call=some ((avail.zip (sizes.splitLengths call.requests)).foldl
      (fun m e => m.set e.1.1 (routedCall call e.2)) ∅) := by
    rw [splitCall,ht,Option.bind_eq_bind,Option.bind_some,hcut]
    rfl
  have hkeys : ((avail.zip (sizes.splitLengths call.requests)).map fun e => e.1.1).Nodup := by
    have hsub := (map_fst_zip_sublist avail (sizes.splitLengths call.requests)).map Prod.fst
    rw [List.map_map] at hsub
    exact hsub.nodup hnodup
  refine ⟨sizes,_,hparts,hsplit,?_⟩
  exact UMap.entries_foldl_set (fun e : (Address×ℤ)×List FunctionRequest => e.1.1)
    (fun e => routedCall call e.2) hkeys (by intro i _ hi; cases hi)

/-- The call is dealt over several workers: no eligible worker can take the
batch alone, all of them together can by the handler's sum. -/
def Splits (m : UMap Address NodeStatus) (call : FunctionCall) : Prop :=
  1<call.requests.length ∧
  (∀ e∈eligible call.source m,e.2.availExecutors<(call.requests.length : ℤ)) ∧
  (call.requests.length : ℤ)≤totalExecutors (availNodes (eligible call.source m))

instance (m : UMap Address NodeStatus) (call : FunctionCall) : Decidable (Splits m call) :=
  inferInstanceAs (Decidable (_ ∧ _ ∧ _))

/-- One eligible worker can take the batch exactly when the running maximum can. -/
theorem mostAvailable_lt_iff {n : ℕ} (hn : 0<n) :
    (mostAvailable nodes (0,[])).1<(n : ℤ) ↔ ∀ e∈nodes,e.2.availExecutors<(n : ℤ) := by
  constructor
  · intro h e he
    exact ((le_mostAvailable nodes (0,[])).2 e he).trans_lt h
  · intro h
    rcases mostAvailable_mem nodes (0,[]) with hb|⟨e,he,hb,-⟩
    · rw [hb]
      exact Int.natCast_pos.mpr hn
    · rw [hb]
      exact h e he

variable {m : UMap Address NodeStatus}

/-- A call that is not dealt travels as a whole. -/
theorem scheduledNodeMsg_whole (cfg : CoordConfig) (h : ¬Splits m call) (seed : UInt32) :
    ∃ msgs seed',scheduledNodeMsg cfg m seed call=some (msgs,seed') ∧
      ∀ e∈msgs.entries,e.2=call := by
  have hone : ∀ ip : Address,∀ e∈(UMap.set ∅ ip call).entries,e.2=call := by
    intro ip e he
    rw [List.mem_singleton.mp he]
  have hnone : ∀ e∈(∅ : UMap Address FunctionCall).entries,e.2=call := by
    intro e he
    cases he
  unfold scheduledNodeMsg
  by_cases hb : call.requests.length>1
  · rw [if_pos hb,batchNodeMsg]
    by_cases hmax : (mostAvailable (eligible call.source m) (0,[])).1≥call.requests.length
    · rw [if_pos hmax]
      exact ⟨_,seed,rfl,hone _⟩
    · have hlt := (mostAvailable_lt_iff (by omega)).mp (Int.not_le.mp hmax)
      rw [if_neg hmax,if_neg fun ht => h ⟨hb,hlt,ht⟩]
      exact ⟨_,seed,rfl,hnone⟩
  · rw [if_neg hb,singleNodeMsg]
    dsimp only
    split
    · exact ⟨_,seed,rfl,hone _⟩
    · split
      · rename_i hsize
        have hlt : (cfg.randR seed).1.toNat%m.size< m.entries.length := Nat.mod_lt _ hsize
        rw [List.getElem?_eq_getElem hlt]
        exact ⟨_,_,rfl,hone _⟩
      · exact ⟨_,seed,rfl,hnone⟩

/-- A dealt call travels in parts. -/
theorem scheduledNodeMsg_split (cfg : CoordConfig) (h : Splits m call) (seed : UInt32) :
    ∃ sizes msgs,Parts (availNodes (eligible call.source m)) call sizes ∧
      scheduledNodeMsg cfg m seed call=some (msgs,seed) ∧
      msgs.entries=((availNodes (eligible call.source m)).zip
        (sizes.splitLengths call.requests)).map fun e => (e.1.1,routedCall call e.2) := by
  obtain ⟨hb,hlt,htotal⟩ := h
  have hreq : call.requests≠[] := List.length_pos_iff.mp (by omega)
  obtain ⟨sizes,msgs,hparts,hsplit,he⟩ := splitCall_spec (fun c hc => availNodes_pos hc)
    (availNodes_nodup call.source m) hreq (htotal.trans (totalExecutors_le fun c hc => availNodes_pos hc))
  refine ⟨sizes,msgs,hparts,?_,he⟩
  have hmax := (mostAvailable_lt_iff (by omega)).mpr hlt
  rw [scheduledNodeMsg,if_pos hb,batchNodeMsg]
  rw [if_neg (Int.not_le.mpr hmax),if_pos htotal,hsplit]
  rfl

/-- Every worker with a message is sent it. -/
theorem mem_sendCalls (cfg : CoordConfig) {msgs : List (Address×FunctionCall)} (seed : UInt32)
    {node : Address} {msg : FunctionCall} :
    (∃ ioThread,CoordOut.call node ioThread msg∈(sendCalls cfg msgs seed).1) ↔
      (node,msg)∈msgs := by
  induction msgs generalizing seed with
  | nil => simp [sendCalls]
  | cons e msgs ih =>
    rw [sendCalls]
    simp only [List.mem_cons,exists_or,ih]
    refine or_congr_left ⟨?_,?_⟩
    · rintro ⟨ioThread,h⟩
      injection h with hnode _ hmsg
      exact Prod.ext hnode hmsg
    · rintro rfl
      exact ⟨_,rfl⟩

end Pheromone.FuncCallHandler
