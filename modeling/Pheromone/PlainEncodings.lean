import Pheromone.ExecutorLoop
import Pheromone.SessionPropagation

/-!
# Three ways to pass values

Values reach a function as separate arguments, joined by a coordinator, or
packed by a forwarding worker. It is called with the same in all three.
-/

namespace Pheromone.PlainEncodings

open UnorderedContainers GuardedRuns FaultingRuns DelimitedText CommonNames
open OperationMessages TriggerPrimitives SchedulerState Scheduling SchedulerLoop SchedulingRules
open ObjectTransport ObjectDispatch RequestAdmission CoordinatorNotify FuncCallHandler
open SessionPropagation ExecutorArguments ExecutorLoop

/-- An executor in any state that it reaches calls the function of a message
with these values, unless the function cannot be loaded. -/
def CallsWith (funcName : Str) (values : List Str) (msg : Str) : Prop :=
  ∀ chanId l s,run ExecutorLoop.step (Executor.start chanId) l=some s → ∀ loads finish,
    ∃ s' t,ExecutorLoop.step s (.message msg loads finish)=some s' ∧ t.Filled ∧
      t.values=values.map .chars ∧
      s'.trace=s.trace++if funcName∈s.nameFuncMap ∨ loads=true then
        [.status true,.invoked values.length t,.status false] else [.status true,.status false]

variable {values : List Str}

/-- A text that is cut into the values. -/
theorem callsWith_of_split {call : Invocation} (hflag : call.argFlag=0)
    (htext : split (terminated nulChar (call.sessionId++kDelimiter++call.funcName++
      call.funcArgs.flatMap fun arg => kDelimiter++arg)) kDelimiterChar=
        call.sessionId::call.funcName::values) (client : Address) :
    CallsWith call.funcName values (callMessage call client) := by
  intro chanId l s hrun loads finish
  have hentered : (s.entered call client).sizeOfArgs=[] := sizeOfArgs_run hrun
  obtain ⟨t,hparse,hfilled,hvalues,-⟩ := parseCall_plain values hentered
  have hcount : t.values.length=values.length := by rw [hvalues,List.length_map]
  have hmode : UInt8.ofInt call.argFlag=0 := by rw [hflag]; exact rfl
  rw [hcount,←hmode] at hparse
  obtain ⟨s',hstep,htrace⟩ := step_callMessage s call client htext hparse loads finish
  exact ⟨s',t,hstep,hfilled,hvalues,htrace⟩

/-- A worker that is ready for the function of a call sends a message to an
executor, and every executor that is sent one gives the function these
values. -/
def Delivers (funcName : Str) (values : List Str) (call : FunctionCall) : Prop :=
  ∀ cfg st,(Ready cfg st.pool funcName → ∃ executor msg,
      SchedEvent.sent (.toExecutor executor msg)∈since st (endState id (recvCall cfg st call))) ∧
    ∀ executor msg,SchedEvent.sent (.toExecutor executor msg)∈since st
      (endState id (recvCall cfg st call)) → CallsWith funcName values msg

variable {arguments : List Argument}

theorem requestArgs_plain (name : Str) (h : ∀ arg∈arguments,arg.argFlag=0) :
    requestArgs ⟨name,arguments⟩=(arguments.map Argument.body,0) := by
  have hflag : ∀ flag : ℤ,arguments.foldl (fun flag arg =>
      if arg.argFlag>0 then arg.argFlag.toInt32.toInt else flag) flag=flag := by
    intro flag
    induction arguments generalizing flag with
    | nil => rfl
    | cons arg arguments ih =>
      obtain ⟨harg,hrest⟩ := List.forall_mem_cons.mp h
      rw [List.foldl_cons,harg,if_neg (by decide)]
      exact ih hrest flag
  exact Prod.ext rfl (hflag 0)

variable {call : FunctionCall}

/-- A call of one function with values is scheduled with them. -/
theorem delivers_of_split {funcName : Str} (hreq : call.requests=[⟨funcName,arguments⟩])
    (hplain : ∀ arg∈arguments,arg.argFlag=0)
    (htext : split (terminated nulChar (call.sessionId++kDelimiter++funcName++
      (arguments.map Argument.body).flatMap fun arg => kDelimiter++arg)) kDelimiterChar=
        call.sessionId::funcName::values) : Delivers funcName values call := by
  intro cfg st
  have hargs := requestArgs_plain funcName hplain
  have hadmitted := @admitRequest_values cfg call.appName call.sessionId (openCall st call)
    ⟨funcName,arguments⟩ (by rw [hargs]; exact Int.lt_irrefl 0)
  rw [hargs] at hadmitted
  have htrace : (endState id (recvCall cfg st call)).trace=(endState id (scheduleFuncCall cfg
      (.request (openCall st call).callId) (openCall st call)
      ⟨call.sessionId,call.appName,funcName,arguments.map Argument.body,0⟩)).trace := by
    rw [recvCall,hreq,List.foldlM_cons,recvRequest,hadmitted]
    cases scheduleFuncCall cfg (.request (openCall st call).callId) (openCall st call)
        ⟨call.sessionId,call.appName,funcName,arguments.map Argument.body,0⟩ with
    | ok st' => rfl
    | error st' => rfl
  have hsince : since st (endState id (recvCall cfg st call))=since (openCall st call)
      (endState id (scheduleFuncCall cfg (.request (openCall st call).callId) (openCall st call)
        ⟨call.sessionId,call.appName,funcName,arguments.map Argument.body,0⟩)) := by
    rw [since,htrace]
    rfl
  rw [hsince]
  refine ⟨fun hready => ?_,fun executor msg hsent => ?_⟩
  · exact exists_sent hready _
  · rw [message_of_scheduleFuncCall hsent]
    exact callsWith_of_split rfl htext _

/-- An object lies in shared memory under its recorded length. -/
structure Stored (st : SchedState) (o : NamedObject) : Prop where
  length : st.keyLenMap.find? o.name=some (UInt32.ofNat o.value.length)
  /-- The segment begins with the value. -/
  memory : readShm st o.name o.value.length=some o.value

/-- The bytes of some objects together. -/
def totalSize (objs : List NamedObject) : ℕ := (objs.map fun o => o.value.length).sum

variable {objs : List NamedObject}

theorem totalDataSize_triple {total : ℕ} (h : total+totalSize objs<2^31) :
    totalDataSize (objs.map NamedObject.triple) total=some ((total+totalSize objs : ℕ) : ℤ) := by
  induction objs generalizing total with
  | nil => rfl
  | cons o objs ih =>
    have hsum : totalSize (o::objs)=o.value.length+totalSize objs := rfl
    rw [hsum] at h ⊢
    have hsize : stoi o.triple.2.2=some (o.value.length : ℤ) := stoi_decimal (by omega)
    have hrest := @ih (total+o.value.length) (by omega)
    rw [List.map_cons,totalDataSize,hsize]
    simp only [Option.bind_eq_bind,Option.bind_some]
    rw [if_pos (by omega),←Nat.cast_add,hrest,Nat.add_assoc]

variable {st : SchedState}

theorem keyLen_known {key : Str} {size : UInt32} (h : st.keyLenMap.find? key=some size) :
    keyLen st key=(size,st) := by
  have hcontains : st.keyLenMap.contains key=true := UMap.contains_eq_true_iff.mpr ⟨size,h⟩
  rw [keyLen,UMap.getD,h,UMap.touch,if_pos hcontains]
  rfl

theorem realDataArgs_stored (h : ∀ o∈objs,Stored st o) (hsize : totalSize objs<2^31) :
    realDataArgs 1 (objs.map NamedObject.triple) st=.ok (objs.map NamedObject.value,st) := by
  induction objs with
  | nil => rfl
  | cons o objs ih =>
    obtain ⟨ho,hobjs⟩ := List.forall_mem_cons.mp h
    have hsum : totalSize (o::objs)=o.value.length+totalSize objs := rfl
    have hlen : (UInt32.ofNat o.value.length).toNat=o.value.length := by
      rw [UInt32.toNat_ofNat']
      exact Nat.mod_eq_of_lt (by omega)
    have hname : tripleName o.triple=o.name := rfl
    rw [List.map_cons,realDataArgs,hname,keyLen_known ho.length]
    dsimp only
    rw [hlen,ho.memory,ih hobjs (by omega)]
    rfl

/-- A small call by key is forwarded as one request with its values. -/
theorem forwardCallViaHelper_packed (cfg : SchedulerConfig) (site : ForwardSite)
    (sessionId appName funcName : Str) (h : ∀ o∈objs,Stored st o)
    (hsize : totalSize objs<forwardDataPackingThreshold) :
    ∃ st' coord msg,forwardCallViaHelper cfg site st
        ⟨sessionId,appName,[funcName],[tripleArgs objs],1⟩=.ok st' ∧
      since st st'=[.forwarding site ⟨sessionId,appName,[funcName],[tripleArgs objs],1⟩,
        .sent (.forward coord msg)] ∧
      msg.sessionId=sessionId ∧
      msg.requests=[⟨funcName,objs.map fun o => ⟨o.value,0,[]⟩⟩] := by
  have hbound : totalSize objs<10240 := hsize
  have hts : [tripleArgs objs].mapM triples=some [objs.map NamedObject.triple] := by
    rw [List.mapM_cons,triples_tripleArgs]
    rfl
  have htotal : totalDataSize [objs.map NamedObject.triple].flatten 0=some (totalSize objs : ℤ) := by
    have hsum := @totalDataSize_triple objs 0 (by omega)
    rw [Nat.zero_add] at hsum
    rw [List.flatten_singleton]
    exact hsum
  have hsmall : ((totalSize objs : ℤ)%2^32).toNat<forwardDataPackingThreshold := by
    rw [forwardDataPackingThreshold]
    omega
  have hlogged : ∀ o∈objs,Stored (st.log (.forwarding site
      ⟨sessionId,appName,[funcName],[tripleArgs objs],1⟩)) o := fun o ho => ⟨(h o ho).1,(h o ho).2⟩
  have hdata := realDataArgs_stored hlogged (by omega)
  unfold forwardCallViaHelper
  dsimp only
  rw [if_pos (by decide),hts]
  dsimp only [orFault,bind,Except.bind]
  rw [htotal]
  dsimp only
  rw [if_pos hsmall,realDataArgsVec,hdata]
  refine ⟨_,_,_,rfl,since_eq (List.append_assoc st.trace [_] [_]),rfl,?_⟩
  exact congrArg (fun arguments => [FunctionRequest.mk funcName arguments]) List.map_map

theorem plain_genRandom (randR : UInt32 → UInt32×UInt32) (seed : UInt32) (len : ℕ) :
    Plain (genRandom randR seed len).1 := by
  have hletters : ∀ c∈alphaNum,c≠kDelimiterChar ∧ c≠nulChar := by decide +kernel
  have hdrawn : ∀ n : ℕ,alphaNum.getD (n%62) 0∈alphaNum := by
    intro n
    have hlt : n%62<alphaNum.length := Nat.mod_lt _ (by decide)
    rw [List.getD_eq_getElem?_getD,List.getElem?_eq_getElem hlt]
    exact List.getElem_mem hlt
  induction len generalizing seed with
  | zero => exact ⟨List.not_mem_nil,List.not_mem_nil⟩
  | succ len ih =>
    rw [genRandom]
    obtain ⟨hdelim,hnul⟩ := hletters _ (hdrawn (randR seed).1.toNat)
    refine ⟨fun hm => ?_,fun hm => ?_⟩
    · exact (List.mem_cons.mp hm).elim (fun he => hdelim he.symm) (ih _).1
    · exact (List.mem_cons.mp hm).elim (fun he => hnul he.symm) (ih _).2

/-- The session of a routed call is as plain as that of the call. -/
theorem plain_callSession (cfg : CoordConfig) (seed : UInt32) (h : Plain call.sessionId) :
    Plain (callSession cfg seed call) := by
  unfold callSession openSession
  split
  · exact plain_genRandom cfg.randR seed 16
  · exact h

/-- An action whose values the coordinator has becomes a call with one joined
argument. -/
theorem dispatchAction_values (cfg : CoordConfig) (req : KeyNotifyRequest) (bk : BucketKey)
    (trigger : Trigger) {st : CoordState} {action : TriggerAction}
    (h : valToBatch st bk.bucket action=some values) :
    ∃ st' d,dispatchAction cfg req bk trigger st action=some (st',d) ∧
      d.call.requests=[⟨action.function,[⟨imploded values,0,[]⟩]⟩] ∧ d.call.sessionId=bk.session := by
  have hpack : packArguments cfg {st with bucketAppMap := st.bucketAppMap.touch bk.bucket []} bk.bucket
      (trigger.triggerOption+1) action=some ([⟨imploded values,0,[]⟩],∅) := by
    have hvalues : valToBatch {st with bucketAppMap := st.bucketAppMap.touch bk.bucket []} bk.bucket
        action=some values := h
    rw [packArguments,hvalues]
  unfold dispatchAction
  dsimp only
  rw [hpack,Option.bind_eq_bind,Option.bind_some]
  dsimp only
  split
  · exact ⟨_,_,rfl,rfl,rfl⟩
  · exact ⟨_,_,rfl,rfl,rfl⟩

/-- A coordinator that knows a worker routes a call of one function to one. -/
theorem funcCallHandler_single (cfg : CoordConfig) {st : CoordState} (hreq : call.requests.length≤1)
    (hnodes : 0<st.nodeStatusMap.size) : ∃ st' node ioThread,
      funcCallHandler cfg st call=some (st',[.call node ioThread (openSession cfg st.seed call).1]) := by
  have hone : ¬(openSession cfg st.seed call).1.requests.length>1 := by
    rw [openSession_eq]
    exact Nat.not_lt.mpr hreq
  rw [funcCallHandler,scheduledNodeMsg,if_neg hone,singleNodeMsg]
  dsimp only
  split
  · exact ⟨_,_,_,rfl⟩
  · have hlt : (cfg.randR (openSession cfg st.seed call).2).1.toNat%st.nodeStatusMap.size<
        st.nodeStatusMap.entries.length := Nat.mod_lt _ hnodes
    rw [List.getElem?_eq_getElem hlt]
    exact ⟨_,_,_,rfl⟩

/-- Values that are not empty reach a function in the same way, in a session
and a function with plain names: as separate arguments of a scheduled call,
joined by the coordinator for an action whose values it has, and packed into
a forwarded call whose objects are small. A worker that is ready for the
function sends the message, and a coordinator that knows a worker routes the
forwarded call. -/
theorem plain_encodings_agree (sessionId funcName : Str) (hc : PlainCall sessionId funcName)
    (values : List Str) (hvalues : ∀ v∈values,v≠[] ∧ Plain v) :
    (∀ cfg origin st appName,(Ready cfg st.pool funcName → ∃ executor msg,
        SchedEvent.sent (.toExecutor executor msg)∈since st
          (endState id (scheduleFuncCall cfg origin st ⟨sessionId,appName,funcName,values,0⟩))) ∧
      ∀ executor msg,SchedEvent.sent (.toExecutor executor msg)∈since st
        (endState id (scheduleFuncCall cfg origin st ⟨sessionId,appName,funcName,values,0⟩)) →
          CallsWith funcName values msg) ∧
    (∀ cfg req bk trigger st action,bk.session=sessionId → action.function=funcName →
      valToBatch st bk.bucket action=some values → ∃ st' d,
        dispatchAction cfg req bk trigger st action=some (st',d) ∧ Delivers funcName values d.call) ∧
    ∀ cfg site st appName objs,(∀ o∈objs,Stored st o) → totalSize objs<forwardDataPackingThreshold →
      objs.map NamedObject.value=values → ∃ st' coord call,
        forwardCallViaHelper cfg site st ⟨sessionId,appName,[funcName],[tripleArgs objs],1⟩=.ok st' ∧
        since st st'=[.forwarding site ⟨sessionId,appName,[funcName],[tripleArgs objs],1⟩,
          .sent (.forward coord call)] ∧
        ∀ ccfg cst,∃ cst' out,funcCallHandler ccfg cst call=some (cst',out) ∧
          (0<cst.nodeStatusMap.size → ∃ node ioThread routed,CoordOut.call node ioThread routed∈out) ∧
          ∀ node ioThread routed,CoordOut.call node ioThread routed∈out →
            Delivers funcName values routed := by
  refine ⟨?_,?_,?_⟩
  · intro cfg origin st appName
    refine ⟨fun hready => exists_sent hready origin,fun executor msg hsent => ?_⟩
    rw [message_of_scheduleFuncCall hsent]
    exact callsWith_of_split rfl (split_values hc hvalues) _
  · intro cfg req bk trigger st action hsession hfunction hbatch
    obtain ⟨st',d,hdispatch,hreq,hsame⟩ := dispatchAction_values cfg req bk trigger hbatch
    have hname : PlainCall d.call.sessionId funcName := by
      rw [hsame,hsession]
      exact hc
    rw [hfunction] at hreq
    refine ⟨st',d,hdispatch,delivers_of_split hreq (List.forall_mem_singleton.mpr rfl) ?_⟩
    exact split_imploded hname fun v hv => (hvalues v hv).2
  · intro cfg site st appName objs hstored hsize hobjs
    obtain ⟨st',coord,call,hforward,hsince,hsession,hreq⟩ :=
      forwardCallViaHelper_packed cfg site sessionId appName funcName hstored hsize
    refine ⟨st',coord,call,hforward,hsince,fun ccfg cst => ?_⟩
    have hwhole : ¬Splits cst.nodeStatusMap call := by
      intro hsplit
      have hlen := hsplit.1
      rw [hreq] at hlen
      exact absurd hlen (Nat.lt_irrefl 1)
    obtain ⟨cst',out,hhandle,hout⟩ := whole_messages ccfg hwhole
    have hone : call.requests.length≤1 := by
      rw [hreq]
      exact Nat.le_refl 1
    refine ⟨cst',out,hhandle,fun hnodes => ?_,fun node ioThread routed hm => ?_⟩
    · obtain ⟨cst1,node,ioThread,hsingle⟩ := funcCallHandler_single ccfg hone hnodes
      rw [hhandle] at hsingle
      cases hsingle
      exact ⟨node,ioThread,_,List.mem_cons_self⟩
    have hrouted := (hout node ioThread routed hm).trans (openSession_eq ccfg cst.seed call)
    have hplain : PlainCall routed.sessionId funcName := by
      rw [hrouted]
      exact ⟨plain_callSession ccfg cst.seed (hsession ▸ hc.session),hc.function,hc.named⟩
    have hrequests : routed.requests=[⟨funcName,objs.map fun o => ⟨o.value,0,[]⟩⟩] := by
      rw [hrouted]
      exact hreq
    have hbodies : (objs.map fun o => Argument.mk o.value 0 []).map Argument.body=values := by
      rw [List.map_map]
      exact hobjs
    refine delivers_of_split hrequests (List.forall_mem_map.mpr fun _ _ => rfl) ?_
    rw [hbodies]
    exact split_values hplain hvalues

/-- A coordinator that has the values of two objects. -/
def twoValues : CoordState :=
  {DispatchCapacity.oneWorker 1 with
    bucketKeyValMap := UMap.set (UMap.set ∅ (str "b|ks") (str "v")) (str "b|js") (str "w")}

/-- The objects on a worker. -/
def twoObjects : List NamedObject := [⟨str "b",str "ks",str "v"⟩,⟨str "b",str "js",str "w"⟩]

/-- The worker that holds them. -/
def twoStored : SchedState :=
  {SchedState.start sampleConfig 1 with
    keyLenMap := UMap.set (UMap.set ∅ (str "b|ks") 1) (str "b|js") 1
    shm := UMap.set (UMap.set ∅ (str "b|ks") (str "v")) (str "b|js") (str "w")}

/-- A worker with a free executor sends a call to it. -/
theorem Delivers.sent {funcName : Str} (h : Delivers funcName values call) : ∃ executor msg,
    SchedEvent.sent (.toExecutor executor msg)∈since freeWorker
      (endState id (recvCall sampleConfig freeWorker call)) ∧ CallsWith funcName values msg := by
  obtain ⟨hsends,hcalls⟩ := h sampleConfig freeWorker
  obtain ⟨executor,msg,hsent⟩ := hsends (ready_freeWorker funcName)
  exact ⟨executor,msg,hsent,hcalls executor msg hsent⟩

/-- A function is called with both values, in each of the three ways. -/
theorem plain_encodings_agree_two :
    (∃ executor msg,SchedEvent.sent (.toExecutor executor msg)∈since freeWorker (endState id
        (scheduleFuncCall sampleConfig .direct freeWorker
          ⟨str "s",str "app",str "f",[str "v",str "w"],0⟩)) ∧
      CallsWith (str "f") [str "v",str "w"] msg) ∧
    (∃ st' d,dispatchAction DispatchCapacity.oneThread DispatchCapacity.oneObject
        ⟨str "b",str "j",str "s"⟩ ⟨str "f",str "t",0,.immediate ⟨∅⟩⟩ twoValues
        ⟨str "f",[(str "s",str "k"),(str "s",str "j")]⟩=some (st',d) ∧ ∃ executor msg,
      SchedEvent.sent (.toExecutor executor msg)∈since freeWorker
        (endState id (recvCall sampleConfig freeWorker d.call)) ∧
      CallsWith (str "f") [str "v",str "w"] msg) ∧
    ∃ st' coord call,forwardCallViaHelper sampleConfig .overflow twoStored
        ⟨str "s",str "app",[str "f"],[tripleArgs twoObjects],1⟩=.ok st' ∧
      SchedEvent.sent (.forward coord call)∈since twoStored st' ∧
      ∃ cst' out node ioThread routed,
        funcCallHandler DispatchCapacity.oneThread twoValues call=some (cst',out) ∧
        CoordOut.call node ioThread routed∈out ∧ ∃ executor msg,
          SchedEvent.sent (.toExecutor executor msg)∈since freeWorker
            (endState id (recvCall sampleConfig freeWorker routed)) ∧
          CallsWith (str "f") [str "v",str "w"] msg := by
  obtain ⟨hseparate,hjoined,hpacked⟩ := plain_encodings_agree (str "s") (str "f")
    ⟨by decide,by decide,by decide⟩ [str "v",str "w"] (by decide)
  refine ⟨?_,?_,?_⟩
  · obtain ⟨hsends,hcalls⟩ := hseparate sampleConfig .direct freeWorker (str "app")
    obtain ⟨executor,msg,hsent⟩ := hsends (ready_freeWorker _)
    exact ⟨executor,msg,hsent,hcalls executor msg hsent⟩
  · obtain ⟨st',d,hdispatch,hdelivers⟩ := hjoined DispatchCapacity.oneThread DispatchCapacity.oneObject
      ⟨str "b",str "j",str "s"⟩ ⟨str "f",str "t",0,.immediate ⟨∅⟩⟩ twoValues
      ⟨str "f",[(str "s",str "k"),(str "s",str "j")]⟩ rfl rfl (by decide)
    exact ⟨st',d,hdispatch,hdelivers.sent⟩
  · have hstored : ∀ o∈twoObjects,Stored twoStored o := by
      intro o ho
      rcases List.mem_cons.mp ho with rfl|ho
      · exact ⟨by decide,by decide⟩
      · rw [List.mem_singleton.mp ho]
        exact ⟨by decide,by decide⟩
    obtain ⟨st',coord,call,hforward,hsince,hrouted⟩ := hpacked sampleConfig .overflow twoStored
      (str "app") twoObjects hstored (by decide) rfl
    obtain ⟨cst',out,hhandle,hknown,hdelivers⟩ := hrouted DispatchCapacity.oneThread twoValues
    obtain ⟨node,ioThread,routed,hcall⟩ := hknown (by decide)
    refine ⟨st',coord,call,hforward,?_,cst',out,node,ioThread,routed,hhandle,hcall,
      (hdelivers node ioThread routed hcall).sent⟩
    rw [hsince]
    exact List.mem_cons_of_mem _ List.mem_cons_self

end Pheromone.PlainEncodings
