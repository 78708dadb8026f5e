import Mathlib.Data.Fintype.EquivFin
import Pheromone.CallConservation

/-!
# Free executors and calls that can be placed

The scheduler takes as many calls as it counts free executors; without
sharing the count is too large for other functions.
-/

namespace Pheromone.ReportedCapacity

open UnorderedContainers FaultingRuns CommonNames ExecutorPool SchedulerState Scheduling
open SchedulerLoop SchedulingRules ObjectTransport ObjectDispatch CallConservation

/-- Executors that are sent a call, in order. -/
def receivers (events : List SchedEvent) : List UInt8 := (events.filterMap callSent?).map Prod.fst

/-- Schedule calls one after the other. -/
def scheduleAll (cfg : SchedulerConfig) (origin : Origin) (st : SchedState) (calls : List Invocation) :
    Outcome SchedState := calls.foldlM (scheduleFuncCall cfg origin) st

/-- The reported number of free executors can be used: so many calls of any
functions are all sent to executors, and to different ones. -/
def Usable (cfg : SchedulerConfig) (st : SchedState) : Prop :=
  ∀ origin calls,calls.length≤getAvailExecutorNum st.pool.executorStatusMap →
    ∃ st',scheduleAll cfg origin st calls=.ok st' ∧
      (receivers (since st st')).length=calls.length ∧ (receivers (since st st')).Nodup

theorem receivers_append (events events' : List SchedEvent) :
    receivers (events++events')=receivers events++receivers events' := by
  rw [receivers,List.filterMap_append,List.map_append]
  rfl

variable {cfg : SchedulerConfig} {origin : Origin} {st st' : SchedState} {call : Invocation}

/-- A call is sent to the executor that was assigned to it, or to none. -/
theorem receivers_of_ok (h : scheduleFuncCall cfg origin st call=.ok st') :
    ∃ events,st'.trace=st.trace++events ∧
      ((∃ e,assignExecutor cfg.toSchedConfig st.pool call.funcName=some (e,st'.pool) ∧
        receivers events=[e]) ∨ receivers events=[]) := by
  cases scheduled_of_ok h with
  | placed executor client hassign htrace _ _ => exact ⟨_,htrace,Or.inl ⟨executor,hassign,rfl⟩⟩
  | delayed _ htrace _ _ => exact ⟨_,htrace,Or.inr rfl⟩
  | forwarded _ args _ events hevents htrace _ _ =>
    refine ⟨_,htrace,Or.inr ?_⟩
    have hsent := (forwarding_events .overflow (by decide)
      ⟨call.sessionId,call.appName,[call.funcName],[args],call.argFlag⟩ hevents).2.1
    rw [receivers,List.filterMap_cons_none rfl,hsent,List.map_nil]
  | rejected _ _ htrace _ _ => exact ⟨_,htrace,Or.inr rfl⟩

variable {e : UInt8} {pool : Pool}

theorem scheduleFuncCall_assigned
    (hassign : assignExecutor cfg.toSchedConfig st.pool call.funcName=some (e,pool))
    (hch : e∈cfg.executors) (origin : Origin) :
    ∃ st' events,scheduleFuncCall cfg origin st call=.ok st' ∧ st'.pool=pool ∧
      st'.trace=st.trace++events ∧ receivers events=[e] := by
  obtain ⟨st',hok,hpool,htrace⟩ := scheduleFuncCall_placed hassign hch origin
  exact ⟨st',_,hok,hpool,htrace,rfl⟩

/-- Executors that are available again take all functions, or there are none. -/
def Flexible (cfg : SchedulerConfig) (m : UMap UInt8 UInt8) : Prop :=
  cfg.sharedExecutor=true ∨ ∀ e,m.find? e≠some 1

/-- A free executor can take a call. -/
theorem exists_assigned (hflex : Flexible cfg st.pool.executorStatusMap)
    (havail : 0<getAvailExecutorNum st.pool.executorStatusMap) (func : Str) :
    ∃ e pool,assignExecutor cfg.toSchedConfig st.pool func=some (e,pool) := by
  obtain ⟨p,hp⟩ := List.exists_mem_of_length_pos havail
  obtain ⟨hmem,hfree⟩ := List.mem_filter.mp hp
  have hserves : p.2=0 ∨ p.2=1 ∧ (cfg.sharedExecutor=true ∨
      p.1∈st.pool.functionExecutorMap.getD func ∅) := by
    refine (of_decide_eq_true hfree).imp_right fun hone => ⟨hone,Or.inl ?_⟩
    refine hflex.resolve_right fun hnone => hnone p.1 ?_
    rw [UMap.find?_eq_some_iff,←hone]
    exact hmem
  have hsome := assignExecutor_of_free hmem hserves
  obtain ⟨⟨e,pool⟩,hassign⟩ := Option.ne_none_iff_exists'.mp hsome
  exact ⟨e,pool,hassign⟩

variable {m : UMap UInt8 UInt8}

theorem Flexible.set (h : Flexible cfg m) (e : UInt8) : Flexible cfg (m.set e 2) := by
  refine h.imp_right fun hnone e' => ?_
  rw [UMap.find?_set]
  split
  · decide
  · exact hnone e'

theorem Connected.set (h : Connected cfg m) (he : e∈cfg.executors) (status : UInt8) :
    Connected cfg (m.set e status) := by
  intro e' status' hfind
  rw [UMap.find?_set] at hfind
  split at hfind
  · rename_i hsame
    rw [hsame]
    exact he
  · exact h e' status' hfind

variable {calls : List Invocation}

/-- Calls up to the number of free executors are sent to different ones that
were free. -/
theorem usable_run (hch : Connected cfg st.pool.executorStatusMap)
    (hflex : Flexible cfg st.pool.executorStatusMap)
    (hlen : calls.length≤getAvailExecutorNum st.pool.executorStatusMap) :
    ∃ st' events,scheduleAll cfg origin st calls=.ok st' ∧ st'.trace=st.trace++events ∧
      (receivers events).length=calls.length ∧ (receivers events).Nodup ∧
      ∀ e∈receivers events,st.pool.executorStatusMap.find? e=some 0 ∨
        st.pool.executorStatusMap.find? e=some 1 := by
  induction calls generalizing st with
  | nil => exact ⟨st,[],rfl,(List.append_nil _).symm,rfl,List.nodup_nil,List.forall_mem_nil _⟩
  | cons call calls ih =>
    rw [List.length_cons] at hlen
    obtain ⟨e,pool,hassign⟩ := exists_assigned hflex (by omega) call.funcName
    obtain ⟨hcandidate,hset⟩ := assignExecutor_spec hassign
    have hfree := status_of_mem_candidates hcandidate
    have he : e∈cfg.executors := hfree.elim (hch e 0) (hch e 1)
    have hcount := getAvailExecutorNum_assignExecutor hassign
    obtain ⟨st1,events,hone,hpool,htrace,hreceiver⟩ := scheduleFuncCall_assigned hassign he origin
    have hset1 : st1.pool.executorStatusMap=st.pool.executorStatusMap.set e 2 := by rw [hpool,hset]
    obtain ⟨st',events',hrest,htrace',hlen',hnodup,hfree'⟩ := @ih st1
      (by rw [hset1]; exact Connected.set hch he 2) (by rw [hset1]; exact hflex.set e)
      (by rw [hpool]; omega)
    have hothers : ∀ e'∈receivers events',e'≠e ∧ (st.pool.executorStatusMap.find? e'=some 0 ∨
        st.pool.executorStatusMap.find? e'=some 1) := by
      intro e' he'
      have hstatus := hfree' e' he'
      rw [hset1,UMap.find?_set] at hstatus
      split at hstatus
      · rcases hstatus with h|h <;> cases h
      · rename_i hne
        exact ⟨hne,hstatus⟩
    refine ⟨st',events++events',?_,?_,?_,?_,?_⟩
    · rw [scheduleAll,List.foldlM_cons,hone]
      exact hrest
    · rw [htrace',htrace,List.append_assoc]
    · rw [receivers_append,hreceiver,List.length_append,hlen',List.length_singleton,
        List.length_cons,Nat.add_comm]
    · rw [receivers_append,hreceiver]
      exact List.nodup_cons.mpr ⟨fun hm => (hothers e hm).1 rfl,hnodup⟩
    · rw [receivers_append,hreceiver]
      exact List.forall_mem_cons.mpr ⟨hfree,fun e' he' => (hothers e' he').2⟩

/-- All executors of a function are awaited, and another one is available. -/
structure Blocked (func : Str) (e : UInt8) (pool : Pool) : Prop where
  /-- The executors of the function. -/
  owned : ∀ e'∈pool.functionExecutorMap.getD func ∅,pool.executorStatusMap.find? e'=some 2
  available : pool.executorStatusMap.find? e=some 1

variable {func : Str}

/-- Without sharing, a call of the function takes an empty executor. -/
theorem Blocked.assign {x : UInt8} {pool' : Pool} (h : Blocked func e pool)
    (hshared : cfg.sharedExecutor=false)
    (hassign : assignExecutor cfg.toSchedConfig pool func=some (x,pool')) :
    Blocked func e pool' := by
  obtain ⟨hcandidate,hset⟩ := assignExecutor_spec hassign
  have hempty : pool.executorStatusMap.find? x=some 0 := by
    refine (owned_or_empty_of_assignExecutor hshared hassign).resolve_left fun howned => ?_
    have hawaited := h.owned x howned
    rcases status_of_mem_candidates hcandidate with hfree|hfree <;>
      cases hawaited.symm.trans hfree
  refine ⟨fun e' he' => ?_,?_⟩
  · rw [hset,UMap.find?_set]
    split
    · rfl
    · rename_i hne
      rcases (mem_owned_assignExecutor hassign).mp he' with ⟨-,hsame⟩|howned
      · exact absurd hsame hne
      · exact h.owned e' howned
  · rw [hset,UMap.find?_set,if_neg]
    · exact h.available
    · rintro rfl
      cases h.available.symm.trans hempty

/-- Calls are sent to at most one executor each. -/
theorem receivers_run_le (hrun : scheduleAll cfg origin st calls=.ok st') :
    ∃ events,st'.trace=st.trace++events ∧ (receivers events).length≤ calls.length := by
  induction calls generalizing st with
  | nil =>
    cases hrun
    exact ⟨[],(List.append_nil _).symm,Nat.le_refl _⟩
  | cons call calls ih =>
    rw [scheduleAll,List.foldlM_cons] at hrun
    obtain ⟨st1,hone,hrest⟩ := bind_eq_ok hrun
    obtain ⟨events,htrace,hreceiver⟩ := receivers_of_ok hone
    obtain ⟨events',htrace',hle⟩ := ih hrest
    refine ⟨events++events',by rw [htrace',htrace,List.append_assoc],?_⟩
    rw [receivers_append,List.length_append,List.length_cons]
    rcases hreceiver with ⟨e,-,he⟩|he
    · rw [he,List.length_singleton]
      omega
    · rw [he,List.length_nil]
      omega

/-- If calls of the function are all sent, so many fewer executors are free,
and the other one still is. -/
theorem blocked_run (hshared : cfg.sharedExecutor=false) (hcalls : ∀ call∈calls,call.funcName=func)
    (h : Blocked func e st.pool) (hrun : scheduleAll cfg origin st calls=.ok st')
    (hall : (receivers (since st st')).length=calls.length) : Blocked func e st'.pool ∧
      getAvailExecutorNum st'.pool.executorStatusMap+calls.length=
        getAvailExecutorNum st.pool.executorStatusMap := by
  induction calls generalizing st with
  | nil =>
    cases hrun
    exact ⟨h,rfl⟩
  | cons call calls ih =>
    obtain ⟨hcall,hcalls⟩ := List.forall_mem_cons.mp hcalls
    rw [scheduleAll,List.foldlM_cons] at hrun
    obtain ⟨st1,hone,hrest⟩ := bind_eq_ok hrun
    obtain ⟨events,htrace,hreceiver⟩ := receivers_of_ok hone
    obtain ⟨events',htrace',hle⟩ := receivers_run_le hrest
    have hsince : since st st'=events++events' :=
      since_eq (by rw [htrace',htrace,List.append_assoc])
    rw [hsince,receivers_append,List.length_append,List.length_cons] at hall
    rcases hreceiver with ⟨x,hassign,hx⟩|hnone
    · rw [hx,List.length_singleton] at hall
      rw [hcall] at hassign
      have hcount := getAvailExecutorNum_assignExecutor hassign
      obtain ⟨hblocked,hfree⟩ := ih hcalls (h.assign hshared hassign) hrest (by
        rw [since_eq htrace']
        omega)
      refine ⟨hblocked,?_⟩
      rw [List.length_cons]
      omega
    · rw [hnone,List.length_nil] at hall
      omega

/-- There is a function that no executor has run. -/
theorem exists_new_function (m : UMap Str (USet UInt8)) : ∃ func,m.getD func ∅=∅ := by
  obtain ⟨func,hfunc⟩ := Infinite.exists_notMem_finset m.keys.toFinset
  have hnone : m.find? func=none := by
    cases hfind : m.find? func with
    | none => rfl
    | some owned =>
      have hmem := UMap.find?_eq_some_iff.mp hfind
      exact absurd (List.mem_toFinset.mpr (List.mem_map_of_mem hmem)) hfunc
  exact ⟨func,by rw [UMap.getD,hnone]; rfl⟩

/-- For any number of free executors, functions that they have run and random
numbers: so many calls of any functions are all sent, to different executors,
exactly if executors are shared or none of them is available again after a
call. -/
theorem capacity_usable_iff (cfg : SchedulerConfig) (st : SchedState)
    (hch : Connected cfg st.pool.executorStatusMap) :
    Usable cfg st ↔ cfg.sharedExecutor=true ∨ ∀ e,st.pool.executorStatusMap.find? e≠some 1 := by
  constructor
  · intro h
    by_cases hshared : cfg.sharedExecutor=true
    · exact Or.inl hshared
    · refine Or.inr fun e he => ?_
      obtain ⟨func,hfunc⟩ := exists_new_function st.pool.functionExecutorMap
      have hblocked : Blocked func e st.pool := by
        refine ⟨fun e' he' => ?_,he⟩
        rw [hfunc] at he'
        cases he'
      obtain ⟨st',hrun,hsent,-⟩ := h .direct (List.replicate
        (getAvailExecutorNum st.pool.executorStatusMap) ⟨[],[],func,[],0⟩)
        (Nat.le_of_eq List.length_replicate)
      obtain ⟨hend,hcount⟩ := blocked_run (Bool.eq_false_iff.mpr hshared)
        (fun call hcall => by rw [List.eq_of_mem_replicate hcall]) hblocked hrun hsent
      rw [List.length_replicate] at hcount
      have hpos : 0<getAvailExecutorNum st'.pool.executorStatusMap := by
        refine List.length_pos_of_mem (a:=(e,1)) (List.mem_filter.mpr
          ⟨?_,decide_eq_true (Or.inr rfl)⟩)
        exact UMap.find?_eq_some_iff.mp hend.available
      omega
  · intro hflex origin calls hlen
    obtain ⟨st',events,hrun,htrace,hsent,hnodup,-⟩ := usable_run hch hflex hlen
    refine ⟨st',hrun,?_⟩
    rw [since_eq htrace]
    exact ⟨hsent,hnodup⟩

/-- A worker with one executor in a status, which has run one function. -/
def oneExecutor (status : UInt8) : SchedState :=
  {SchedState.start sampleConfig 1 with
    pool := ⟨UMap.set ∅ 0 status,UMap.set ∅ (str "f") (USet.ofList [0]),1⟩}

theorem connected_oneExecutor (status : UInt8) :
    Connected sampleConfig (oneExecutor status).pool.executorStatusMap := by
  intro e status' h
  have hset : (UMap.set ∅ 0 status : UMap UInt8 UInt8).find? e=some status' := h
  rw [UMap.find?_set] at hset
  split at hset
  · rename_i he
    rw [he]
    decide
  · cases hset

/-- An empty executor. -/
theorem capacity_usable_empty : Usable sampleConfig (oneExecutor 0) := by
  refine (capacity_usable_iff sampleConfig (oneExecutor 0) (connected_oneExecutor 0)).mpr
    (Or.inr fun e h => ?_)
  have hset : (UMap.set ∅ 0 0 : UMap UInt8 UInt8).find? e=some 1 := h
  rw [UMap.find?_set] at hset
  split at hset <;> cases hset

/-- An executor that is available again is counted, but the call of another
function is not sent to it: as one of a batch it is taken for local execution
and then forwarded. -/
theorem counted_executor_not_usable :
    getAvailExecutorNum (oneExecutor 1).pool.executorStatusMap=1 ∧
    (∃ st',scheduleAll sampleConfig .direct (oneExecutor 1) [⟨str "s",str "app",str "g",[],0⟩]=.ok st' ∧
      receivers (since (oneExecutor 1) st')=[]) ∧
    ∃ st',directInvocation sampleConfig (oneExecutor 1) (str "app") (USet.ofList [str "g"]) 1
        ⟨str "s",str "f",[],str "b",str "k",str "v"⟩=.ok st' ∧
      receivers (since (oneExecutor 1) st')=[] ∧
      SchedEvent.forwarding .overflow ⟨str "s",str "app",[str "g"],[[str "v"]],0⟩∈
        since (oneExecutor 1) st' := by
  refine ⟨by decide +kernel,⟨_,rfl,by decide +kernel⟩,⟨_,rfl,by decide +kernel,by decide +kernel⟩⟩

end Pheromone.ReportedCapacity
