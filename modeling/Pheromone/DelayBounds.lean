import Pheromone.CallConservation

/-!
# Delays of calls

A free executor of another function makes a waiting call go to the end of the
queue with a new time.
-/

namespace Pheromone.DelayBounds

open UnorderedContainers TokenLedgers GuardedRuns FaultingRuns CommonNames ExecutorPool
open SchedulerState SchedulerLoop CallConservation

/-- The call of a number was handed over in a step of the run in which the
clock was read so. -/
def SubmittedAt (cfg : SchedulerConfig) : SchedState → List SchedLabel → ℕ → ℤ → Prop
  | _,[],_,_ => False
  | st,a::l,i,t => ∃ st'∈step cfg st a,
    ((submissions st).length≤ i ∧ i<(submissions st').length ∧
      ∃ k<st'.tick,st.tick≤k ∧ t=cfg.clock k) ∨ SubmittedAt cfg st' l i t

instance SubmittedAt.instDecidable (cfg : SchedulerConfig) (i : ℕ) (t : ℤ) :
    (l : List SchedLabel) → (st : SchedState) → Decidable (SubmittedAt cfg st l i t)
  | [],_ => inferInstanceAs (Decidable False)
  | a::l,st =>
    have := instDecidable cfg i t l
    inferInstanceAs (Decidable (∃ st'∈step cfg st a,_ ∨ SubmittedAt cfg st' l i t))

/-- The time at which a pass over the delayed calls looks for those whose
delay is over. -/
def passTime (cfg : SchedulerConfig) (st : SchedState) : Option ℤ :=
  (retryDelayed cfg (getAvailExecutorNum st.pool.executorStatusMap) st).toOption.map fun st1 =>
    cfg.clock st1.tick

/-- Every entry of the queue carries the time at which its call was handed
over first; after a pass no call whose delay is over by then still waits. -/
structure Noted (cfg : SchedulerConfig) (st₀ : SchedState) (l : List SchedLabel) (st : SchedState)
    (L : Ledger UInt8 ℤ) : Prop where
  /-- The times of the entries are those noted with the calls. -/
  accounts : Accounts Eq cfg.rejectExtraReq st L
  /-- Noted are the times of the first submission. -/
  first : ∀ w∈L.waiting,SubmittedAt cfg st₀ l w.1 w.2
  bound : ∀ l' s t,l=l'++[.delay] → run (step cfg) st₀ l'=some s → passTime cfg s=some t →
    ∀ w∈L.waiting,Int.tdiv (t-w.2) 1000≤ cfg.schedDelayTime.toNat

variable {timed : ℤ → ℤ → Prop} {rejects : Bool} {st : SchedState} {L : Ledger UInt8 ℤ}

theorem entry_of_waiting (h : Accounts timed rejects st L) {w : ℕ×ℤ} (hw : w∈L.waiting) :
    ∃ d∈st.delayCallQueue,(submissions st)[w.1]?=some d.toInvocation ∧ timed d.triggerTime w.2 := by
  obtain ⟨i,hi,rfl⟩ := List.getElem_of_mem hw
  have hlt : i<st.delayCallQueue.length := h.waiting.length_eq ▸ hi
  exact ⟨st.delayCallQueue[i],List.getElem_mem hlt,h.waiting.get hlt hi⟩

theorem waiting_of_entry (h : Accounts timed rejects st L) {d : DelayFunctionCall}
    (hd : d∈st.delayCallQueue) :
    ∃ w∈L.waiting,(submissions st)[w.1]?=some d.toInvocation ∧ timed d.triggerTime w.2 := by
  obtain ⟨i,hi,rfl⟩ := List.getElem_of_mem hd
  have hlt : i<L.waiting.length := h.waiting.length_eq ▸ hi
  exact ⟨L.waiting[i],List.getElem_mem hlt,h.waiting.get hi hlt⟩

/-- Without sharing, the available executors have run the functions of all
calls that the pass is going to hand over. -/
def Roomy (cfg : SchedulerConfig) (st : SchedState) : SchedLabel → Prop
  | .delay => cfg.sharedExecutor=true ∨
    ∀ d∈st.delayCallQueue.take (getAvailExecutorNum st.pool.executorStatusMap),
      ∀ p∈st.pool.executorStatusMap.entries,p.2=1 → p.1∈st.pool.functionExecutorMap.getD d.funcName ∅
  | _ => True

instance (cfg : SchedulerConfig) (st : SchedState) : (l : SchedLabel) → Decidable (Roomy cfg st l)
  | .delay =>
    haveI (d : DelayFunctionCall) : Decidable (∀ p∈st.pool.executorStatusMap.entries,p.2=1 →
        p.1∈st.pool.functionExecutorMap.getD d.funcName ∅) := List.decidableBAll _ _
    inferInstanceAs (Decidable (_ ∨ _))
  | .executor _ | .update _ | .call _ | .data _ | .kvsGet _ _ | .kvsPut _ | .report _ | .write _ _ =>
    inferInstanceAs (Decidable True)

/-- What holds before a round of the first loop when so many are left. -/
structure Room (cfg : SchedulerConfig) (n : ℕ) (st : SchedState) : Prop where
  /-- There is a free executor for each of them. -/
  free : n≤getAvailExecutorNum st.pool.executorStatusMap
  /-- It can take the call. -/
  fits : cfg.sharedExecutor=true ∨ ∀ d∈st.delayCallQueue.take n,
    ∀ p∈st.pool.executorStatusMap.entries,p.2=1 → p.1∈st.pool.functionExecutorMap.getD d.funcName ∅

section

variable {cfg : SchedulerConfig} {st st' : SchedState} {n : ℕ} {d : DelayFunctionCall}
variable {rest : List DelayFunctionCall}

theorem exists_free_of_pos {m : UMap UInt8 UInt8} (h : 0<getAvailExecutorNum m) :
    ∃ p∈m.entries,p.2=0 ∨ p.2=1 := by
  obtain ⟨p,hp⟩ := List.exists_mem_of_length_pos h
  obtain ⟨hmem,hfree⟩ := List.mem_filter.mp hp
  exact ⟨p,hmem,of_decide_eq_true hfree⟩

/-- The next call finds an executor. -/
theorem Room.assigns (h : Room cfg (n+1) st) (hq : st.delayCallQueue=d::rest) :
    assignExecutor cfg.toSchedConfig st.pool d.funcName≠none := by
  obtain ⟨p,hp,hstatus⟩ := exists_free_of_pos (Nat.lt_of_lt_of_le n.succ_pos h.free)
  refine assignExecutor_of_free hp (hstatus.imp id fun hone => ⟨hone,?_⟩)
  refine h.fits.imp id fun hfits => hfits d ?_ p hp hone
  rw [hq]
  exact List.mem_cons_self

/-- After the next call there is room for the others. -/
theorem Room.next (h : Room cfg (n+1) st) (hq : st.delayCallQueue=d::rest)
    (hs : Scheduled cfg .delayed st d.toInvocation st') :
    Room cfg n {st' with delayCallQueue := st'.delayCallQueue.tail} := by
  cases hs with
  | placed executor client hassign htrace hqueue htick =>
    have hfree := h.free
    have hcount := getAvailExecutorNum_assignExecutor hassign
    have htail : st'.delayCallQueue.tail=rest := by rw [hqueue,hq]; rfl
    refine ⟨?_,h.fits.imp id fun hfits d' hd' p hp hone => ?_⟩
    · show n≤getAvailExecutorNum st'.pool.executorStatusMap
      omega
    · have hd : d'∈st.delayCallQueue.take (n+1) := by
        rw [hq]
        exact List.mem_cons_of_mem d (htail ▸ hd')
      refine (mem_owned_assignExecutor hassign).mpr (Or.inr (hfits d' hd p ?_ hone))
      have hfind : st'.pool.executorStatusMap.find? p.1=some 1 :=
        UMap.find?_eq_some_iff.mpr (hone ▸ hp)
      rw [(assignExecutor_spec hassign).2,UMap.find?_set] at hfind
      split at hfind
      · cases hfind
      · rw [UMap.find?_eq_some_iff,←hone] at hfind
        exact hfind
  | delayed hassign htrace hqueue htick => exact absurd hassign (h.assigns hq)
  | forwarded hassign args hargs events hevents htrace hqueue htick =>
    exact absurd hassign (h.assigns hq)
  | rejected hassign hreject htrace hqueue htick => exact absurd hassign (h.assigns hq)

theorem keeps_pass (hclock : Monotone cfg.clock) (hroom : Roomy cfg st .delay) :
    LeadsOr (Keeps Eq cfg) (fun _ _ => True) st id (delayForwarding cfg st) :=
  keeps_delayForwarding fun _ => keeps_retryDelayed hclock (Room cfg)
    (fun _ _ _ _ h hq hnone => absurd hnone (h.assigns hq))
    (fun _ _ _ _ _ h hq hs => h.next hq hs) _ ⟨le_refl _,hroom⟩

theorem expireDelayed_queue {now : ℤ} {calls : List DelayFunctionCall}
    (hok : expireDelayed cfg now calls st=.ok st') :
    st'.delayCallQueue=calls.dropWhile (Expired cfg now) := by
  induction calls generalizing st with
  | nil =>
    cases hok
    rfl
  | cons d calls ih =>
    rw [expireDelayed] at hok
    split at hok
    · rename_i hover
      obtain ⟨st1,-,hok⟩ := bind_eq_ok hok
      have hpos : Expired cfg now d=true := decide_eq_true hover
      rw [List.dropWhile_cons_of_pos hpos]
      exact ih hok
    · rename_i hover
      cases hok
      have hneg : ¬Expired cfg now d=true := fun h => hover (of_decide_eq_true h)
      rw [List.dropWhile_cons_of_neg hneg]

/-- After a pass the delay of no entry is over. -/
theorem bound_of_pass {L L' : Ledger UInt8 ℤ} (hclock : Monotone cfg.clock)
    (hroom : Roomy cfg st .delay) (hL : Kept Eq cfg st L) (hL' : Kept Eq cfg st' L')
    (hstep : step cfg st .delay=some st') {t : ℤ} (ht : passTime cfg st=some t) :
    ∀ w∈L'.waiting,Int.tdiv (t-w.2) 1000≤ cfg.schedDelayTime.toNat := by
  have hqueue : ∀ d∈st'.delayCallQueue,Expired cfg t d=false := by
    have hok : delayForwarding cfg st=.ok st' := SchedulingRules.step_eq_some hstep
    unfold delayForwarding at hok
    split at hok
    · rename_i hempty
      cases hok
      rw [hempty]
      nofun
    · obtain ⟨st1,hone,hok⟩ := bind_eq_ok hok
      have htime : cfg.clock st1.tick=t := by
        rw [passTime,hone] at ht
        exact Option.some.inj ht
      have hkeeps : Keeps Eq cfg st st1 :=
        keeps_retryDelayed hclock (Room cfg) (fun _ _ _ _ h hq hnone => absurd hnone (h.assigns hq))
          (fun _ _ _ _ _ h hq hs => h.next hq hs) _ ⟨le_refl _,hroom⟩ hone
      obtain ⟨L1,hL1,-⟩ := hkeeps L hL
      rw [expireDelayed_queue hok,←htime]
      exact behind_of_sorted hL1.timely.sorted _
  intro w hw
  obtain ⟨d,hd,-,htimed⟩ := entry_of_waiting hL'.accounts hw
  have hle := of_decide_eq_false (hqueue d hd)
  rw [htimed] at hle
  exact not_lt.mp hle

end

/-- The ledger along a run: what waits at its end has waited at the start or
was handed over in between, at the time that is noted. -/
theorem kept_run {cfg : SchedulerConfig} (hclock : Monotone cfg.clock) {l : List SchedLabel}
    {st₀ : SchedState} {L₀ : Ledger UInt8 ℤ} (hL₀ : Kept Eq cfg st₀ L₀)
    (hmeet : StepsMeet (step cfg) (Roomy cfg) st₀ l) (hrun : run (step cfg) st₀ l=some st) :
    ∃ L,Kept Eq cfg st L ∧ ∀ w∈L.waiting,w∈L₀.waiting ∨ SubmittedAt cfg st₀ l w.1 w.2 := by
  induction l generalizing st₀ L₀ with
  | nil =>
    cases hrun
    exact ⟨L₀,hL₀,fun w hw => Or.inl hw⟩
  | cons a l ih =>
    obtain ⟨st1,hstep,hrest⟩ := run_cons_eq_some.mp hrun
    have hkeeps : Keeps Eq cfg st₀ st1 :=
      keeps_step hclock (fun _ => rfl) (fun ha => keeps_pass hclock (ha ▸ hmeet.1)) hstep
    obtain ⟨L1,hL1,hlater⟩ := hkeeps L₀ hL₀
    obtain ⟨L,hL,hwaiting⟩ := ih hL1 (hmeet.2 st1 hstep) hrest
    refine ⟨L,hL,fun w hw => ?_⟩
    rcases hwaiting w hw with hw|hw
    · refine (hlater.waiting w hw).imp id fun ⟨hissued,k,hk,hk',ht⟩ => ?_
      obtain ⟨d,-,hnumber,-⟩ := entry_of_waiting hL1.accounts hw
      have hlt : w.1<(submissions st1).length := (List.getElem?_eq_some_iff.mp hnumber).1
      exact ⟨st1,hstep,Or.inl ⟨hL₀.accounts.issued ▸ hissued,hlt,k,hk',hk,ht⟩⟩
    · exact Or.inr ⟨st1,hstep,Or.inr hw⟩

/-- With room in every pass, and a clock that does not run backwards, entries
carry the times of the first submissions and delays are bounded. -/
theorem delay_not_reset (cfg : SchedulerConfig) (hclock : Monotone cfg.clock) (st₀ : SchedState)
    (hqueue : st₀.delayCallQueue=[]) (htrace : st₀.trace=[]) (l : List SchedLabel)
    (hmeet : StepsMeet (step cfg) (Roomy cfg) st₀ l) (st : SchedState)
    (hrun : run (step cfg) st₀ l=some st) : ∃ L,Noted cfg st₀ l st L := by
  obtain ⟨L,hL,hfirst⟩ := kept_run hclock (kept_start hqueue htrace) hmeet hrun
  refine ⟨L,hL.accounts,fun w hw => (hfirst w hw).resolve_left List.not_mem_nil,?_⟩
  intro l' s t hl hs ht
  subst hl
  obtain ⟨s',hs',hstep⟩ := run_append_eq_some.mp hrun
  cases Option.some.inj (hs.symm.trans hs')
  obtain ⟨st1,hpass,hnil⟩ := run_cons_eq_some.mp hstep
  cases hnil
  obtain ⟨hbefore,hlast⟩ := (stepsMeet_append hs).mp hmeet
  obtain ⟨L',hL',-⟩ := kept_run hclock (kept_start hqueue htrace) hbefore hs
  exact bound_of_pass hclock hlast.1 hL' hL hpass ht

/-- A worker with one executor, a delay of a millisecond and a clock that
advances by 300 microseconds at every reading. -/
def tickingConfig : SchedulerConfig := .sample [0] 1000 1 fun k => k*300000

/-- Calls for an executor that takes the first one, reports to be free again
and is looked at so often. -/
def callsThenPasses (funcs : List Str) (passes : ℕ) : List SchedLabel :=
  [.executor [1,7],.call ⟨str "app",funcs.map fun f => ⟨f,[]⟩,[],[],[],str "s",false⟩,
    .executor [1,6],.executor [1,7]]++List.replicate passes .delay

theorem delay_not_reset_same : ∃ st,
    run (step tickingConfig) (.start tickingConfig 1) (callsThenPasses [str "f",str "f",str "f"] 1)=
      some st ∧ st.delayCallQueue.length=1 ∧
      ∃ L,Noted tickingConfig (.start tickingConfig 1)
        (callsThenPasses [str "f",str "f",str "f"] 1) st L := by
  have hcomputed : ((run (step tickingConfig) (.start tickingConfig 1)
      (callsThenPasses [str "f",str "f",str "f"] 1)).map fun st =>
        decide (st.delayCallQueue.length=1))=some true := by
    decide +kernel
  have hroom : ((run (step tickingConfig) (.start tickingConfig 1)
      (callsThenPasses [str "f",str "f",str "f"] 0)).map fun st =>
        decide (Roomy tickingConfig st .delay))=some true := by
    decide +kernel
  obtain ⟨st,hst,hlength⟩ := exists_of_decided hcomputed
  obtain ⟨before,hbefore,hroomy⟩ := exists_of_decided hroom
  have hidle : ∀ a∈callsThenPasses [str "f",str "f",str "f"] 0,∀ s,Roomy tickingConfig s a := by
    intro a ha s
    simp only [callsThenPasses,List.replicate_zero,List.append_nil,List.mem_cons,
      List.not_mem_nil,or_false] at ha
    rcases ha with rfl|rfl|rfl|rfl <;> trivial
  have hmeet : StepsMeet (step tickingConfig) (Roomy tickingConfig) (.start tickingConfig 1)
      (callsThenPasses [str "f",str "f",str "f"] 0++[.delay]) :=
    (stepsMeet_append hbefore).mpr ⟨stepsMeet_of_forall hidle _,hroomy,fun _ _ => trivial⟩
  refine ⟨st,hst,hlength,?_⟩
  refine delay_not_reset tickingConfig (fun i j hij => ?_) _ rfl rfl _ hmeet st hst
  show (i : ℤ)*300000≤ (j : ℤ)*300000
  omega

/-- The free executor has run another function: the call goes to the end of
the queue in every pass, with a new time. It was handed over at 300
microseconds and still waits after the pass at 1500. -/
theorem retry_resets_delay : ∃ st,
    run (step tickingConfig) (.start tickingConfig 1) (callsThenPasses [str "f",str "g"] 2)=some st ∧
      st.delayCallQueue.map DelayFunctionCall.triggerTime=[1200000] ∧
      SubmittedAt tickingConfig (.start tickingConfig 1) (callsThenPasses [str "f",str "g"] 2) 1
        300000 ∧
      ((run (step tickingConfig) (.start tickingConfig 1)
        (callsThenPasses [str "f",str "g"] 1)).bind (passTime tickingConfig))=some 1500000 ∧
      ¬∃ L,Noted tickingConfig (.start tickingConfig 1) (callsThenPasses [str "f",str "g"] 2) st L := by
  have hcomputed : ((run (step tickingConfig) (.start tickingConfig 1)
      (callsThenPasses [str "f",str "g"] 2)).map fun st =>
        decide (st.delayCallQueue.map DelayFunctionCall.triggerTime=[1200000] ∧
          (submissions st).length=2))=some true := by
    decide +kernel
  obtain ⟨st,hst,htimes,hcalls⟩ := exists_of_decided hcomputed
  refine ⟨st,hst,htimes,by decide +kernel,by decide +kernel,fun ⟨L,hL⟩ => ?_⟩
  have hnever : ∀ i<2,¬SubmittedAt tickingConfig (.start tickingConfig 1)
      (callsThenPasses [str "f",str "g"] 2) i 1200000 := by
    decide +kernel
  obtain ⟨d,hd,htime⟩ := List.mem_map.mp (htimes ▸ List.mem_singleton_self (1200000 : ℤ))
  obtain ⟨w,hw,hnumber,hnoted⟩ := waiting_of_entry hL.accounts hd
  have hlt : w.1<(submissions st).length := (List.getElem?_eq_some_iff.mp hnumber).1
  have hfirst := hL.first w hw
  rw [←hnoted,htime] at hfirst
  exact hnever w.1 (hcalls ▸ hlt) hfirst

end Pheromone.DelayBounds
