import Pheromone.ArgumentLayouts
import Pheromone.CallRules
import Pheromone.SchedulerFrames
import Pheromone.TriggerCaches

/-!
# The arguments of forwarded calls

Calls by key name their objects in pairs. Only one of the three places that
forward them converts the pairs.
-/

namespace Pheromone.ForwardedArguments

open UnorderedContainers GuardedRuns FaultingRuns CommonNames TriggerPrimitives
open OperationMessages WorkerUpdates SchedulerState Scheduling SchedulerLoop SchedulerFrames
open SchedulingRules CallRules ArgumentLayouts TriggerCaches

variable {st st' : SchedState} {cfg : SchedulerConfig}

/-- A call by key has its arguments in pairs. -/
def Keyed (argFlag : ℤ) (args : List Str) : Prop := argFlag>0 → PairLayout args

/-- A remembered call by key has its arguments in pairs. -/
def KeyedCall (m : TriggerFunctionMetadata) : Prop := Keyed m.argFlag m.funcArgs

/-- The arguments with which the calls of a forwarding came in: those of the
scheduled call recorded just before it, or, where the caller passes on what
it has, the forwarded ones. -/
def originals (before : List SchedEvent) (site : ForwardSite) (call : ForwardRequest) :
    List (List Str) :=
  match site,before.getLast? with
  | .overflow,some (.scheduled _ original) => [original.funcArgs]
  | _,_ => call.funcArgsVec

variable {before : List SchedEvent} {origin : Origin} {call : ForwardRequest}

theorem originals_overflow {original : Invocation}
    (h : before.getLast?=some (.scheduled origin original)) :
    originals before .overflow call=[original.funcArgs] := by
  unfold originals
  rw [h]

/-- How a forwarding by key is recorded. -/
structure Recorded (before : List SchedEvent) (site : ForwardSite) (call : ForwardRequest) : Prop where
  /-- The calls came in with pairs. -/
  layout : ∀ args∈originals before site call,PairLayout args
  /-- Without executor, the scheduled call is forwarded. -/
  overflow : site=.overflow → ∃ origin original args,
    before.getLast?=some (.scheduled origin original) ∧ overflowArgs original=some args ∧
    call=overflowRequest original args

/-- All forwardings by key are recorded so. -/
def TraceLaid (trace : List SchedEvent) : Prop :=
  ∀ before site call after,trace=before++.forwarding site call::after → call.argFlag>0 →
    Recorded before site call

/-- Calls by key wait and are remembered in pairs. -/
structure Laid (st : SchedState) : Prop where
  delayed : ∀ call∈st.delayCallQueue,Keyed call.argFlag call.funcArgs
  cached : Triggers (Remembers KeyedCall) st.tables
  trace : TraceLaid st.trace

theorem laid_start (cfg : SchedulerConfig) (seed : UInt32) : Laid (SchedState.start cfg seed) := by
  refine ⟨fun _ h => absurd h List.not_mem_nil,triggers_start,fun before site call after h => ?_⟩
  have hempty : []=before++.forwarding site call::after := h
  simp at hempty

variable {e : SchedEvent}

theorem TraceLaid.snoc {trace : List SchedEvent} (h : TraceLaid trace)
    (he : ∀ site call,e=.forwarding site call → call.argFlag>0 → Recorded trace site call) :
    TraceLaid (trace++[e]) := by
  intro before site call after heq hflag
  rcases List.append_eq_append_iff.mp heq with ⟨mid,hbefore,hend⟩|⟨mid,htrace,hend⟩
  · cases mid with
    | nil =>
      rw [List.append_nil] at hbefore
      rw [hbefore]
      exact he site call (List.cons.inj hend).1 hflag
    | cons x mid =>
      have hl := congrArg List.length hend
      simp at hl
  · cases mid with
    | nil =>
      rw [List.append_nil] at htrace
      rw [←htrace]
      exact he site call (List.cons.inj hend).1.symm hflag
    | cons x mid =>
      obtain ⟨rfl,-⟩ := List.cons.inj hend
      exact h before site call mid htrace hflag

/-- Events other than forwardings. -/
def Unforwarded (e : SchedEvent) : Prop := ∀ site call,e≠.forwarding site call

theorem Laid.log (h : Laid st) (he : Unforwarded e) : Laid (st.log e) :=
  ⟨h.delayed,h.cached,h.trace.snoc fun site call heq => absurd heq (he site call)⟩

theorem Laid.setTables (h : Laid st) {w : WorkerTables} (hw : Triggers (Remembers KeyedCall) w) :
    Laid {st with tables := w} := ⟨h.delayed,hw,h.trace⟩

variable {site : ForwardSite}

theorem recorded_passed (hs : site≠.overflow) (h : ∀ args∈call.funcArgsVec,PairLayout args) :
    Recorded before site call := by
  refine ⟨?_,fun he => absurd he hs⟩
  cases site with
  | overflow => exact absurd rfl hs
  | _ => exact h

variable {args : List Str}

theorem recorded_overflow {call : Invocation} (hcall : PairLayout call.funcArgs)
    (hargs : overflowArgs call=some args) (hlast : before.getLast?=some (.scheduled origin call)) :
    Recorded before .overflow (overflowRequest call args) := by
  refine ⟨fun a ha => ?_,fun _ => ⟨origin,call,args,hlast,hargs,rfl⟩⟩
  rw [originals_overflow hlast] at ha
  exact List.mem_singleton.mp ha ▸ hcall

theorem laid_noteHints {call : Invocation} (hcall : Keyed call.argFlag call.funcArgs) (schedTime : ℤ)
    (h : Laid st) : Laid (noteHints call schedTime st) := by
  have htouch : Laid {st with
      tables := {st.tables with
        funcTriggerTimeoutMap := st.tables.funcTriggerTimeoutMap.touch call.funcName []}} :=
    h.setTables (h.cached.of_eq rfl rfl)
  exact List.foldlRecOn (motive:=Laid) _ (noteHint call schedTime) htouch fun u hu hint _ =>
    ⟨hu.delayed,hu.cached.notifyPointer hcall hint.triggerPtr,hu.trace⟩

theorem pairLayout_nil : PairLayout [] := ⟨[],rfl,fun _ h => absurd h List.not_mem_nil⟩

theorem pairLayout_cons (h : PairLayout args) (name : Str) {size : Str} (hs : size≠[])
    (hd : kDelimiterChar∉size) : PairLayout (name::size::args) := by
  obtain ⟨objs,rfl,hobjs⟩ := h
  exact ⟨(name,size)::objs,rfl,List.forall_mem_cons.mpr ⟨⟨hs,hd⟩,hobjs⟩⟩

theorem pairLayout_sizedArgs (names : List Str) (st : SchedState) :
    PairLayout (sizedArgs names st).1 := by
  induction names generalizing st with
  | nil => exact pairLayout_nil
  | cons name names ih =>
    exact pairLayout_cons (ih _) name (DelimitedText.decimal_ne_nil _) (delimiter_not_mem_decimal _)

theorem keyed_activeFuncMetadata (bucket : Bucket) (argFlag : ℤ) (actions : List TriggerAction)
    (st : SchedState) : ∀ m∈(activeFuncMetadata bucket argFlag actions st).1,KeyedCall m := by
  induction actions generalizing argFlag st with
  | nil => exact fun _ h => absurd h List.not_mem_nil
  | cons action actions ih =>
    rw [activeFuncMetadata]
    dsimp only
    split
    · refine List.forall_mem_cons.mpr ⟨fun hflag => ?_,ih 0 st⟩
      exact absurd hflag (lt_irrefl 0)
    · exact List.forall_mem_cons.mpr ⟨fun _ => pairLayout_sizedArgs _ st,ih argFlag _⟩

theorem keyed_activeFuncMetadatas (bucket : Bucket) (results : List (Trigger×List TriggerAction))
    (st : SchedState) : ∀ m∈(activeFuncMetadatas bucket results st).1,KeyedCall m := by
  induction results generalizing st with
  | nil => exact fun _ h => absurd h List.not_mem_nil
  | cons r results ih =>
    exact List.forall_mem_append.mpr ⟨keyed_activeFuncMetadata bucket _ r.2 st,ih _⟩

variable {isDataPacking : UInt8} {info : ObjectInfo}

theorem keyed_directArgs (h : isDataPacking=2 → info.value≠[] ∧ kDelimiterChar∉info.value) :
    Keyed (directArgs isDataPacking info).2 (directArgs isDataPacking info).1 := by
  unfold directArgs
  split
  · exact fun hflag => absurd hflag (lt_irrefl 0)
  · split
    · rename_i hp
      obtain ⟨hs,hd⟩ := h hp
      exact fun _ => pairLayout_cons pairLayout_nil info.objName hs hd
    · exact fun _ => pairLayout_nil

theorem recordObject_size (h : recordObject st isDataPacking info=.ok st') (hp : isDataPacking=2) :
    info.value≠[] := by
  intro hv
  have hnone : stoi info.value=none := by rw [hv]; rfl
  subst hp
  rw [recordObject,if_neg (by decide),if_pos rfl,hnone] at h
  cases h

/-- The layout as an invariant about calls. -/
theorem laid_rules : CallInvariant (fun call => Keyed call.argFlag call.funcArgs) (fun _ => True)
    Unforwarded Laid where
  toReadFrame := .of_idle (fun _ _ hi h => ⟨hi.delayCallQueue ▸ h.delayed,
      h.cached.of_eq hi.triggers.1 hi.triggers.2.1,hi.trace ▸ h.trace⟩)
    (fun _ _ _ h h' hl => h' (h hl)) fun _ _ he h => h.log he
  numbers _ _ _ h := ⟨h.delayed,h.cached,h.trace⟩
  awaited _ _ h := ⟨h.delayed,h.cached,h.trace⟩
  puts _ _ h := ⟨h.delayed,h.cached,h.trace⟩
  requested _ _ := nofun
  scheduled _ _ _ := nofun
  sent _ _ := nofun
  forwarded _ _ _ _ _ _ := nofun
  overflow st origin call args hok hargs hlast h := by
    refine ⟨h.delayed,h.cached,h.trace.snoc fun site call' heq hflag => ?_⟩
    cases heq
    exact recorded_overflow (hok hflag) hargs hlast
  passed st site call hsite hcall h := by
    refine ⟨h.delayed,h.cached,h.trace.snoc fun site' call' heq hflag => ?_⟩
    cases heq
    refine recorded_passed hsite fun args ha => ?_
    obtain ⟨func,hkeyed⟩ := hcall.of_mem ha
    exact hkeyed hflag
  delayed _ h := h.delayed
  delay _ _ hcalls h := ⟨hcalls,h.cached,h.trace⟩
  waiting _ _ _ := trivial
  wait _ _ _ _ h := ⟨h.delayed,h.cached,h.trace⟩
  settle _ _ h := ⟨h.delayed,h.cached,h.trace⟩
  arrive _ _ _ := trivial
  complete _ _ _ _ _ _ := pairLayout_sizedArgs _ _
  noteHints _ _ time hcall h := laid_noteHints hcall time h
  rerunCheckQueue _ _ _ h := ⟨h.delayed,h.cached,h.trace⟩
  rerun _ _ _ _ h _ ht hm _ _ := remembers_actionForRerun (h.cached.pointerTrigger ht) hm
  keyLenMap _ _ h := ⟨h.delayed,h.cached,h.trace⟩
  keyValMap _ _ h := ⟨h.delayed,h.cached,h.trace⟩
  gets _ _ h := ⟨h.delayed,h.cached,h.trace⟩
  arrivedAt cfg st bk h := ⟨h.delayed,
    h.cached.setBucket bk.bucket (forall_arrivals
      (fun _ hp => remembers_actionForNewObject hp (cfg.clock st.tick) bk) (h.cached.bucket bk.bucket)),
    h.trace⟩

variable {l : SchedLabel}

/-- Calls that enter with keys have them in pairs. -/
theorem sound_keyed (cfg : SchedulerConfig) (hl : ∀ msg,l≠.update msg) :
    Sound (fun call => Keyed call.argFlag call.funcArgs) (fun _ => True) Laid cfg l := by
  cases l with
  | executor msg =>
    intro _ isDataPacking info hinfo
    refine ⟨fun st st1 _ hrec _ _ _ _ => ?_,fun st _ m hm _ _ => ?_⟩
    · exact keyed_directArgs fun hp => ⟨recordObject_size hrec hp,
        delimiter_not_mem_info hinfo info.value (by simp)⟩
    · exact keyed_activeFuncMetadatas _ _ _ m hm
  | update msg => exact absurd rfl (hl msg)
  | call msg =>
    intro req _
    exact ⟨fun _ hflag => absurd hflag (lt_irrefl 0),fun _ _ _ => pairLayout_sizedArgs _ _,
      fun _ _ => trivial⟩
  | _ => trivial

/-- Every step, also one that faults, keeps the layout. -/
theorem laid_outcome (cfg : SchedulerConfig) (l : SchedLabel) (h : Laid st) : Ends Laid id (outcome cfg st l) := by
  by_cases hl : ∀ msg,l≠.update msg
  · exact laid_rules.outcome (sound_keyed cfg hl) h
  · obtain ⟨msg,rfl⟩ := not_forall_not.mp hl
    have hread : Laid (readClock cfg st).2 := laid_rules.tick st h
    show Ends Laid id ((orFault (readClock cfg st).2 (recvUpdate _ _ msg)).map _)
    cases hu : recvUpdate (readClock cfg st).1 (readClock cfg st).2.tables msg with
    | none => exact hread
    | some w =>
      exact hread.setTables (triggers_recvUpdate (fun _ _ ht => remembers_entityTrigger ht)
        (fun _ session ht => remembers_clear ht session) hread.cached hu)

theorem laid_step (h : Laid st) (hs : step cfg st l=some st') : Laid st' := by
  have hend := laid_outcome cfg l h
  rw [step_eq_some hs] at hend
  exact hend

theorem laid_run {seed : UInt32} {l : List SchedLabel}
    (hr : run (step cfg) (SchedState.start cfg seed) l=some st) : Laid st :=
  run_invariant (fun _ _ _ => laid_step) (laid_start cfg seed) hr

/-- Every argument list of a forwarding holds the triples of its call. -/
def WellFormed (before : List SchedEvent) (site : ForwardSite) (call : ForwardRequest) : Prop :=
  List.Forall₂ Forwards (originals before site call) call.funcArgsVec

/-- A forwarded call without executor has plain object names; any other one
has no key arguments. -/
def Convertible (site : ForwardSite) (args : List Str) : Prop :=
  match site with
  | .overflow => ∀ o∈objects args,ObjectName o.1
  | _ => args=[]

/-- What is recorded of a forwarding decides it. -/
theorem Recorded.wellFormed_iff (h : Recorded before site call) (hflag : call.argFlag>0) :
    WellFormed before site call ↔
      ∀ args∈originals before site call,Convertible site args := by
  have hpassed : originals before site call=call.funcArgsVec →
      (WellFormed before site call ↔ ∀ args∈originals before site call,args=[]) := by
    intro ho
    rw [WellFormed,ho,List.forall₂_same]
    exact forall₂_congr fun args ha => forwards_self_iff (h.layout args (ho ▸ ha))
  cases site with
  | overflow =>
    obtain ⟨origin,original,args,hlast,hargs,rfl⟩ := h.overflow rfl
    have ho : originals before .overflow (overflowRequest original args)=[original.funcArgs] :=
      originals_overflow hlast
    have hlayout := h.layout original.funcArgs (by rw [ho]; exact List.mem_singleton_self _)
    rw [WellFormed,ho,List.forall_mem_singleton]
    show List.Forall₂ Forwards [original.funcArgs] [args] ↔ ∀ o∈objects original.funcArgs,ObjectName o.1
    rw [List.forall₂_cons,←forwards_overflowArgs_iff hlayout hflag hargs]
    exact and_iff_left List.Forall₂.nil
  | batch => exact hpassed rfl
  | expiry => exact hpassed rfl

/-- Every forwarding by key, in any step from a reachable state, gets the
triples of its calls exactly when it comes from a call without executor all
of whose object names are a bucket and a session key, or has no key
arguments at all. -/
theorem forwarding_wellFormed_iff (cfg : SchedulerConfig) (seed : UInt32) (l : List SchedLabel)
    (st : SchedState) (hr : run (step cfg) (SchedState.start cfg seed) l=some st) (next : SchedLabel)
    (before after : List SchedEvent) (site : ForwardSite) (call : ForwardRequest)
    (ht : (endState id (outcome cfg st next)).trace=before++.forwarding site call::after)
    (hflag : call.argFlag>0) :
    WellFormed before site call ↔ ∀ args∈originals before site call,Convertible site args := by
  have hlaid : Laid (endState id (outcome cfg st next)) := (laid_outcome cfg next (laid_run hr)).endState
  exact (hlaid.trace before site call after ht hflag).wellFormed_iff hflag

/-- A worker whose only executor has not reported yet. -/
def silentExecutor (schedDelayTime : UInt32) : SchedulerConfig :=
  .sample [0] schedDelayTime 1 fun n => n*10000000

/-- A call of f with one object. -/
def callByKey : FunctionCall :=
  ⟨str "app",[⟨str "f",[⟨str "b|k_s",1,str "10.0.0.2"⟩]⟩],[],[],[],str "s",false⟩

/-- The forwarding of that call. -/
def convertedCall : ForwardRequest := ⟨str "s",str "app",[str "f"],[[str "b",str "k_s",str "3"]],1⟩

/-- The object is local and no executor is free, so the call is forwarded. -/
theorem forwarding_wellFormed_iff_callByKey : ∃ st before after,
    run (step (silentExecutor 0)) (.start (silentExecutor 0) 1) [.data (5::str "b|k_s"++str "abc")]=
      some st ∧
    (endState id (outcome (silentExecutor 0) st (.call callByKey))).trace=
      before++.forwarding .overflow convertedCall::after ∧
    WellFormed before .overflow convertedCall := by
  have hrun : ((run (step (silentExecutor 0)) (.start (silentExecutor 0) 1)
      [.data (5::str "b|k_s"++str "abc")]).map fun st =>
        (endState id (outcome (silentExecutor 0) st (.call callByKey))).trace.take 3)=
      some [.requested 0 ⟨str "f",str "s",[str "b|k_s"],∅,1⟩,
        .scheduled (.request 0) ⟨str "s",str "app",str "f",[str "b|k_s",str "3"],1⟩,
        .forwarding .overflow convertedCall] := by decide +kernel
  obtain ⟨st,hst,htake⟩ := Option.map_eq_some_iff.mp hrun
  have htrace := (List.take_append_drop 3
    (endState id (outcome (silentExecutor 0) st (.call callByKey))).trace).symm
  rw [htake] at htrace
  refine ⟨st,[.requested 0 ⟨str "f",str "s",[str "b|k_s"],∅,1⟩,
    .scheduled (.request 0) ⟨str "s",str "app",str "f",[str "b|k_s",str "3"],1⟩],_,hst,htrace,?_⟩
  refine (forwarding_wellFormed_iff _ 1 _ st hst _ _ _ _ _ htrace (by decide)).mpr ?_
  refine List.forall_mem_singleton.mpr (List.forall_mem_singleton.mpr ?_)
  exact ⟨str "b",str "k_s",by decide,by decide,by decide,by decide⟩

/-- The function f starts g directly. -/
def directDependency : UpdateCoordMsg :=
  ⟨str "10.0.0.9",0,str "app",[str "f",str "g"],[⟨.direct,[str "f"],[str "g"],[]⟩],[],0⟩

/-- An executor sends an object in shared memory for all targets, or for one. -/
def sharedObject (target : Str) : SchedLabel :=
  .executor ([1,2,1,2]++str "s|f|"++target++str "|b|k_s|20000")

/-- The forwarding of g with the pair of the object. -/
def unconvertedCall : ForwardRequest :=
  ⟨str "s",str "app",[str "g"],[[str "b|k_s",str "20000"]],1⟩

/-- A batch of direct targets, and a delayed call whose time is over, are
forwarded with pairs, and the third element is read past the end. -/
theorem pairs_forwarded :
    (∃ st,run (step (silentExecutor 0)) (.start (silentExecutor 0) 1) [.update directDependency]=some st ∧
      .forwarding .batch unconvertedCall∈
        (endState id (outcome (silentExecutor 0) st (sharedObject []))).trace) ∧
    (∃ st,run (step (silentExecutor 1000)) (.start (silentExecutor 1000) 1)
        [.update directDependency,sharedObject (str "g")]=some st ∧
      .forwarding .expiry unconvertedCall∈
        (endState id (outcome (silentExecutor 1000) st .delay)).trace) ∧
    unconvertedCall.argFlag>0 ∧ ∃ args∈unconvertedCall.funcArgsVec,triples args=none := by
  have hbatch : ((run (step (silentExecutor 0)) (.start (silentExecutor 0) 1)
      [.update directDependency]).map fun st => decide (.forwarding .batch unconvertedCall∈
        (endState id (outcome (silentExecutor 0) st (sharedObject []))).trace))=some true := by
    decide +kernel
  have hexpiry : ((run (step (silentExecutor 1000)) (.start (silentExecutor 1000) 1)
      [.update directDependency,sharedObject (str "g")]).map fun st =>
        decide (.forwarding .expiry unconvertedCall∈
          (endState id (outcome (silentExecutor 1000) st .delay)).trace))=some true := by
    decide +kernel
  obtain ⟨st,hst,hm⟩ := Option.map_eq_some_iff.mp hbatch
  obtain ⟨st',hst',hm'⟩ := Option.map_eq_some_iff.mp hexpiry
  exact ⟨⟨st,hst,of_decide_eq_true hm⟩,⟨st',hst',of_decide_eq_true hm'⟩,by decide,
    [str "b|k_s",str "20000"],List.mem_singleton_self _,rfl⟩

end Pheromone.ForwardedArguments
