import Pheromone.CoordinatorLoop

/-!
# What the coordinator can serve

A coordinator that gets only messages it can read serves every one of them:
the objects that its triggers hold always have recorded data servers.
-/

namespace Pheromone.CoordinatorProgress

open UnorderedContainers CommonNames TriggerPrimitives OperationMessages CoordinatorNotify
open GuardedRuns DispatchCapacity CoordinatorOps FuncCallHandler CoordinatorRefinement CoordinatorLoop

/-- A dependency whose target and parameters can be read. -/
def ReadableDependency (dep : DataDependency) : Prop :=
  dep.type≠.direct → dep.tgtFunctions≠[] ∧ match dep.type with
    | .kOutOfN => match split dep.description parameterDelimiter with
      | k::n::_ => (stoi k).isSome ∧ (stoi n).isSome
      | _ => False
    | .periodic => (stoi dep.description).isSome
    | _ => True

/-- A message whose fields the handlers can read: reports name data servers
with a host part, triggers are of a known kind, and the parameters of
dependencies are numbers. -/
def Readable : CoordIn → Prop
  | .notify req _ => ∀ a∈req.addresses,Addressed a
  | .trigger req _ => req.operationType=.addTrigger → ∀ tag,req.primitiveType≠.unrecognized tag
  | .register reg _ => ∀ dep∈reg.dependencies,ReadableDependency dep
  | _ => True

variable {cfg : CoordConfig} {self : CoordIdentity} {st st' : CoordState} {events : List CoordEvent}

/-- All handlers but that of notifications keep objects where they are. -/
theorem located_aside (h : Located st) (haside : Aside st st' events) : Located st' := by
  refine ⟨fun bucket t ht => ?_,?_⟩
  · rw [haside.addresses]
    rcases haside.triggers bucket t ht with hold|hfresh
    · exact h.triggers bucket t hold
    · exact contents_iff_holdsOnly.mp (hfresh.contents _)
  · rw [haside.addresses]
    exact h.hosts

theorem triggerOp_isSome {req : TriggerOperationRequest} {now : ℤ} (h : Readable (.trigger req now))
    (st : CoordState) : ∃ r,triggerOp now st req=some r := by
  unfold triggerOp
  split
  · rename_i hadd
    split
    · unfold addTriggerOp genTriggerPointer
      cases htype : req.primitiveType with
      | unrecognized tag => exact absurd htype (h hadd tag)
      | _ => exact ⟨_,rfl⟩
    · exact ⟨_,rfl⟩
  · split <;> exact ⟨_,rfl⟩
  · exact ⟨_,rfl⟩

theorem dependencyTrigger_isSome {dep : DataDependency} (h : ReadableDependency dep)
    (hdirect : dep.type≠.direct) (now : ℤ) (tgt : Str) :
    ∃ t,dependencyTrigger now tgt dep=some t := by
  obtain ⟨-,h⟩ := h hdirect
  unfold dependencyTrigger
  cases htype : dep.type with
  | kOutOfN =>
    rw [htype] at h
    dsimp only at h ⊢
    split at h
    · rename_i k n rest hsplit
      obtain ⟨x,hx⟩ := Option.isSome_iff_exists.mp h.1
      obtain ⟨y,hy⟩ := Option.isSome_iff_exists.mp h.2
      simp [hsplit,hx,hy]
    · exact h.elim
  | periodic =>
    rw [htype] at h
    obtain ⟨x,hx⟩ := Option.isSome_iff_exists.mp h
    simp [hx]
  | _ => exact ⟨_,rfl⟩

theorem registerDependency_isSome {dep : DataDependency} (h : ReadableDependency dep) (app : Str)
    (now : ℤ) (r : CoordState×List DataDependency×List TriggerEntity) :
    ∃ r',registerDependency app now r dep=some r' := by
  unfold registerDependency
  split
  · exact ⟨_,rfl⟩
  · rename_i hdirect
    obtain ⟨tgt,rest,htgt⟩ := List.exists_cons_of_ne_nil (h hdirect).1
    obtain ⟨t,ht⟩ := dependencyTrigger_isSome h hdirect now tgt
    simp only [htgt,List.head?_cons,Option.bind_eq_bind,Option.bind_some,ht]
    exact ⟨_,rfl⟩

theorem appRegisterHandler_isSome {reg : AppRegistration} {now : ℤ} (h : Readable (.register reg now))
    (self : CoordIdentity) (st : CoordState) :
    ∃ st' out,appRegisterHandler self now st reg=some (st',out) := by
  obtain ⟨r,hr,-⟩ := @run_progress _ _ (registerDependency reg.appName now) (fun _ => True) _
    (fun r dep hdep _ => (registerDependency_isSome (h dep hdep) reg.appName now r).imp
      fun _ hr => ⟨hr,trivial⟩) (st,[],[]) trivial
  rw [appRegisterHandler,foldlM_eq_run,hr]
  exact ⟨_,_,rfl⟩

/-- A call is dealt over several workers, or travels as a whole. -/
theorem funcCallHandler_isSome (cfg : CoordConfig) (st : CoordState) (call : FunctionCall) :
    ∃ r,funcCallHandler cfg st call=some r := by
  rw [funcCallHandler]
  generalize openSession cfg st.seed call=opened
  have hmsgs : ∃ r,scheduledNodeMsg cfg st.nodeStatusMap opened.2 opened.1=some r := by
    by_cases hsplits : Splits st.nodeStatusMap opened.1
    · obtain ⟨_,msgs,-,hmsgs,-⟩ := scheduledNodeMsg_split cfg hsplits opened.2
      exact ⟨_,hmsgs⟩
    · obtain ⟨msgs,_,hmsgs,-⟩ := scheduledNodeMsg_whole cfg hsplits opened.2
      exact ⟨_,hmsgs⟩
  obtain ⟨r,hr⟩ := hmsgs
  dsimp only
  rw [hr,Option.bind_eq_bind,Option.bind_some]
  split <;> exact ⟨_,rfl⟩

theorem handle_isSome {i : CoordIn} (hl : Located st) (hi : Readable i) :
    ∃ st' events,handle cfg self st i=some (st',events) ∧ Located st' := by
  by_cases hnotify : ∃ req now,i=.notify req now
  · obtain ⟨req,now,rfl⟩ := hnotify
    obtain ⟨st',out,hout,hl'⟩ := notifyHandler_isSome cfg req now hl hi
    refine ⟨st',out.map .sent,?_,hl'⟩
    rw [handle,hout]
    rfl
  · suffices hsome : ∃ p,handle cfg self st i=some p by
      obtain ⟨⟨st',events⟩,hp⟩ := hsome
      exact ⟨st',events,hp,located_aside hl (handle_aside (fun req now he => hnotify ⟨req,now,he⟩) hp)⟩
    cases i with
    | notify req now => exact absurd ⟨req,now,rfl⟩ hnotify
    | trigger req now =>
      obtain ⟨r,hr⟩ := triggerOp_isSome hi st
      rw [handle,triggerOpHandler,hr]
      exact ⟨_,rfl⟩
    | register reg now =>
      obtain ⟨st',out,hout⟩ := appRegisterHandler_isSome hi self st
      rw [handle,hout]
      exact ⟨_,rfl⟩
    | call msg =>
      obtain ⟨r,hr⟩ := funcCallHandler_isSome cfg st msg
      rw [handle,hr]
      exact ⟨_,rfl⟩
    | _ => exact ⟨_,rfl⟩

/-- Along every sequence of readable messages every one of them is served. -/
theorem coordinator_serves_readable (cfg : CoordConfig) (self : CoordIdentity) (seed : UInt32)
    (inputs : List CoordIn) (h : ∀ i∈inputs,Readable i) :
    ∃ r,run (step cfg self) (start seed) inputs=some r := by
  have hstep : ∀ r : CoordRun,∀ i∈inputs,Located r.tables →
      ∃ r',step cfg self r i=some r' ∧ Located r'.tables := by
    intro r i hi hl
    obtain ⟨st',events,hp,hl'⟩ := handle_isSome hl (h i hi)
    refine ⟨⟨st',r.history++.received i::events⟩,?_,hl'⟩
    rw [step,hp]
    rfl
  have hstart : Located (start seed).tables :=
    ⟨fun _ _ ht => absurd ht List.not_mem_nil,fun _ _ _ hip => absurd hip (USet.not_mem_empty _)⟩
  obtain ⟨r,hr,-⟩ := run_progress hstep hstart
  exact ⟨r,hr⟩

/-- A dependency with two parameters, and an object for its target. -/
theorem coordinator_serves_readable_two : ∃ r,run (step oneThread ⟨[],0⟩) (start 1)
    [.status ⟨str "10.0.0.1",2⟩,
      .register ⟨str "app",[str "f",str "g"],[⟨.kOutOfN,[str "f"],[str "g"],str "1,2"⟩]⟩ 0,
      .notify ⟨[],[⟨str "b_g",str "k",str "s",[str "tcp://10.0.0.1:6000"],[]⟩],[]⟩ 0]=some r := by
  refine coordinator_serves_readable oneThread ⟨[],0⟩ 1 _ ?_
  refine List.forall_mem_cons.mpr ⟨trivial,List.forall_mem_cons.mpr ⟨?_,?_⟩⟩
  · exact List.forall_mem_singleton.mpr fun _ => ⟨by decide,rfl,rfl⟩
  · exact List.forall_mem_singleton.mpr (List.forall_mem_singleton.mpr ⟨_,rfl,by decide⟩)

end Pheromone.CoordinatorProgress
