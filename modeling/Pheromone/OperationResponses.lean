import Pheromone.TriggerTables

/-!
# What the answers to operations say

Every operation is answered with an error code that starts out as success.
Three branches that do nothing leave it so.
-/

namespace Pheromone.OperationResponses

open UnorderedContainers CommonNames TriggerPrimitives OperationMessages
open CoordinatorNotify CoordinatorOps TriggerTables

/-- An operation that a client asks for, with the clock reading of its handling. -/
inductive Operation where
  | bucket (req : BucketOperationRequest)
  | trigger (req : TriggerOperationRequest) (now : ℤ)
  deriving DecidableEq

/-- The request that carries an operation. -/
def Operation.request : Operation → Request
  | .bucket req => .bucket req
  | .trigger req now => .trigger req now

/-- The error codes among the messages of a handler. -/
def responses (out : List CoordOut) : List KVSError :=
  out.filterMap fun
    | .bucketResponse _ msg => some msg.error
    | .triggerResponse _ msg => some msg.error
    | _ => none

theorem responses_broadcast (st : CoordState) (msg : UpdateCoordMsg) :
    responses (broadcast st msg)=[] := by
  refine List.filterMap_eq_nil_iff.mpr fun out hout => ?_
  obtain ⟨e,-,rfl⟩ := List.mem_map.mp hout
  rfl

/-- The change that an operation asks for has happened between two states. -/
def TookEffect (st st' : CoordState) : Operation → Prop
  | .bucket req => match req.operationType with
    | .createBucket => st.bucketAppMap.contains req.bucketName=false ∧
        st'.bucketAppMap.find? req.bucketName=some req.appName
    | .deleteBucket => st.bucketAppMap.contains req.bucketName=true ∧
        st'.bucketAppMap.contains req.bucketName=false
    | .unrecognized _ => False
  | .trigger req _ => match req.operationType with
    | .addTrigger => ∃ t,t.triggerName=req.triggerName ∧ t.getType=req.primitiveType ∧
        st'.bucketTriggersMap.getD req.bucketName []=
          st.bucketTriggersMap.getD req.bucketName []++[t]
    | .deleteTrigger => ∃ t∈st.bucketTriggersMap.getD req.bucketName [],
        t.triggerName=req.triggerName ∧ t∉st'.bucketTriggersMap.getD req.bucketName []
    | .unrecognized _ => False

/-- What the answer to an operation says about the tables before and after. -/
structure Truthful (op : Operation) (st st' : CoordState) (error : KVSError) : Prop where
  /-- Success is answered if and only if the change took effect. -/
  effect : error=.success ↔ TookEffect st st' op
  /-- A failure leaves all tables as they were. -/
  failure : error≠.success → st'=st

/-- The handler comes to an end and gives one answer, which is truthful. -/
def Answers (self : CoordIdentity) (st : CoordState) (op : Operation) : Prop :=
  ∃ st' out error,handle self st op.request=some (st',out) ∧ responses out=[error] ∧
    Truthful op st st' error

/-- Operations whose branch of the handler sets the error code: types are
recognized, and a trigger to be deleted from an existing bucket is there. -/
def Settled (st : CoordState) : Operation → Prop
  | .bucket req => match req.operationType with
    | .createBucket | .deleteBucket => True
    | .unrecognized _ => False
  | .trigger req _ => match req.operationType with
    | .addTrigger => st.bucketAppMap.contains req.bucketName=true →
        ∀ value,req.primitiveType≠.unrecognized value
    | .deleteTrigger => st.bucketAppMap.contains req.bucketName=true →
        ∃ t∈st.bucketTriggersMap.getD req.bucketName [],t.triggerName=req.triggerName
    | .unrecognized _ => False

variable {self : CoordIdentity} {st st' : CoordState} {op : Operation} {error : KVSError}

/-- With a known result only the truth of the answer is left. -/
theorem answers_iff {out : List CoordOut} (h : handle self st op.request=some (st',out))
    (hresponse : responses out=[error]) : Answers self st op ↔ Truthful op st st' error := by
  refine ⟨?_,fun ht => ⟨st',out,error,h,hresponse,ht⟩⟩
  rintro ⟨s,o,e,hs,he,ht⟩
  rw [h] at hs
  obtain ⟨rfl,rfl⟩ := Prod.mk.inj (Option.some.inj hs)
  rw [hresponse] at he
  exact List.head_eq_of_cons_eq he ▸ ht

theorem truthful_success : Truthful op st st' .success ↔ TookEffect st st' op :=
  ⟨fun h => h.effect.mp rfl,fun h => ⟨iff_of_true rfl h,fun hne => absurd rfl hne⟩⟩

theorem truthful_failure (herror : error≠.success) (h : ¬TookEffect st st op) :
    Truthful op st st error :=
  ⟨iff_of_false herror h,fun _ => rfl⟩

theorem bucket_answers_iff (self : CoordIdentity) (st : CoordState) (req : BucketOperationRequest) :
    Answers self st (.bucket req) ↔ Settled st (.bucket req) := by
  have hhandle : handle self st (Operation.bucket req).request=some (bucketOpHandler st req) := rfl
  unfold bucketOpHandler at hhandle
  dsimp only at hhandle
  split at hhandle
  · rename_i htype
    simp only [Settled,htype,iff_true]
    split at hhandle
    · rename_i hc
      refine (answers_iff hhandle rfl).mpr (truthful_failure KVSError.noConfusion ?_)
      simp only [TookEffect,htype,hc]
      exact fun h => Bool.noConfusion h.1
    · rename_i hc
      refine (answers_iff hhandle rfl).mpr (truthful_success.mpr ?_)
      simp only [TookEffect,htype]
      exact ⟨Bool.eq_false_of_not_eq_true hc,UMap.find?_set_self _ _ _⟩
  · rename_i htype
    simp only [Settled,htype,iff_true]
    split at hhandle
    · rename_i hc
      refine (answers_iff hhandle rfl).mpr (truthful_success.mpr ?_)
      simp only [TookEffect,htype]
      refine ⟨hc,?_⟩
      rw [UMap.contains,UMap.find?_erase_self]
      rfl
    · rename_i hc
      refine (answers_iff hhandle rfl).mpr (truthful_failure KVSError.noConfusion ?_)
      simp only [TookEffect,htype]
      exact fun h => hc h.1
  · rename_i value htype
    rw [answers_iff hhandle rfl,truthful_success]
    simp only [TookEffect,Settled,htype]

variable {req : TriggerOperationRequest}

/-- The answer to a trigger request carries the outcome of its change. -/
theorem trigger_answers {now : ℤ} {r : TriggerOperation} (h : triggerOp now st req=some r) :
    Answers self st (.trigger req now) ↔ Truthful (.trigger req now) st r.st r.error := by
  have hhandle : handle self st (Operation.trigger req now).request=
      (triggerOp now st req).bind fun r =>
        some (r.st,.triggerResponse req.responseAddress
            ⟨req.bucketName,req.triggerName,req.requestId,r.error⟩::
          broadcast r.st ⟨self.privateIp,self.threadId,req.appName,[],[],r.triggers,r.msgType⟩) := rfl
  rw [h] at hhandle
  refine answers_iff hhandle ?_
  show r.error::responses _=[r.error]
  rw [responses_broadcast]

/-- A trigger is built exactly for the recognized types. -/
theorem genTriggerPointer_isSome_iff (type : PrimitiveType) (name : Str) (p : PrimitiveFields)
    (now : ℤ) : (∃ t,genTriggerPointer type name p now=some t) ↔ ∀ value,type≠.unrecognized value := by
  cases type with
  | unrecognized value => exact iff_of_false (fun h => by cases h.choose_spec) fun h => h value rfl
  | _ => exact iff_of_true ⟨_,rfl⟩ fun _ h => by cases h

theorem add_answers_iff (self : CoordIdentity) (now : ℤ) (htype : req.operationType=.addTrigger)
    (hc : st.bucketAppMap.contains req.bucketName=true) :
    Answers self st (.trigger req now) ↔ ∀ value,req.primitiveType≠.unrecognized value := by
  have hop : triggerOp now st req=addTriggerOp now st req := by
    rw [triggerOp,htype]
    exact if_pos hc
  rw [←genTriggerPointer_isSome_iff req.primitiveType req.triggerName req.primitive now]
  cases hgen : genTriggerPointer req.primitiveType req.triggerName req.primitive now with
  | none =>
    have hnone : triggerOp now st req=none := by
      rw [hop,addTriggerOp,hgen]
      rfl
    refine iff_of_false ?_ fun ht => by cases ht.choose_spec
    rintro ⟨st',out,error,hh,-⟩
    obtain ⟨r,hr,-⟩ := Option.bind_eq_some_iff.mp hh
    rw [hnone] at hr
    cases hr
  | some t =>
    obtain ⟨hkind,hname⟩ := genTriggerPointer_eq_some hgen
    have hadd : ∃ triggers,triggerOp now st req=some ⟨pushTrigger req.bucketName
        (t.setTriggerOption req.triggerOption.toInt32.toInt) st,.success,0,triggers⟩ := by
      rw [hop,addTriggerOp,hgen]
      exact ⟨_,rfl⟩
    obtain ⟨triggers,hr⟩ := hadd
    refine iff_of_true ((trigger_answers hr).mpr (truthful_success.mpr ?_)) ⟨t,rfl⟩
    simp only [TookEffect,htype]
    exact ⟨t.setTriggerOption req.triggerOption.toInt32.toInt,hname,hkind,UMap.getD_set_self _ _ _ _⟩

theorem delete_answers_iff (self : CoordIdentity) (now : ℤ)
    (htype : req.operationType=.deleteTrigger) (hc : st.bucketAppMap.contains req.bucketName=true) :
    Answers self st (.trigger req now) ↔
      ∃ t∈st.bucketTriggersMap.getD req.bucketName [],t.triggerName=req.triggerName := by
  have hop : triggerOp now st req=some (deleteTriggerOp st req) := by
    rw [triggerOp,htype]
    exact if_pos hc
  have hresult : (deleteTriggerOp st req).error=.success ∧
      (deleteTriggerOp st req).st.bucketTriggersMap.getD req.bucketName []=
        (st.bucketTriggersMap.getD req.bucketName []).filter fun t =>
          decide (t.triggerName≠req.triggerName) := by
    unfold deleteTriggerOp
    dsimp only
    split <;> exact ⟨rfl,UMap.getD_set_self _ _ _ _⟩
  rw [trigger_answers hop,hresult.1,truthful_success]
  simp only [TookEffect,htype]
  rw [hresult.2]
  refine exists_congr fun t => and_congr_right fun ht => and_iff_left_of_imp fun hname hkept => ?_
  exact of_decide_eq_true (List.mem_filter.mp hkept).2 hname

/-- A request on a missing bucket is refused. -/
theorem missing_bucket_answers (self : CoordIdentity) (now : ℤ)
    (htype : req.operationType=.addTrigger ∨ req.operationType=.deleteTrigger)
    (hc : ¬st.bucketAppMap.contains req.bucketName=true) : Answers self st (.trigger req now) := by
  have hop : triggerOp now st req=some ⟨st,.bucketNe,0,[]⟩ := by
    unfold triggerOp
    rcases htype with htype|htype <;> rw [htype] <;> exact if_neg hc
  refine (trigger_answers hop).mpr (truthful_failure KVSError.noConfusion fun heffect => ?_)
  rcases htype with htype|htype
  · simp only [TookEffect,htype] at heffect
    obtain ⟨t,-,-,happ⟩ := heffect
    have hlength := congrArg List.length happ
    rw [List.length_append,List.length_singleton] at hlength
    omega
  · simp only [TookEffect,htype] at heffect
    obtain ⟨t,ht,-,hgone⟩ := heffect
    exact hgone ht

theorem trigger_answers_iff (self : CoordIdentity) (st : CoordState) (req : TriggerOperationRequest)
    (now : ℤ) : Answers self st (.trigger req now) ↔ Settled st (.trigger req now) := by
  cases htype : req.operationType with
  | addTrigger =>
    simp only [Settled,htype]
    by_cases hc : st.bucketAppMap.contains req.bucketName=true
    · rw [add_answers_iff self now htype hc]
      exact ⟨fun h _ => h,fun h => h hc⟩
    · exact iff_of_true (missing_bucket_answers self now (Or.inl htype) hc) fun h => absurd h hc
  | deleteTrigger =>
    simp only [Settled,htype]
    by_cases hc : st.bucketAppMap.contains req.bucketName=true
    · rw [delete_answers_iff self now htype hc]
      exact ⟨fun h _ => h,fun h => h hc⟩
    · exact iff_of_true (missing_bucket_answers self now (Or.inr htype) hc) fun h => absurd h hc
  | unrecognized value =>
    have hop : triggerOp now st req=some ⟨st,.success,0,[]⟩ := by
      rw [triggerOp,htype]
    rw [trigger_answers hop,truthful_success]
    simp only [TookEffect,Settled,htype]

/-- The coordinator gives a truthful answer to an operation exactly if the
operation is of a type that it recognizes and, on an existing bucket, asks
for a trigger of recognized type or deletes a trigger that is there. -/
theorem answers_truthful_iff (self : CoordIdentity) (st : CoordState) (op : Operation) :
    Answers self st op ↔ Settled st op := by
  cases op with
  | bucket req => exact bucket_answers_iff self st req
  | trigger req now => exact trigger_answers_iff self st req now

/-- Tables with one bucket and no trigger. -/
def oneBucket : CoordState :=
  (bucketOpHandler ⟨∅,∅,∅,∅,∅,∅,∅,0⟩ ⟨.createBucket,str "app",str "b",[],[]⟩).1

/-- The deletion of a trigger that does not exist. -/
def deleteMissing : TriggerOperationRequest :=
  ⟨.deleteTrigger,str "app",str "b",str "t",0,.immediate,⟨[],[],0,0⟩,[],[],[]⟩

/-- The deletion of a missing trigger is answered with success, and none was
removed. -/
theorem missing_deletion_succeeds : ∃ st',
    handle ⟨[],0⟩ oneBucket (.trigger deleteMissing 0)=
      some (st',[.triggerResponse [] ⟨str "b",str "t",[],.success⟩]) ∧
    ¬TookEffect oneBucket st' (.trigger deleteMissing 0) ∧
    handle ⟨[],0⟩ oneBucket (.trigger {deleteMissing with
      operationType := .addTrigger
      primitiveType := .unrecognized 7} 0)=none := by
  have hnone : oneBucket.bucketTriggersMap.getD (str "b") []=[] := by decide +kernel
  refine ⟨_,rfl,?_,by decide +kernel⟩
  rintro ⟨t,ht,-⟩
  rw [show deleteMissing.bucketName=str "b" from rfl,hnone] at ht
  cases ht

end Pheromone.OperationResponses
