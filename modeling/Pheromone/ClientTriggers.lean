import Pheromone.CoordinatorOps

/-!
# Triggers as clients describe them

A client's library writes the parameters of a trigger into a message. The
two numbers of a redundant trigger go into each other's fields.
-/

namespace Pheromone.ClientTriggers

open UnorderedContainers CommonNames TriggerPrimitives OperationMessages CoordinatorNotify
open CoordinatorOps

/-- A member of a key set: a text, or another object with its text form. -/
inductive KeyObject where
  | str (text : Str)
  | other (shown : Str)
  deriving DecidableEq

/-- The text of a key: itself, or the text form of the object. -/
def KeyObject.text : KeyObject → Str
  | .str text => text
  | .other shown => shown

/-- The dictionary that describes a primitive; any entry may be missing. -/
structure PrimitiveDict where
  /-- Function to start. -/
  function : Option Str := none
  /-- Key of a trigger by name. -/
  keyName : Option Str := none
  /-- Size of a batch. -/
  count : Option ℤ := none
  keySet : Option (List KeyObject) := none
  /-- Keys of the control group. -/
  controlGroup : Option (List KeyObject) := none
  /-- Objects that start the function. -/
  k : Option ℤ := none
  /-- Objects of a round. -/
  n : Option ℤ := none
  /-- Milliseconds between two starts. -/
  timeWindow : Option ℤ := none

/-- A hint for re-execution. -/
structure HintTuple where
  /-- Function whose failure is to be detected. -/
  sourceFunction : Str
  /-- Key which that function produces. -/
  sourceKey : Option Str
  /-- Milliseconds to wait. -/
  timeout : Option ℤ

/-- The hints of a call: none, one tuple, a list, or something else. -/
inductive Hints where
  | absent
  | tuple (hint : HintTuple)
  | list (hints : List HintTuple)
  | other

/-- Milliseconds to wait if a hint does not say. -/
def defaultRerunTimeout : ℤ := 3000

/-- Assign a number to a field of a message; one that is out of range raises
an error. -/
def uint32Field (v : ℤ) : Option UInt32 :=
  if 0≤v ∧ v<2^32 then some (UInt32.ofNat v.toNat) else none

/-- Append to a field of texts; what is no text raises an error. -/
def textField : KeyObject → Option Str
  | .str text => some text
  | .other _ => none

/-- The message of a primitive. A missing entry and an unknown type raise an
error. The numbers of a redundant trigger change places. -/
def primitiveMessage (type : PrimitiveType) (primitive : PrimitiveDict) : Option PrimitiveFields :=
  match type with
  | .immediate => do
    let function ← primitive.function
    some ⟨function,[],0,0⟩
  | .byName => do
    let function ← primitive.function
    let keyName ← primitive.keyName
    some ⟨function,[keyName],0,0⟩
  | .byBatchSize => do
    let function ← primitive.function
    let count ← uint32Field (← primitive.count)
    some ⟨function,[],count,0⟩
  | .bySet => do
    let function ← primitive.function
    let keySet ← primitive.keySet
    some ⟨function,keySet.map KeyObject.text,0,0⟩
  | .dynamicGroup => do
    let function ← primitive.function
    let controlGroup ← (← primitive.controlGroup).mapM textField
    some ⟨function,controlGroup,0,0⟩
  | .redundant => do
    let function ← primitive.function
    let n ← uint32Field (← primitive.k)
    let k ← uint32Field (← primitive.n)
    some ⟨function,[],k,n⟩
  | .byTime => do
    let function ← primitive.function
    let timeWindow ← uint32Field (← primitive.timeWindow)
    some ⟨function,[],timeWindow,0⟩
  | .unrecognized _ => none

/-- The message of a hint. -/
def parseHint (hint : HintTuple) : Option RerunHint := do
  let timeout ← uint32Field (hint.timeout.getD defaultRerunTimeout)
  some ⟨hint.sourceFunction,hint.sourceKey.getD [],timeout⟩

/-- The messages of all hints; the request is not sent if there is something
else in their place. -/
def parseHints : Hints → Option (List RerunHint)
  | .absent => some []
  | .tuple hint => (parseHint hint).map fun h => [h]
  | .list hints => hints.mapM parseHint
  | .other => none

/-- The request of a client that adds a trigger, if one is sent. -/
def addTrigger (requestId : Str) (responseAddress : Address) (appName : Str) (bucketName : Bucket)
    (triggerName : Str) (type : PrimitiveType) (primitive : PrimitiveDict) (triggerOption : ℤ)
    (hints : Hints) : Option TriggerOperationRequest := do
  let option ← uint32Field triggerOption
  let message ← primitiveMessage type primitive
  let hints ← parseHints hints
  some ⟨.addTrigger,appName,bucketName,triggerName,option,type,message,requestId,responseAddress,hints⟩

/-- A new trigger has exactly the parameters of the description. -/
def Describes (type : PrimitiveType) (primitive : PrimitiveDict) (t : Trigger) : Prop :=
  primitive.function=some t.targetFunction ∧ match type with
  | .immediate => t.state=.immediate ⟨∅⟩
  | .byName => ∃ keyName,t.state=.byName ⟨keyName,∅⟩ ∧ primitive.keyName=some keyName
  | .byBatchSize => ∃ count,t.state=.byBatchSize ⟨count,[],∅⟩ ∧ primitive.count=some count.toInt
  | .bySet => ∃ keySet keys,t.state=.bySet ⟨keySet,∅,∅,∅⟩ ∧ primitive.keySet=some keys ∧
    ∀ key,key∈keySet ↔ ∃ object∈keys,object.text=key
  | .dynamicGroup => ∃ controlGroup keys,t.state=.dynamicGroup ⟨∅,controlGroup,∅⟩ ∧
    primitive.controlGroup=some keys ∧ ∀ key,key∈controlGroup ↔ ∃ object∈keys,object.text=key
  | .redundant => ∃ k n,t.state=.redundant ⟨k,n,0,[]⟩ ∧ primitive.k=some (k.toNat : ℤ) ∧
    primitive.n=some (n.toNat : ℤ)
  | .byTime => ∃ timeWindow stamp,t.state=.byTime ⟨timeWindow,[],stamp⟩ ∧
    primitive.timeWindow=some (timeWindow.toNat : ℤ)
  | .unrecognized _ => False

/-- A field holds the number that was assigned. -/
theorem toNat_of_uint32Field {v : ℤ} {u : UInt32} (h : uint32Field v=some u) :
    (u.toNat : ℤ)=v ∧ v<2^32 := by
  unfold uint32Field at h
  split at h
  · rename_i hv
    cases h
    rw [UInt32.toNat_ofNat']
    omega
  · cases h

/-- Read as a signed number, a field is unchanged below the largest one. -/
theorem toInt32_toInt_iff (u : UInt32) : u.toInt32.toInt=(u.toNat : ℤ) ↔ (u.toNat : ℤ)<2^31 := by
  have hlt := u.toNat_lt
  show u.toBitVec.toInt=(u.toBitVec.toNat : ℤ) ↔ (u.toBitVec.toNat : ℤ)<2^31
  rw [BitVec.toInt_eq_toNat_cond]
  split
  · omega
  · omega

/-- Texts are appended as they are. -/
theorem mem_of_textFields {keys : List KeyObject} {texts : List Str}
    (h : keys.mapM textField=some texts) (key : Str) :
    key∈texts ↔ ∃ object∈keys,object.text=key := by
  induction keys generalizing texts with
  | nil =>
    cases h
    exact ⟨nofun,nofun⟩
  | cons object keys ih =>
    rw [List.mapM_cons] at h
    obtain ⟨text,htext,h⟩ := Option.bind_eq_some_iff.mp h
    obtain ⟨rest,hrest,h⟩ := Option.bind_eq_some_iff.mp h
    cases h
    have hobject : object.text=text := by
      cases object with
      | str text' => exact Option.some.inj htext
      | other shown => cases htext
    rw [List.mem_cons,ih hrest,List.exists_mem_cons_iff,hobject]
    exact or_congr_left eq_comm

/-- The trigger that is built from the message of a primitive is as described,
if the numbers of a redundant one are equal and only then. -/
theorem describes_iff {type : PrimitiveType} {primitive : PrimitiveDict} {fields : PrimitiveFields}
    (hcount : type=.byBatchSize → ∀ c,primitive.count=some c → 1≤ c ∧ c<2^31)
    (h : primitiveMessage type primitive=some fields) (triggerName : Str) (now : ℤ) :
    ∃ t,genTriggerPointer type triggerName fields now=some t ∧
      t.triggerName=triggerName ∧
      ∀ option,Describes type primitive (t.setTriggerOption option) ↔
        (type=.redundant → primitive.k=primitive.n) := by
  cases type with
  | immediate =>
    obtain ⟨function,hfunction,h⟩ := Option.bind_eq_some_iff.mp h
    cases h
    exact ⟨_,rfl,rfl,fun _ => ⟨fun _ => nofun,fun _ => ⟨hfunction,rfl⟩⟩⟩
  | byName =>
    obtain ⟨function,hfunction,h⟩ := Option.bind_eq_some_iff.mp h
    obtain ⟨keyName,hkey,h⟩ := Option.bind_eq_some_iff.mp h
    cases h
    exact ⟨_,rfl,rfl,fun _ => ⟨fun _ => nofun,fun _ => ⟨hfunction,keyName,rfl,hkey⟩⟩⟩
  | byBatchSize =>
    obtain ⟨function,hfunction,h⟩ := Option.bind_eq_some_iff.mp h
    obtain ⟨c,hc,h⟩ := Option.bind_eq_some_iff.mp h
    obtain ⟨count,hfield,h⟩ := Option.bind_eq_some_iff.mp h
    cases h
    obtain ⟨hvalue,-⟩ := toNat_of_uint32Field hfield
    have hsigned : count.toInt32.toInt=(count.toNat : ℤ) := by
      rw [toInt32_toInt_iff,hvalue]
      exact (hcount rfl c hc).2
    refine ⟨_,rfl,rfl,fun _ => ⟨fun _ => nofun,fun _ => ⟨hfunction,count.toInt32,rfl,?_⟩⟩⟩
    rw [hsigned,hvalue]
    exact hc
  | bySet =>
    obtain ⟨function,hfunction,h⟩ := Option.bind_eq_some_iff.mp h
    obtain ⟨keys,hkeys,h⟩ := Option.bind_eq_some_iff.mp h
    cases h
    refine ⟨_,rfl,rfl,fun _ => ⟨fun _ => nofun,fun _ => ⟨hfunction,_,keys,rfl,hkeys,fun key => ?_⟩⟩⟩
    rw [USet.mem_ofList]
    exact List.mem_map
  | dynamicGroup =>
    obtain ⟨function,hfunction,h⟩ := Option.bind_eq_some_iff.mp h
    obtain ⟨keys,hkeys,h⟩ := Option.bind_eq_some_iff.mp h
    obtain ⟨texts,htexts,h⟩ := Option.bind_eq_some_iff.mp h
    cases h
    refine ⟨_,rfl,rfl,fun _ => ⟨fun _ => nofun,fun _ => ⟨hfunction,_,keys,rfl,hkeys,fun key => ?_⟩⟩⟩
    rw [USet.mem_ofList]
    exact mem_of_textFields htexts key
  | redundant =>
    obtain ⟨function,hfunction,h⟩ := Option.bind_eq_some_iff.mp h
    obtain ⟨k,hk,h⟩ := Option.bind_eq_some_iff.mp h
    obtain ⟨total,htotal,h⟩ := Option.bind_eq_some_iff.mp h
    obtain ⟨n,hn,h⟩ := Option.bind_eq_some_iff.mp h
    obtain ⟨number,hnumber,h⟩ := Option.bind_eq_some_iff.mp h
    cases h
    obtain ⟨hktotal,-⟩ := toNat_of_uint32Field htotal
    obtain ⟨hnnumber,-⟩ := toNat_of_uint32Field hnumber
    refine ⟨_,rfl,rfl,fun _ => ⟨fun hd _ => ?_,fun hsame => ?_⟩⟩
    · obtain ⟨-,k',n',hstate,hk',-⟩ := hd
      cases hstate
      rw [hn,hk',hnnumber]
    · have heq : k=n := Option.some.inj (hk.symm.trans ((hsame rfl).trans hn))
      refine ⟨hfunction,number,total,rfl,?_,?_⟩
      · rw [hk,hnnumber,heq]
      · rw [hn,hktotal,heq]
  | byTime =>
    obtain ⟨function,hfunction,h⟩ := Option.bind_eq_some_iff.mp h
    obtain ⟨window,hwindow,h⟩ := Option.bind_eq_some_iff.mp h
    obtain ⟨timeWindow,hfield,h⟩ := Option.bind_eq_some_iff.mp h
    cases h
    obtain ⟨hvalue,-⟩ := toNat_of_uint32Field hfield
    refine ⟨_,rfl,rfl,fun _ => ⟨fun _ => nofun,fun _ => ⟨hfunction,timeWindow,now,rfl,?_⟩⟩⟩
    rw [hvalue]
    exact hwindow
  | unrecognized value => cases h

/-- The coordinator appends the trigger that it builds to a registered
bucket. -/
theorem triggerOpHandler_add (self : CoordIdentity) (now : ℤ) {st : CoordState}
    (req : TriggerOperationRequest) {t : Trigger} (hadd : req.operationType=.addTrigger)
    (hbucket : st.bucketAppMap.contains req.bucketName=true)
    (ht : genTriggerPointer req.primitiveType req.triggerName req.primitive now=some t) :
    ∃ outs,triggerOpHandler self now st req=
      some (pushTrigger req.bucketName (t.setTriggerOption req.triggerOption.toInt32.toInt) st,outs) := by
  rw [triggerOpHandler,triggerOp,hadd]
  dsimp only
  rw [if_pos hbucket,addTriggerOp,ht]
  exact ⟨_,rfl⟩

/-- The coordinator appends one trigger of the given name to a registered
bucket; it is as described and has the option exactly if the numbers of a
redundant trigger are equal and the option is not negative as a signed
number. -/
theorem trigger_configured_iff (self : CoordIdentity) (now : ℤ) (st : CoordState)
    (requestId : Str) (responseAddress : Address) (appName : Str) (bucketName : Bucket)
    (triggerName : Str) (type : PrimitiveType) (primitive : PrimitiveDict) (triggerOption : ℤ)
    (hints : Hints) (req : TriggerOperationRequest)
    (hcount : type=.byBatchSize → ∀ c,primitive.count=some c → 1≤ c ∧ c<2^31)
    (hreq : addTrigger requestId responseAddress appName bucketName triggerName type primitive
      triggerOption hints=some req)
    (hbucket : st.bucketAppMap.contains bucketName=true) :
    ∃ st' outs t,triggerOpHandler self now st req=some (st',outs) ∧
      st'.bucketTriggersMap.getD bucketName []=st.bucketTriggersMap.getD bucketName []++[t] ∧
      t.triggerName=triggerName ∧
      (Describes type primitive t ∧ t.triggerOption=triggerOption ↔
        (type=.redundant → primitive.k=primitive.n) ∧ triggerOption<2^31) := by
  obtain ⟨option,hoption,hreq⟩ := Option.bind_eq_some_iff.mp hreq
  obtain ⟨fields,hfields,hreq⟩ := Option.bind_eq_some_iff.mp hreq
  obtain ⟨hintFields,-,hreq⟩ := Option.bind_eq_some_iff.mp hreq
  cases hreq
  obtain ⟨t,ht,hname,hdescribes⟩ := describes_iff hcount hfields triggerName now
  obtain ⟨hvalue,-⟩ := toNat_of_uint32Field hoption
  obtain ⟨outs,houts⟩ := triggerOpHandler_add self now ⟨.addTrigger,appName,bucketName,triggerName,
    option,type,fields,requestId,responseAddress,hintFields⟩ rfl hbucket ht
  refine ⟨_,outs,_,houts,UMap.getD_set_self _ _ _ _,hname,and_congr (hdescribes _) ?_⟩
  show option.toInt32.toInt=triggerOption ↔ _
  rw [←hvalue]
  exact toInt32_toInt_iff option

/-- A coordinator with one bucket. -/
def bucketState : CoordState := ownBucket (str "app") (str "b") ⟨∅,∅,∅,∅,∅,∅,∅,1⟩

/-- Start the function on one of three objects. -/
def oneOfThree : PrimitiveDict := {function := some (str "f"),k := some 1,n := some 3}

/-- Start the function on all of three objects. -/
def threeOfThree : PrimitiveDict := {function := some (str "f"),k := some 3,n := some 3}

theorem trigger_configured_iff_equal : ∃ req st' outs t,
    addTrigger (str "1") (str "client") (str "app") (str "b") (str "t") .redundant threeOfThree 2
      .absent=some req ∧ triggerOpHandler ⟨str "10.0.0.9",0⟩ 0 bucketState req=some (st',outs) ∧
      st'.bucketTriggersMap.getD (str "b") []=[t] ∧ Describes .redundant threeOfThree t ∧
      t.triggerOption=2 := by
  obtain ⟨st',outs,t,hhandler,ht,-,hiff⟩ := trigger_configured_iff ⟨str "10.0.0.9",0⟩ 0 bucketState
    (str "1") (str "client") (str "app") (str "b") (str "t") .redundant threeOfThree 2 .absent _ nofun
    rfl (by decide +kernel)
  obtain ⟨hdescribes,hoption⟩ := hiff.mpr ⟨fun _ => rfl,by decide⟩
  exact ⟨_,st',outs,t,rfl,hhandler,ht,hdescribes,hoption⟩

/-- A trigger for one of three objects waits for three objects. -/
theorem redundant_numbers_swapped : ∃ req st' outs t,
    addTrigger (str "1") (str "client") (str "app") (str "b") (str "t") .redundant oneOfThree 0
      .absent=some req ∧ triggerOpHandler ⟨str "10.0.0.9",0⟩ 0 bucketState req=some (st',outs) ∧
      st'.bucketTriggersMap.getD (str "b") []=[t] ∧ ¬Describes .redundant oneOfThree t ∧
      (t.actionForNewObject 0 ⟨str "b",str "k",str "s"⟩).2=[] := by
  refine ⟨_,_,_,⟨str "f",str "t",0,.redundant ⟨3,1,0,[]⟩⟩,rfl,rfl,by decide +kernel,?_,by decide +kernel⟩
  rintro ⟨-,k,n,hstate,hk,-⟩
  cases hstate
  exact absurd (Option.some.inj hk) (by decide)

end Pheromone.ClientTriggers
