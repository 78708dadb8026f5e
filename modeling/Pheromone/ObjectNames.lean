import Pheromone.ReactiveMachines
import Pheromone.SchedulerLoop

/-!
# Names of objects that functions do not name

The library makes keys from the channel number and a counter. Objects of
different nodes can have one name.
-/

namespace Pheromone.ObjectNames

open UnorderedContainers DelimitedText ReactiveMachines CommonNames SchedulerState SchedulerLoop

/-- An address of four numbers. -/
structure IPv4 where
  /-- First number. -/
  a : UInt8
  /-- Second number. -/
  b : UInt8
  /-- Third number. -/
  c : UInt8
  /-- Fourth number. -/
  d : UInt8
  deriving DecidableEq

/-- The dot of an address. -/
def dot : UInt8 := 46

/-- The address as text. -/
def IPv4.dotted (ip : IPv4) : Address :=
  decimal ip.a.toNat++dot::(decimal ip.b.toNat++dot::(decimal ip.c.toNat++dot::decimal ip.d.toNat))

/-- What the user library makes names from. -/
structure NameSource where
  /-- The node's address without dots. -/
  ipNumber : Str
  /-- Number of the executor's channel. -/
  chanId : UInt8
  /-- Number of the next object. -/
  objectId : UInt32
  deriving DecidableEq

/-- The user library of an executor before the first object. -/
def userLibrary (ip : Address) (threadId : UInt32) : NameSource :=
  ⟨ip.filter fun c => decide (c≠dot),(threadId+1).toUInt8,0⟩

/-- The number of the next object. -/
def getObjectId (lib : NameSource) : UInt32×NameSource :=
  (lib.objectId,{lib with objectId := lib.objectId+1})

/-- Separates the parts of a key. -/
def keySeparator : UInt8 := 95

/-- The key of an object for a target. -/
def genUniqueKey (lib : NameSource) : Key×NameSource :=
  let r := getObjectId lib
  (lib.ipNumber++keySeparator::(decimal lib.chanId.toNat++keySeparator::decimal r.1.toNat),r.2)

/-- The two ways to create an object without key: for a direct invocation and
for a target. -/
inductive Unnamed where
  | direct
  | forTarget (target : Str)
  deriving DecidableEq

/-- The name of a new object in a session. -/
def createObject (session : Session) (lib : NameSource) : Unnamed → NameSource×Str
  | .direct =>
    let r := getObjectId lib
    (r.2,getLocalObjectName bucketNameDirectInvoc
      (decimal lib.chanId.toNat++keySeparator::decimal r.1.toNat) session)
  | .forTarget target =>
    let r := genUniqueKey lib
    (r.2,getLocalObjectName (str "b_"++target) r.1 session)

/-- An object of some executor of some node. -/
structure Creation where
  /-- Address of the node. -/
  node : IPv4
  /-- Number of the executor's thread. -/
  threadId : UInt32
  /-- The objects that the executor has created before. -/
  before : List Unnamed
  /-- How the object is created. -/
  object : Unnamed
  deriving DecidableEq

/-- The name that the object gets. -/
def Creation.name (c : Creation) (session : Session) : Str :=
  (createObject session
    (after (createObject session) (userLibrary c.node.dotted c.threadId) c.before) c.object).2

/-- Thread and counter in their ranges. -/
structure Creation.InRange (c : Creation) : Prop where
  thread : c.threadId.toNat<255
  /-- The counter does not overflow. -/
  counter : c.before.length<2^32

/-- Two objects with equal parts of their names: executors and counters of
equal number, and either both for a direct invocation or both for one target
on nodes whose addresses differ by dots at most. -/
def Confusable (c c' : Creation) : Prop :=
  c.threadId=c'.threadId ∧ c.before.length=c'.before.length ∧
  match c.object,c'.object with
  | .direct,.direct => True
  | .forTarget target,.forTarget target' => target=target' ∧
      c.node.dotted.filter (fun x => decide (x≠dot))=c'.node.dotted.filter fun x => decide (x≠dot)
  | _,_ => False

/-- An object of another node is not taken for one of the worker's own. -/
structure Unmistaken (own : List Creation) (session : Session) (c : Creation) : Prop where
  /-- Its name is none of theirs. -/
  names : ∀ c'∈own,c'.name session≠c.name session
  /-- A worker that knows its own objects only has to fetch it. -/
  fetched : ∀ (cfg : SchedulerConfig) (callId : UInt32) (inflight : InflightFuncArgs) (st : SchedState),
    (∀ key,st.keyLenMap.contains key=true → ∃ c'∈own,c'.name session=key) →
    c.name session∈(fetchKeys cfg callId [c.name session] inflight st).1.inflightArgs

/-- The key within the name. -/
def Creation.key (c : Creation) : Key :=
  let number := decimal (c.threadId+1).toUInt8.toNat++keySeparator::decimal c.before.length
  match c.object with
  | .direct => number
  | .forTarget _ => c.node.dotted.filter (fun x => decide (x≠dot))++keySeparator::number

/-- The bucket within the name. -/
def Creation.bucket (c : Creation) : Bucket :=
  match c.object with
  | .direct => bucketNameDirectInvoc
  | .forTarget target => str "b_"++target

/-- The library counts the objects. -/
theorem after_createObject (session : Session) (lib : NameSource) (objects : List Unnamed) :
    after (createObject session) lib objects=
      {lib with objectId := lib.objectId+UInt32.ofNat objects.length} := by
  induction objects using List.reverseRecOn with
  | nil => simp [after]
  | append_singleton objects object ih =>
    rw [after_concat,ih,List.length_append,List.length_singleton,UInt32.ofNat_add,←UInt32.add_assoc]
    cases object <;> rfl

theorem name_eq {c : Creation} (h : c.before.length<2^32) (session : Session) :
    c.name session=getLocalObjectName c.bucket c.key session := by
  have hcount : (0+UInt32.ofNat c.before.length).toNat=c.before.length := by
    rw [UInt32.zero_add,UInt32.toNat_ofNat_of_lt' h]
  rw [Creation.name,after_createObject]
  unfold Creation.bucket Creation.key
  cases c.object with
  | direct => simp only [createObject,userLibrary,getObjectId,hcount]
  | forTarget target => simp only [createObject,genUniqueKey,userLibrary,getObjectId,hcount]

/-- A numeral has digits only. -/
theorem not_mem_decimal {x : UInt8} (hx : ¬(48≤x.toNat ∧ x.toNat≤57)) (n : ℕ) : x∉decimal n :=
  fun h => hx (decimal_digit h)

theorem separator_not_mem_decimal (n : ℕ) : keySeparator∉decimal n :=
  not_mem_decimal (by decide) n

theorem delimiter_not_mem_decimal (n : ℕ) : kDelimiterChar∉decimal n :=
  not_mem_decimal (by decide) n

/-- An address has digits and dots only. -/
theorem delimiter_not_mem_dotted (ip : IPv4) : kDelimiterChar∉ip.dotted := by
  have hdot : kDelimiterChar≠dot := by decide
  simp [IPv4.dotted,delimiter_not_mem_decimal,hdot]

theorem delimiter_not_mem_key (c : Creation) : kDelimiterChar∉c.key := by
  have hsep : kDelimiterChar≠keySeparator := by decide
  have hip : kDelimiterChar∉c.node.dotted.filter fun x => decide (x≠dot) :=
    fun h => delimiter_not_mem_dotted c.node (List.mem_filter.mp h).1
  unfold Creation.key
  cases c.object with
  | direct => simp [delimiter_not_mem_decimal,hsep]
  | forTarget target =>
    dsimp only
    rw [List.mem_append,List.mem_cons,List.mem_append,List.mem_cons]
    rintro (h|h|h|h|h)
    · exact hip h
    · exact hsep h
    · exact delimiter_not_mem_decimal _ h
    · exact hsep h
    · exact delimiter_not_mem_decimal _ h

/-- In one session names are equal if buckets and keys are. -/
theorem name_eq_iff {c c' : Creation} (h : c.before.length<2^32) (h' : c'.before.length<2^32)
    (session : Session) : c.name session=c'.name session ↔ c.bucket=c'.bucket ∧ c.key=c'.key := by
  have hname : ∀ bucket key : Str,getLocalObjectName bucket key session=
      (bucket++kDelimiterChar::key)++session := by
    intro bucket key
    simp [getLocalObjectName,getKeySessionName,kDelimiter]
  rw [name_eq h,name_eq h',hname,hname,List.append_cancel_right_eq,
    append_delim_inj (delimiter_not_mem_key c) (delimiter_not_mem_key c')]

theorem channel_eq {threadId : UInt32} (h : threadId.toNat<255) :
    (threadId+1).toUInt8.toNat=threadId.toNat+1 := by
  have hone : (1 : UInt32).toNat=1 := rfl
  rw [UInt32.toNat_toUInt8,UInt32.toNat_add,hone]
  omega

/-- Channel and counter are read back from the end of a key. -/
theorem number_inj {t t' : UInt32} (h : t.toNat<255) (h' : t'.toNat<255) {n n' : ℕ} :
    decimal (t+1).toUInt8.toNat++keySeparator::decimal n=
        decimal (t'+1).toUInt8.toNat++keySeparator::decimal n' ↔ t=t' ∧ n=n' := by
  rw [append_delim_inj (separator_not_mem_decimal n) (separator_not_mem_decimal n'),decimal_inj,
    decimal_inj,channel_eq h,channel_eq h',Nat.add_right_cancel_iff,UInt32.toNat_inj]

/-- A key with address is read from the end as well. -/
theorem addressed_inj {ip ip' : Str} {t t' : UInt32} (h : t.toNat<255) (h' : t'.toNat<255) {n n' : ℕ} :
    ip++keySeparator::(decimal (t+1).toUInt8.toNat++keySeparator::decimal n)=
        ip'++keySeparator::(decimal (t'+1).toUInt8.toNat++keySeparator::decimal n') ↔
      ip=ip' ∧ t=t' ∧ n=n' := by
  have hassoc : ∀ (ip : Str) (t : UInt32) (n : ℕ),
      ip++keySeparator::(decimal (t+1).toUInt8.toNat++keySeparator::decimal n)=
        (ip++keySeparator::decimal (t+1).toUInt8.toNat)++keySeparator::decimal n := by
    intro ip t n
    rw [List.append_assoc,List.cons_append]
  rw [hassoc,hassoc,append_delim_inj (separator_not_mem_decimal n) (separator_not_mem_decimal n'),
    append_delim_inj (separator_not_mem_decimal _) (separator_not_mem_decimal _),decimal_inj,
    decimal_inj,channel_eq h,channel_eq h',Nat.add_right_cancel_iff,UInt32.toNat_inj,and_assoc]

theorem number_ne_addressed (ip : Str) (m m' n n' : ℕ) :
    decimal m++keySeparator::decimal n≠
      ip++keySeparator::(decimal m'++keySeparator::decimal n') := by
  intro h
  have hassoc : ip++keySeparator::(decimal m'++keySeparator::decimal n')=
      (ip++keySeparator::decimal m')++keySeparator::decimal n' := by
    rw [List.append_assoc,List.cons_append]
  rw [hassoc,append_delim_inj (separator_not_mem_decimal n) (separator_not_mem_decimal n')] at h
  refine separator_not_mem_decimal m ?_
  rw [h.1]
  exact List.mem_append_right _ List.mem_cons_self

/-- Names are equal exactly for confusable objects. -/
theorem name_eq_iff_confusable {c c' : Creation} (h : c.InRange) (h' : c'.InRange)
    (session : Session) : c.name session=c'.name session ↔ Confusable c c' := by
  rw [name_eq_iff h.counter h'.counter]
  unfold Confusable Creation.bucket Creation.key
  cases c.object with
  | direct =>
    cases c'.object with
    | direct =>
      dsimp only
      rw [number_inj h.thread h'.thread]
      exact ⟨fun hk => ⟨hk.2.1,hk.2.2,trivial⟩,fun hk => ⟨rfl,hk.1,hk.2.1⟩⟩
    | forTarget target =>
      exact iff_of_false (fun hk => number_ne_addressed _ _ _ _ _ hk.2) fun hk => hk.2.2
  | forTarget target =>
    cases c'.object with
    | direct =>
      exact iff_of_false (fun hk => number_ne_addressed _ _ _ _ _ hk.2.symm) fun hk => hk.2.2
    | forTarget target' =>
      dsimp only
      rw [addressed_inj h.thread h'.thread,List.append_cancel_left_eq]
      exact ⟨fun hk => ⟨hk.2.2.1,hk.2.2.2,hk.1,hk.2.1⟩,fun hk => ⟨hk.2.2.1,hk.2.2.2,hk.1,hk.2.1⟩⟩

/-- A key that the worker does not know is noted as missing. -/
theorem mem_fetchKeys (cfg : SchedulerConfig) (callId : UInt32) (inflight : InflightFuncArgs)
    {st : SchedState} {key : Str} (h : ¬st.keyLenMap.contains key=true) :
    key∈(fetchKeys cfg callId [key] inflight st).1.inflightArgs := by
  rw [fetchKeys,if_neg h]
  exact USet.mem_insert.mpr (Or.inl rfl)

/-- An object is not taken for one of the worker's own, if and only if it is
confusable with none of them. -/
theorem unmistaken_iff {own : List Creation} {c : Creation} (hown : ∀ c'∈own,c'.InRange)
    (hc : c.InRange) (session : Session) :
    Unmistaken own session c ↔ ∀ c'∈own,¬Confusable c' c := by
  constructor
  · intro h c' hc' hconf
    exact h.names c' hc' ((name_eq_iff_confusable (hown c' hc') hc session).mpr hconf)
  · intro h
    have hnames : ∀ c'∈own,c'.name session≠c.name session := fun c' hc' he =>
      h c' hc' ((name_eq_iff_confusable (hown c' hc') hc session).mp he)
    refine ⟨hnames,fun cfg callId inflight st hst => mem_fetchKeys cfg callId inflight fun hmem => ?_⟩
    obtain ⟨c',hc',he⟩ := hst _ hmem
    exact hnames c' hc' he

/-- The first object of the first executor of a node. -/
def firstObject (node : IPv4) (object : Unnamed) : Creation := ⟨node,0,[],object⟩

theorem unmistaken_named : Unmistaken [firstObject ⟨10,0,0,1⟩ (.forTarget (str "f"))]
    (str "0123456789abcdef") (firstObject ⟨10,0,0,2⟩ (.forTarget (str "f"))) := by
  have hrange : ∀ c'∈[firstObject ⟨10,0,0,1⟩ (.forTarget (str "f"))],c'.InRange := by
    intro c' hc'
    rw [List.mem_singleton.mp hc']
    exact ⟨by decide,by decide⟩
  refine (unmistaken_iff hrange ⟨by decide,by decide⟩ _).mpr fun c' hc' hconf => ?_
  rw [List.mem_singleton.mp hc'] at hconf
  exact absurd hconf.2.2.2 (by decide +kernel)

/-- The first objects for a direct invocation have one name on all nodes; those
for a target have one name on nodes whose addresses differ by dots only. A
worker that has such an object does not fetch the other. -/
theorem objects_mistaken :
    (firstObject ⟨10,0,0,1⟩ .direct).name (str "0123456789abcdef")=
      (firstObject ⟨10,0,0,2⟩ .direct).name (str "0123456789abcdef") ∧
    (firstObject ⟨1,11,0,1⟩ (.forTarget (str "f"))).name (str "0123456789abcdef")=
      (firstObject ⟨11,1,0,1⟩ (.forTarget (str "f"))).name (str "0123456789abcdef") ∧
    ∀ (cfg : SchedulerConfig) (callId : UInt32) (inflight : InflightFuncArgs) (st : SchedState),
      st.keyLenMap.contains
        ((firstObject ⟨10,0,0,1⟩ .direct).name (str "0123456789abcdef"))=true →
      (fetchKeys cfg callId [(firstObject ⟨10,0,0,2⟩ .direct).name (str "0123456789abcdef")]
        inflight st).1.inflightArgs=inflight.inflightArgs := by
  have hdirect : (firstObject ⟨10,0,0,1⟩ .direct).name (str "0123456789abcdef")=
      (firstObject ⟨10,0,0,2⟩ .direct).name (str "0123456789abcdef") := by decide +kernel
  refine ⟨hdirect,by decide +kernel,fun cfg callId inflight st hst => ?_⟩
  rw [hdirect] at hst
  rw [fetchKeys,if_pos hst,fetchKeys]

end Pheromone.ObjectNames
