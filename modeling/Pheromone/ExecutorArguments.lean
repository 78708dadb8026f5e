import Pheromone.ObjectTransport
import Pheromone.RequestAdmission
import Pheromone.ArgumentLayouts
import Pheromone.CoordinatorNotify

/-!
# How an executor reads the arguments of a call

Values are passed on as they are; names with sizes are looked up in shared
memory, three fields at a time. Other modes never set the number of arguments.
-/

namespace Pheromone.ExecutorArguments

open DelimitedText CommonNames SchedulerState Scheduling ObjectTransport CoordinatorNotify

/-- What the parsing of a call comes to. -/
inductive Parsed where
  /-- The function is called with these arguments. -/
  | argv (args : List Str)
  /-- The fields are not triples; the function is not called. -/
  | rejected
  /-- A size is no number, a segment is missing or the number of arguments
  is never set. -/
  | undefined
  deriving DecidableEq

/-- Session keys and values of objects in shared memory. -/
def shmObjects (st : SchedState) (ts : List (Str×Str×Str)) : Option (List (Str×Str)) :=
  ts.mapM fun t => do
    let size ← stoi t.2.2
    if 0≤ size then
      let data ← readShm st (tripleName t) size.toNat
      some (t.2.1,data)
    else none

/-- The arguments of a call by its mode: values (0), values from shared
memory (1), or session keys and values from shared memory (2). -/
def parseArgs (st : SchedState) (argFlag : UInt8) (args : List Str) : Parsed :=
  if argFlag=0 then .argv args
  else match triples args with
    | none => .rejected
    | some ts => match shmObjects st ts with
      | none => .undefined
      | some objs =>
        if argFlag=1 then .argv (objs.map Prod.snd)
        else if argFlag=2 then .argv (objs.flatMap fun o => [o.1,o.2])
        else .undefined

/-- The message of a call: type, mode, whether the output is persisted, then
session, function and arguments. Other messages are no calls. -/
def executorArgv (st : SchedState) (msg : Str) : Option Parsed :=
  match msg with
  | 1::flag::_::params =>
    match split (terminated nulChar params) kDelimiterChar with
    | _::_::args => some (parseArgs st (flag-1) args)
    | _ => some .undefined
  | _ => none

/-- The mode byte is read as it was written. -/
theorem modeByte (argFlag : ℤ) : UInt8.ofInt (argFlag+1)-1=UInt8.ofInt argFlag := by
  rw [UInt8.ofInt_add]
  exact UInt8.add_sub_cancel _ _

/-- The message of a call: three bytes and the text. -/
theorem callMessage_eq (call : Invocation) (client : Address) :
    callMessage call client=1::UInt8.ofInt (call.argFlag+1)::
      (if client=[] then 1 else 2)::(call.sessionId++kDelimiter++call.funcName++
        call.funcArgs.flatMap fun arg => kDelimiter++arg) := by
  simp [callMessage]

/-- The fields that an executor reads from a call. -/
theorem executorArgv_callMessage (st : SchedState) (call : Invocation) (client : Address)
    {args : List Str} (htext : split (terminated nulChar (call.sessionId++kDelimiter++
      call.funcName++call.funcArgs.flatMap fun arg => kDelimiter++arg)) kDelimiterChar=
        call.sessionId::call.funcName::args) :
    executorArgv st (callMessage call client)=
      some (parseArgs st (UInt8.ofInt call.argFlag) args) := by
  rw [callMessage_eq,executorArgv,htext]
  dsimp only
  rw [modeByte]

/-- Session and function of a call, as both sides need them. -/
structure PlainCall (sessionId funcName : Str) : Prop where
  session : Plain sessionId
  function : Plain funcName
  named : funcName≠[]

variable {funcName sessionId : Str}

/-- Plain fields, the last of them not empty, are read back. -/
theorem split_call (hc : PlainCall sessionId funcName) {items : List Str}
    (hitems : ∀ item∈items,Plain item) (hlast : items.getLast?≠some []) :
    split (terminated nulChar (sessionId++kDelimiter++funcName++
      items.flatMap fun item => kDelimiterChar::item)) kDelimiterChar=
      sessionId::funcName::items := by
  have hplain : ∀ item∈sessionId::funcName::items,Plain item :=
    List.forall_mem_cons.mpr ⟨hc.session,List.forall_mem_cons.mpr ⟨hc.function,hitems⟩⟩
  have htext : sessionId++kDelimiter++funcName++items.flatMap (fun item => kDelimiterChar::item)=
      sessionId++(funcName::items).flatMap fun item => kDelimiterChar::item := by
    simp [kDelimiter]
  have hnul : nulChar∉sessionId++(funcName::items).flatMap fun item => kDelimiterChar::item := by
    have hd : nulChar≠kDelimiterChar := by decide
    simp only [List.mem_append,List.mem_flatMap,List.mem_cons,not_or,not_exists,not_and]
    exact ⟨hc.session.2,fun item hm => ⟨hd,(hplain item (List.mem_cons_of_mem _ (by simpa using hm))).2⟩⟩
  have hend : (sessionId::funcName::items).getLast?≠some [] := by
    cases items with
    | nil => simpa using hc.named
    | cons item items => simpa using hlast
  rw [htext,terminated_eq_self_iff.mpr hnul,split]
  exact fields_flatMap_delim (fun item hm => (hplain item hm).1) hend

variable {values : List Str}

/-- The text of values that are not empty is cut into them. -/
theorem split_values (hc : PlainCall sessionId funcName) (hvalues : ∀ v∈values,v≠[] ∧ Plain v) :
    split (terminated nulChar (sessionId++kDelimiter++funcName++
      values.flatMap fun arg => kDelimiter++arg)) kDelimiterChar=sessionId::funcName::values := by
  have hlast : values.getLast?≠some [] := fun h => (hvalues [] (List.mem_of_getLast? h)).1 rfl
  exact split_call hc (fun v hv => (hvalues v hv).2) hlast

/-- Values are passed on. -/
theorem executorArgv_values (st : SchedState) (hc : PlainCall sessionId funcName) (appName : Str)
    (client : Address) (hvalues : ∀ v∈values,v≠[] ∧ Plain v) :
    executorArgv st (callMessage ⟨sessionId,appName,funcName,values,0⟩ client)=
      some (.argv values) := by
  have hread := executorArgv_callMessage st ⟨sessionId,appName,funcName,values,0⟩ client
    (split_values hc hvalues)
  rw [hread]
  rfl

/-- The text of joined values is cut into them. -/
theorem split_imploded (hc : PlainCall sessionId funcName) (hvalues : ∀ v∈values,Plain v) :
    split (terminated nulChar (sessionId++kDelimiter++funcName++
      [imploded values].flatMap fun arg => kDelimiter++arg)) kDelimiterChar=
      sessionId::funcName::values := by
  have hplain : ∀ item∈sessionId::funcName::values,Plain item :=
    List.forall_mem_cons.mpr ⟨hc.session,List.forall_mem_cons.mpr ⟨hc.function,hvalues⟩⟩
  have hclosed : ∀ items : List Str,imploded items=closed items [] := by
    intro items
    induction items with
    | nil => rfl
    | cons item items ih =>
      show (item++kDelimiter)++imploded items=item++kDelimiterChar::closed items []
      rw [ih,kDelimiter,List.append_assoc,List.singleton_append]
  have htext : sessionId++kDelimiter++funcName++[imploded values].flatMap (fun arg => kDelimiter++arg)=
      closed (sessionId::funcName::values) [] := by
    simp [closed,kDelimiter,hclosed]
  rw [htext,terminated_closed hplain,split,closed,
    fields_foldr_delim fun item hm => (hplain item hm).1]
  exact List.append_nil _

/-- Joined values are cut apart again. -/
theorem executorArgv_imploded (st : SchedState) (hc : PlainCall sessionId funcName) (appName : Str)
    (client : Address) (hvalues : ∀ v∈values,Plain v) :
    executorArgv st (callMessage ⟨sessionId,appName,funcName,[imploded values],0⟩ client)=
      some (.argv values) := by
  have hread := executorArgv_callMessage st ⟨sessionId,appName,funcName,[imploded values],0⟩ client
    (split_imploded hc hvalues)
  rw [hread]
  rfl

/-- An object as a call by key names it: bucket, session key and value. -/
structure NamedObject where
  bucket : Bucket
  /-- Key and session. -/
  sessionKey : Str
  value : Str

/-- The name of the object. -/
def NamedObject.name (o : NamedObject) : Str := o.bucket++kDelimiter++o.sessionKey

/-- The object lies in shared memory under its recorded length, and its name
can be cut apart. -/
structure NamedObject.Readable (st : SchedState) (o : NamedObject) : Prop where
  bucket : Plain o.bucket
  /-- The session key is plain. -/
  sessionKey : Plain o.sessionKey
  /-- Sizes are read as `int`. -/
  small : o.value.length<2^31
  /-- The segment begins with the value. -/
  memory : readShm st o.name o.value.length=some o.value

/-- Bucket, session key and size. -/
def NamedObject.triple (o : NamedObject) : Str×Str×Str :=
  (o.bucket,o.sessionKey,decimal o.value.length)

/-- Names with sizes, as a scheduler passes them. -/
def pairArgs (objs : List NamedObject) : List Str :=
  objs.flatMap fun o => [o.name,decimal o.value.length]

/-- The fields of such arguments. -/
def tripleArgs (objs : List NamedObject) : List Str :=
  objs.flatMap fun o => [o.bucket,o.sessionKey,decimal o.value.length]

theorem pairArgs_text (objs : List NamedObject) :
    (pairArgs objs).flatMap (fun arg => kDelimiter++arg)=
      (tripleArgs objs).flatMap fun item => kDelimiterChar::item := by
  induction objs with
  | nil => rfl
  | cons o objs ih =>
    show (o.name::decimal o.value.length::pairArgs objs).flatMap (fun arg => kDelimiter++arg)=
      (o.bucket::o.sessionKey::decimal o.value.length::tripleArgs objs).flatMap
        fun item => kDelimiterChar::item
    simp only [List.flatMap_cons,ih]
    simp [NamedObject.name,kDelimiter]

theorem tripleArgs_length (objs : List NamedObject) : (tripleArgs objs).length=3*objs.length := by
  induction objs with
  | nil => rfl
  | cons o objs ih =>
    show (tripleArgs objs).length+3=3*(objs.length+1)
    omega

theorem triples_tripleArgs (objs : List NamedObject) :
    triples (tripleArgs objs)=some (objs.map NamedObject.triple) := by
  induction objs with
  | nil => rfl
  | cons o objs ih =>
    show (triples (tripleArgs objs)).map (o.triple::·)=_
    rw [ih]
    rfl

variable {st : SchedState} {objs : List NamedObject}

/-- Shared memory gives the values. -/
theorem shmObjects_readable (h : ∀ o∈objs,o.Readable st) :
    shmObjects st (objs.map NamedObject.triple)=some (objs.map fun o => (o.sessionKey,o.value)) := by
  induction objs with
  | nil => rfl
  | cons o objs ih =>
    have ho := h o List.mem_cons_self
    have hsize : stoi o.triple.2.2=some (o.value.length : ℤ) := stoi_decimal ho.small
    have hdata : readShm st (tripleName o.triple) (o.value.length : ℤ).toNat=some o.value := ho.memory
    have hrest := ih fun x hx => h x (List.mem_cons_of_mem _ hx)
    rw [shmObjects] at hrest ⊢
    rw [List.map_cons,List.mapM_cons,hsize,hrest]
    simp only [Option.bind_eq_bind,Option.bind_some,Int.natCast_nonneg,if_true,hdata]
    rfl

/-- The last field is a size. -/
theorem tripleArgs_last (objs : List NamedObject) : (tripleArgs objs).getLast?≠some [] := by
  induction objs with
  | nil => exact nofun
  | cons o objs ih =>
    show (o.bucket::o.sessionKey::decimal o.value.length::tripleArgs objs).getLast?≠some []
    rw [List.getLast?_cons_cons,List.getLast?_cons_cons]
    cases hobjs : tripleArgs objs with
    | nil => simpa using decimal_ne_nil o.value.length
    | cons item items =>
      rw [List.getLast?_cons_cons,←hobjs]
      exact ih

/-- The text of names with sizes is cut into their fields. -/
theorem split_pairs (hc : PlainCall sessionId funcName)
    (h : ∀ o∈objs,Plain o.bucket ∧ Plain o.sessionKey) :
    split (terminated nulChar (sessionId++kDelimiter++funcName++
      (pairArgs objs).flatMap fun arg => kDelimiter++arg)) kDelimiterChar=
      sessionId::funcName::tripleArgs objs := by
  have hplain : ∀ item∈tripleArgs objs,Plain item := by
    intro item hm
    obtain ⟨o,ho,hitem⟩ := List.mem_flatMap.mp hm
    have hr := h o ho
    simp only [List.mem_cons,List.not_mem_nil,or_false] at hitem
    rcases hitem with rfl | rfl | rfl
    · exact hr.1
    · exact hr.2
    · exact plain_decimal _
  have htext := split_call hc hplain (tripleArgs_last objs)
  rwa [←pairArgs_text] at htext

/-- Names with sizes: every mode reads the same fields. -/
theorem executorArgv_pairs (hc : PlainCall sessionId funcName) (appName : Str) (client : Address)
    (argFlag : ℤ) (h : ∀ o∈objs,o.Readable st) :
    executorArgv st (callMessage ⟨sessionId,appName,funcName,pairArgs objs,argFlag⟩ client)=
      some (parseArgs st (UInt8.ofInt argFlag) (tripleArgs objs)) :=
  executorArgv_callMessage st ⟨sessionId,appName,funcName,pairArgs objs,argFlag⟩ client
    (split_pairs hc fun o ho => ⟨(h o ho).bucket,(h o ho).sessionKey⟩)

/-- What each argument mode makes of readable objects. -/
theorem parseArgs_tripleArgs (h : ∀ o∈objs,o.Readable st) :
    parseArgs st (UInt8.ofInt 0) (tripleArgs objs)=.argv (tripleArgs objs) ∧
    parseArgs st (UInt8.ofInt 1) (tripleArgs objs)=.argv (objs.map NamedObject.value) ∧
    parseArgs st (UInt8.ofInt 2) (tripleArgs objs)=
      .argv (objs.flatMap fun o => [o.sessionKey,o.value]) ∧
    parseArgs st (UInt8.ofInt 3) (tripleArgs objs)=.undefined := by
  have hts := triples_tripleArgs objs
  have hshm := shmObjects_readable h
  refine ⟨rfl,?_,?_,?_⟩
  · rw [parseArgs,if_neg (by decide),hts]
    dsimp only
    rw [hshm]
    dsimp only
    rw [if_pos (by decide),List.map_map]
    rfl
  · rw [parseArgs,if_neg (by decide),hts]
    dsimp only
    rw [hshm]
    dsimp only
    rw [if_neg (by decide),if_pos (by decide),List.flatMap_map]
  · rw [parseArgs,if_neg (by decide),hts]
    dsimp only
    rw [hshm]
    dsimp only
    rw [if_neg (by decide),if_neg (by decide)]

end Pheromone.ExecutorArguments
