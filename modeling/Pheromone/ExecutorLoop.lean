import Pheromone.ExecutorArguments
import Pheromone.ObjectDispatch

/-!
# The executor's loop

An executor cuts a message into fields, fills a table of arguments slot by
slot and calls the function. Positions of slots come from positions of fields
by integer division; argument sizes belong to one call.
-/

namespace Pheromone.ExecutorLoop

open UnorderedContainers GuardedRuns DelimitedText CommonNames ExecutorPool SchedulerState Scheduling
open FaultingRuns SchedulingRules ArgumentLayouts ObjectTransport ObjectDispatch RequestAdmission
open ExecutorArguments

/-- The user library with the sizes of the arguments of the running call. -/
structure ExecLibrary extends UserLibrary where
  /-- Sizes of the arguments. -/
  sizeOfArgs : List ℕ
  deriving DecidableEq

/-- Forget the call. -/
def ExecLibrary.clearSession (lib : ExecLibrary) : ExecLibrary :=
  {lib with
    function := []
    sessionId := []
    persistFlag := 0
    sizeOfArgs := []}

/-- Note the size of the next argument. -/
def ExecLibrary.addArgSize (lib : ExecLibrary) (size : ℕ) : ExecLibrary :=
  {lib with sizeOfArgs := lib.sizeOfArgs++[size]}

/-- The size of an argument; an argument without one has the largest size
there is. -/
def ExecLibrary.getSizeOfArg (lib : ExecLibrary) (argIdx : ℕ) : ℕ :=
  lib.sizeOfArgs.getD argIdx (2^64-1)

/-- A number as a size of 64 bits. -/
def toSize (n : ℤ) : ℕ := (n%2^64).toNat

/-- What a slot points to: characters of its own, or a shared memory object
that was opened with a size. -/
inductive ArgValue where
  | chars (text : Str)
  | shm (name : Str) (size : ℤ)
  deriving DecidableEq

/-- The bytes of an argument. -/
def ArgValue.size : ArgValue → ℕ
  | .chars text => text.length
  | .shm _ size => toSize size

/-- The arguments while they are parsed. -/
structure ArgTable where
  /-- The user library. -/
  lib : ExecLibrary
  /-- The slots that were written and what was written, in order. -/
  writes : List (ℕ×ArgValue)
  /-- Shared memory objects that were opened, with their sizes, in order. -/
  opened : List (Str×ℤ)
  deriving DecidableEq

/-- Write a slot and note the size of its argument. -/
def ArgTable.put (t : ArgTable) (slot : ℕ) (v : ArgValue) : ArgTable :=
  {t with
    lib := t.lib.addArgSize v.size
    writes := t.writes++[(slot,v)]}

/-- Plain arguments, from a slot on. -/
def plainArgs : ℕ → List Str → ArgTable → ArgTable
  | _,[],t => t
  | i,arg::rest,t => plainArgs (i+1) rest (t.put i (.chars arg))

/-- The object that is named by the field at a position and the next one: its
value, or its session key and its value. -/
def keyedArg (argFlag : UInt8) (i : ℕ) (bucket sessionKey : Str) (size : ℤ) (t : ArgTable) : ArgTable :=
  let name := bucket++kDelimiter++sessionKey
  let t := {t with opened := t.opened++[(name,size)]}
  if argFlag=1 then t.put (i/3) (.shm name size)
  else if argFlag=2 then
    let index := 2*(i-1)/3
    (t.put index (.chars sessionKey)).put (index+1) (.shm name size)
  else t

/-- The fields from a position on, three at a time. A size that is no number
ends the process. -/
def keyedArgs (argFlag : UInt8) : ℕ → List Str → ArgTable → Option ArgTable
  | _,[],t => some t
  | i,bucket::sessionKey::size::rest,t => do
    let size ← stoi size
    keyedArgs argFlag (i+3) rest (keyedArg argFlag i bucket sessionKey size t)
  | _,_,_ => none

/-- Number of slots for so many fields, the name of the function included;
without a branch for the mode it is not set. -/
def argSize (argFlag : UInt8) (fields : ℕ) : Option ℕ :=
  if argFlag=1 then some (fields/3)
  else if argFlag=2 then some (2*(fields-1)/3)
  else none

/-- What the parsing of the arguments comes to: a table with its number of
slots, a message that is turned down, or the end of defined behaviour. -/
inductive ParsedCall where
  | table (size : ℕ) (t : ArgTable)
  | rejected
  | undefined
  deriving DecidableEq

/-- Parse the arguments of a call. -/
def parseCall (argFlag : UInt8) (args : List Str) (lib : ExecLibrary) : ParsedCall :=
  let funcWithArgs := args.length+1
  if argFlag=0 then .table (funcWithArgs-1) (plainArgs 0 args ⟨lib,[],[]⟩)
  else if funcWithArgs%3=1 then
    match argSize argFlag funcWithArgs,keyedArgs argFlag 1 args ⟨lib,[],[]⟩ with
    | some size,some t => .table size t
    | _,_ => .undefined
  else .rejected

/-- What an executor does: it reports that it is busy or free, and it calls a
function with a number of arguments and their table. -/
inductive ExecEvent where
  | status (busy : Bool)
  | invoked (size : ℕ) (t : ArgTable)
  deriving DecidableEq

/-- An executor between two messages. -/
structure Executor where
  /-- The user library. -/
  lib : ExecLibrary
  /-- Functions that are loaded. -/
  nameFuncMap : USet Str
  /-- What it has done, oldest first. -/
  trace : List ExecEvent
  deriving DecidableEq

/-- A new executor. -/
def Executor.start (chanId : UInt8) : Executor := ⟨⟨⟨chanId,0,[],[],0⟩,[]⟩,∅,[]⟩

/-- Record an event. -/
def Executor.log (s : Executor) (e : ExecEvent) : Executor := {s with trace := s.trace++[e]}

/-- How a function ends: with an exit signal or an exception, and after so
many requests. -/
structure FunctionEnd where
  /-- The exit signal; none for an exception. -/
  exitSignal : Option ℤ
  /-- The last request number. -/
  rid : UInt8

/-- A message is taken from the channel, with what becomes of loading its
function and of running it; or nothing has come in time. -/
inductive ExecLabel where
  | message (msg : Str) (loads : Bool) (finish : FunctionEnd)
  | timer

/-- Call the function with its arguments. Exit signals and exceptions are
only printed. -/
def Executor.invoke (s : Executor) (size : ℕ) (t : ArgTable) (finish : FunctionEnd) : Executor :=
  {s.log (.invoked size t) with lib := {t.lib with rid := finish.rid}.clearSession}

/-- A call of a function with its fields. -/
def Executor.call (s : Executor) (argFlag persistFlag : UInt8) (sessionId funcName : Str)
    (args : List Str) (loads : Bool) (finish : FunctionEnd) : Option Executor :=
  let lib := {s.lib with
    function := funcName
    sessionId := sessionId
    persistFlag := persistFlag}
  if funcName∈s.nameFuncMap ∨ loads=true then
    let s := {s with
      lib := lib
      nameFuncMap := s.nameFuncMap.insert funcName}
    match parseCall argFlag args lib with
    | .table size t => some ((s.invoke size t finish).log (.status false))
    | .rejected => some (s.log (.status false))
    | .undefined => none
  else some ({s with lib := lib}.log (.status false))

/-- One pass of the loop. Messages of other types are passed over. -/
def step (s : Executor) : ExecLabel → Option Executor
  | .message (1::flag::persistFlag::params) loads finish =>
    match split (terminated nulChar params) kDelimiterChar with
    | sessionId::funcName::args =>
      (s.log (.status true)).call (flag-1) persistFlag sessionId funcName args loads finish
    | _ => none
  | .message (1::_) _ _ => none
  | .message _ _ _ => some s
  | .timer => some (s.log (.status false))

variable {s : Executor} {argFlag : UInt8} {args : List Str}

/-- A call ends with cleared sizes if the function was called, and otherwise
with those that there were before. -/
theorem sizeOfArgs_call {s' : Executor} {persistFlag : UInt8} {sessionId funcName : Str}
    {loads : Bool} {finish : FunctionEnd}
    (h : s.call argFlag persistFlag sessionId funcName args loads finish=some s') :
    s'.lib.sizeOfArgs=[] ∨ s'.lib.sizeOfArgs=s.lib.sizeOfArgs := by
  unfold Executor.call at h
  dsimp only at h
  split at h
  · split at h
    · cases h
      exact Or.inl rfl
    · cases h
      exact Or.inr rfl
    · cases h
  · cases h
    exact Or.inr rfl

/-- Whichever way a message is handled, no sizes are left if there were none. -/
theorem sizeOfArgs_step {s' : Executor} {l : ExecLabel} (h : s.lib.sizeOfArgs=[])
    (hs : step s l=some s') : s'.lib.sizeOfArgs=[] := by
  unfold step at hs
  split at hs
  · split at hs
    · exact (sizeOfArgs_call hs).elim id fun hsame => hsame.trans h
    · cases hs
  · cases hs
  · cases hs
    exact h
  · cases hs
    exact h

/-- No sizes are left after any run. -/
theorem sizeOfArgs_run {chanId : UInt8} {l : List ExecLabel}
    (h : run step (Executor.start chanId) l=some s) : s.lib.sizeOfArgs=[] := by
  have hstep : ∀ s l s',s.lib.sizeOfArgs=[] → step s l=some s' → s'.lib.sizeOfArgs=[] :=
    fun _ _ _ => sizeOfArgs_step
  exact run_invariant hstep rfl h

/-- The arguments that were written so far. -/
def ArgTable.values (t : ArgTable) : List ArgValue := t.writes.map Prod.snd

/-- Every slot up to the last one was written once, in order, and every
argument has its size. -/
structure ArgTable.Filled (t : ArgTable) : Prop where
  slots : t.writes.map Prod.fst=List.range t.values.length
  sizes : t.lib.sizeOfArgs=t.values.map ArgValue.size

theorem ArgTable.put_values (t : ArgTable) (slot : ℕ) (v : ArgValue) :
    (t.put slot v).values=t.values++[v] := List.map_append

variable {t : ArgTable}

/-- The next slot is written. -/
theorem ArgTable.Filled.put (h : t.Filled) {slot : ℕ} (hslot : slot=t.values.length) (v : ArgValue) :
    (t.put slot v).Filled where
  slots := by
    have hlen : (t.put slot v).values.length=t.values.length+1 := by
      rw [put_values,List.length_append,List.length_singleton]
    have hwrites : (t.put slot v).writes.map Prod.fst=t.writes.map Prod.fst++[slot] := List.map_append
    rw [hwrites,hlen,List.range_succ,h.slots,hslot]
  sizes := by
    have hsizes : (t.put slot v).lib.sizeOfArgs=t.lib.sizeOfArgs++[v.size] := rfl
    rw [hsizes,put_values,List.map_append,h.sizes,List.map_singleton]

/-- The size of every argument can be asked for. -/
theorem ArgTable.Filled.getSizeOfArg (h : t.Filled) {i : ℕ} (hi : i<t.values.length) :
    (t.values.map ArgValue.size)[i]?=some (t.lib.getSizeOfArg i) := by
  have hlen : i<t.lib.sizeOfArgs.length := by
    rw [h.sizes,List.length_map]
    exact hi
  rw [←h.sizes,ExecLibrary.getSizeOfArg,List.getD_eq_getElem?_getD,List.getElem?_eq_getElem hlen]
  rfl

/-- Plain arguments fill the table. -/
theorem plainArgs_filled (h : t.Filled) (args : List Str) :
    (plainArgs t.values.length args t).Filled ∧
      (plainArgs t.values.length args t).values=t.values++args.map .chars ∧
        (plainArgs t.values.length args t).opened=t.opened := by
  induction args generalizing t with
  | nil => exact ⟨h,(List.append_nil _).symm,rfl⟩
  | cons arg args ih =>
    have hlen : (t.put t.values.length (.chars arg)).values.length=t.values.length+1 := by
      rw [ArgTable.put_values,List.length_append,List.length_singleton]
    obtain ⟨hfilled,hvalues,hopened⟩ := ih (h.put rfl (.chars arg))
    rw [hlen] at hfilled hvalues hopened
    refine ⟨hfilled,hvalues.trans ?_,hopened⟩
    rw [ArgTable.put_values,List.append_assoc,List.singleton_append,List.map_cons]

/-- Arguments per object of a mode. -/
def perObject (argFlag : UInt8) : ℕ := if argFlag=1 then 1 else if argFlag=2 then 2 else 0

/-- The arguments that an object gives: its value, or its session key and its value. -/
def objectValues (argFlag : UInt8) (bucket sessionKey : Str) (size : ℤ) : List ArgValue :=
  if argFlag=1 then [.shm (bucket++kDelimiter++sessionKey) size]
  else if argFlag=2 then [.chars sessionKey,.shm (bucket++kDelimiter++sessionKey) size]
  else []

theorem objectValues_length (argFlag : UInt8) (bucket sessionKey : Str) (size : ℤ) :
    (objectValues argFlag bucket sessionKey size).length=perObject argFlag := by
  unfold objectValues perObject
  split
  · rfl
  · split <;> rfl

/-- The object at the position of the next slots fills them. -/
theorem keyedArg_filled {k : ℕ} (h : t.Filled) (hlen : t.values.length=perObject argFlag*k)
    (bucket sessionKey : Str) (size : ℤ) :
    (keyedArg argFlag (3*k+1) bucket sessionKey size t).Filled ∧
      (keyedArg argFlag (3*k+1) bucket sessionKey size t).values=
        t.values++objectValues argFlag bucket sessionKey size ∧
      (keyedArg argFlag (3*k+1) bucket sessionKey size t).opened=
        t.opened++[(bucket++kDelimiter++sessionKey,size)] ∧
      (keyedArg argFlag (3*k+1) bucket sessionKey size t).lib.toUserLibrary=t.lib.toUserLibrary := by
  have hopen : ∀ name,({t with opened := t.opened++[(name,size)]} : ArgTable).Filled := fun _ =>
    ⟨h.slots,h.sizes⟩
  unfold keyedArg objectValues
  dsimp only
  by_cases h1 : argFlag=1
  · rw [if_pos h1,if_pos h1]
    have hslot : (3*k+1)/3=t.values.length := by
      rw [hlen,perObject,if_pos h1]
      omega
    exact ⟨(hopen _).put hslot _,ArgTable.put_values _ _ _,rfl,rfl⟩
  · rw [if_neg h1,if_neg h1]
    by_cases h2 : argFlag=2
    · rw [if_pos h2,if_pos h2]
      have hslot : 2*(3*k+1-1)/3=t.values.length := by
        rw [hlen,perObject,if_neg h1,if_pos h2]
        omega
      have hfirst := (hopen (bucket++kDelimiter++sessionKey)).put hslot (.chars sessionKey)
      refine ⟨hfirst.put ?_ _,?_,rfl,rfl⟩
      · rw [ArgTable.put_values,List.length_append,List.length_singleton,hslot]
        rfl
      · rw [ArgTable.put_values,ArgTable.put_values,List.append_assoc]
        rfl
    · rw [if_neg h2,if_neg h2]
      exact ⟨hopen _,(List.append_nil _).symm,rfl,rfl⟩

/-- The objects that fields name: bucket, session key and size. -/
def namedSizes (ts : List (Str×Str×Str)) : Option (List (Str×Str×ℤ)) :=
  ts.mapM fun t => (stoi t.2.2).map fun size => (t.1,t.2.1,size)

variable {ts : List (Str×Str×Str)}

/-- Fields that name objects fill the table, from any object on. -/
theorem keyedArgs_filled {objs : List (Str×Str×ℤ)} (hts : triples args=some ts)
    (hobjs : namedSizes ts=some objs) {k : ℕ} (h : t.Filled)
    (hlen : t.values.length=perObject argFlag*k) :
    ∃ t',keyedArgs argFlag (3*k+1) args t=some t' ∧ t'.Filled ∧
      t'.values.length=perObject argFlag*(k+ts.length) ∧
      t'.values=t.values++objs.flatMap (fun o => objectValues argFlag o.1 o.2.1 o.2.2) ∧
      t'.opened=t.opened++objs.map (fun o => (o.1++kDelimiter++o.2.1,o.2.2)) ∧
      t'.lib.toUserLibrary=t.lib.toUserLibrary := by
  induction ts generalizing args objs t k with
  | nil =>
    rw [triples_eq_nil hts]
    cases hobjs
    exact ⟨t,rfl,h,hlen,(List.append_nil _).symm,(List.append_nil _).symm,rfl⟩
  | cons x ts ih =>
    obtain ⟨rest,rfl,hrest⟩ := triples_eq_cons hts
    obtain ⟨bucket,sessionKey,text⟩ := x
    rw [namedSizes,List.mapM_cons] at hobjs
    obtain ⟨o,ho,hobjs⟩ := Option.bind_eq_some_iff.mp hobjs
    obtain ⟨size,hsize,rfl⟩ := Option.map_eq_some_iff.mp ho
    obtain ⟨others,hothers,hobjs⟩ := Option.bind_eq_some_iff.mp hobjs
    cases hobjs
    obtain ⟨hfilled,hvalues,hopened,hlib⟩ := keyedArg_filled h hlen bucket sessionKey size
    have hnext : (keyedArg argFlag (3*k+1) bucket sessionKey size t).values.length=
        perObject argFlag*(k+1) := by
      rw [hvalues,List.length_append,hlen,objectValues_length,Nat.mul_succ]
    obtain ⟨t',hrun,hfilled',hcount,hvalues',hopened',hlib'⟩ := ih hrest hothers hfilled hnext
    refine ⟨t',?_,hfilled',?_,?_,?_,hlib'.trans hlib⟩
    · have hsize' : stoi text=some size := hsize
      rw [keyedArgs,hsize']
      exact hrun
    · rw [hcount,List.length_cons,Nat.add_right_comm k 1 ts.length]
      rfl
    · rw [hvalues',hvalues,List.append_assoc]
      rfl
    · rw [hopened',hopened,List.append_assoc]
      rfl

variable {lib : ExecLibrary}

/-- A call with objects in shared memory is accepted, and its table is filled
to its last slot. -/
theorem parseCall_keyed (hflag : argFlag=1 ∨ argFlag=2) {objs : List (Str×Str×ℤ)}
    (hts : triples args=some ts) (hobjs : namedSizes ts=some objs) (hlib : lib.sizeOfArgs=[]) :
    ∃ t,parseCall argFlag args lib=.table t.values.length t ∧ t.Filled ∧
      t.values=objs.flatMap (fun o => objectValues argFlag o.1 o.2.1 o.2.2) ∧
      t.opened=objs.map (fun o => (o.1++kDelimiter++o.2.1,o.2.2)) ∧
      t.lib.toUserLibrary=lib.toUserLibrary := by
  have hempty : (⟨lib,[],[]⟩ : ArgTable).Filled := ⟨rfl,hlib⟩
  obtain ⟨t,hrun,hfilled,hslots,hvalues,hopened,hsame⟩ :=
    @keyedArgs_filled argFlag args _ ts objs hts hobjs 0 hempty rfl
  have hfields : args.length=3*ts.length := triples_length hts
  have hcount : argSize argFlag (args.length+1)=some t.values.length := by
    rw [hslots,hfields]
    rcases hflag with rfl|rfl
    · show some ((3*ts.length+1)/3)=some (1*(0+ts.length))
      congr 1
      omega
    · show some (2*(3*ts.length+1-1)/3)=some (2*(0+ts.length))
      congr 1
      omega
  refine ⟨t,?_,hfilled,hvalues,hopened,hsame⟩
  unfold parseCall
  dsimp only
  rw [if_neg (by rcases hflag with rfl|rfl <;> decide),if_pos (by omega),hcount,hrun]

theorem parseCall_plain (args : List Str) (hlib : lib.sizeOfArgs=[]) :
    ∃ t,parseCall 0 args lib=.table t.values.length t ∧ t.Filled ∧ t.values=args.map .chars ∧
      t.opened=[] := by
  have hempty : (⟨lib,[],[]⟩ : ArgTable).Filled := ⟨rfl,hlib⟩
  obtain ⟨hfilled,hvalues,hopened⟩ := plainArgs_filled hempty args
  have hcount : (plainArgs 0 args ⟨lib,[],[]⟩).values.length=args.length := by
    have hlen := congrArg List.length hvalues
    exact hlen.trans (by rw [List.length_append,List.length_map]; exact Nat.zero_add _)
  refine ⟨plainArgs 0 args ⟨lib,[],[]⟩,?_,hfilled,hvalues,hopened⟩
  rw [hcount]
  rfl

/-- What an argument holds for a function, given the shared memory. -/
def ArgValue.read (st : SchedState) : ArgValue → Option Str
  | .chars text => some text
  | .shm name size => if 0≤ size then readShm st name size.toNat else none

/-- The bytes of an object's arguments. -/
def objectArgs (argFlag : UInt8) (o : Str×Str) : List Str :=
  if argFlag=1 then [o.2] else if argFlag=2 then [o.1,o.2] else []

variable {st : SchedState}

/-- Objects that can be read from shared memory are read through the table. -/
theorem read_objects {objs : List (Str×Str)} (h : shmObjects st ts=some objs) (argFlag : UInt8) :
    ∃ named,namedSizes ts=some named ∧
      (named.flatMap fun o => objectValues argFlag o.1 o.2.1 o.2.2).mapM (ArgValue.read st)=
        some (objs.flatMap (objectArgs argFlag)) := by
  induction ts generalizing objs with
  | nil =>
    cases h
    exact ⟨[],rfl,rfl⟩
  | cons x ts ih =>
    rw [shmObjects,List.mapM_cons] at h
    obtain ⟨o,ho,h⟩ := Option.bind_eq_some_iff.mp h
    obtain ⟨others,hothers,h⟩ := Option.bind_eq_some_iff.mp h
    cases h
    obtain ⟨named,hnamed,hread⟩ := ih hothers
    obtain ⟨size,hsize,ho⟩ := Option.bind_eq_some_iff.mp ho
    split at ho
    · rename_i hpos
      obtain ⟨data,hdata,ho⟩ := Option.bind_eq_some_iff.mp ho
      cases ho
      have hvalue : (ArgValue.shm (x.1++kDelimiter++x.2.1) size).read st=some data :=
        (if_pos hpos).trans hdata
      have hone : (objectValues argFlag x.1 x.2.1 size).mapM (ArgValue.read st)=
          some (objectArgs argFlag (x.2.1,data)) := by
        unfold objectValues objectArgs
        split
        · rw [List.mapM_cons,hvalue]
          rfl
        · split
          · rw [List.mapM_cons,List.mapM_cons,hvalue]
            rfl
          · rfl
      refine ⟨(x.1,x.2.1,size)::named,?_,?_⟩
      · rw [namedSizes] at hnamed ⊢
        rw [List.mapM_cons,hsize,hnamed]
        rfl
      · rw [List.flatMap_cons,List.mapM_append,hone,hread]
        rfl
    · cases ho

theorem read_chars (st : SchedState) (l : List Str) :
    l.mapM (ArgValue.read st∘.chars)=some l := by
  induction l with
  | nil => rfl
  | cons a l ih =>
    rw [List.mapM_cons,ih]
    rfl

/-- The table that is filled slot by slot holds, read through the shared
memory, the arguments of the call. -/
theorem parseCall_argv {values : List Str} (h : parseArgs st argFlag args=.argv values)
    (hlib : lib.sizeOfArgs=[]) :
    ∃ t,parseCall argFlag args lib=.table t.values.length t ∧ t.Filled ∧
      t.values.mapM (ArgValue.read st)=some values := by
  unfold parseArgs at h
  split at h
  · rename_i h0
    cases h
    obtain ⟨t,hparse,hfilled,hvalues,-⟩ := parseCall_plain args hlib
    refine ⟨t,by rw [h0]; exact hparse,hfilled,?_⟩
    rw [hvalues,List.mapM_map]
    exact read_chars st args
  · split at h
    · cases h
    · rename_i ts hts
      split at h
      · cases h
      · rename_i objs hobjs
        obtain ⟨named,hnamed,hread⟩ := read_objects hobjs argFlag
        have hflag : (argFlag=1 ∨ argFlag=2) ∧ values=objs.flatMap (objectArgs argFlag) := by
          split at h
          · rename_i h1
            cases h
            refine ⟨Or.inl h1,?_⟩
            rw [h1,List.map_eq_flatMap]
            rfl
          · split at h
            · rename_i h2
              cases h
              rw [h2]
              exact ⟨Or.inr rfl,rfl⟩
            · cases h
        obtain ⟨t,hparse,hfilled,hvalues,-⟩ := parseCall_keyed hflag.1 hts hnamed hlib
        exact ⟨t,hparse,hfilled,by rw [hvalues,hread,hflag.2]⟩

/-- Every message that stands for a call with arguments makes an executor, in
any state that it reaches, call its function, and the function reads these
arguments. -/
theorem step_of_executorArgv {msg : Str} {values : List Str}
    (h : executorArgv st msg=some (.argv values)) {chanId : UInt8} {l : List ExecLabel}
    (hs : run step (.start chanId) l=some s) (finish : FunctionEnd) :
    ∃ s' t,step s (.message msg true finish)=some s' ∧ t.Filled ∧
      t.values.mapM (ArgValue.read st)=some values ∧
      s'.trace=s.trace++[.status true,.invoked t.values.length t,.status false] := by
  have hempty := sizeOfArgs_run hs
  unfold executorArgv at h
  split at h
  · rename_i flag persistFlag params
    split at h
    · rename_i sessionId funcName args hsplit
      obtain ⟨t,hparse,hfilled,hread⟩ := parseCall_argv (Option.some.inj h)
        (show ({(s.log (.status true)).lib with
          function := funcName
          sessionId := sessionId
          persistFlag := persistFlag} : ExecLibrary).sizeOfArgs=[] from hempty)
      rw [step,hsplit]
      dsimp only
      rw [Executor.call]
      dsimp only
      rw [if_pos (Or.inr rfl),hparse]
      exact ⟨_,t,rfl,hfilled,hread,by simp [Executor.log,Executor.invoke]⟩
    · cases h
  · cases h

/-- Two objects in shared memory. -/
def sampleObjects : List NamedObject := [⟨str "b",str "k",str "value"⟩,⟨str "b",str "j",str "w"⟩]

/-- A worker that has them and whose executor is free. -/
def freeWorker : SchedState :=
  {SchedState.start sampleConfig 1 with
    pool := ⟨UMap.set ∅ 0 0,∅,1⟩
    shm := UMap.set (UMap.set ∅ (str "b|k") (str "value")) (str "b|j") (str "w")}

/-- A call that asks for the session keys and the values of the objects. -/
def sampleCall : Invocation := ⟨str "s",str "app",str "f",pairArgs sampleObjects,2⟩

/-- An executor has taken a call with values, at its start. -/
def earlierCall : List ExecLabel :=
  [.message (callMessage ⟨str "s",str "app",str "g",[str "v"],0⟩ []) true ⟨some 0,3⟩]

/-- The executor is called with the two objects. -/
theorem step_of_executorArgv_objects : ∃ s s' t,run step (.start 1) earlierCall=some s ∧
    step s (.message (callMessage sampleCall []) true ⟨some 0,3⟩)=some s' ∧
    t.values.mapM (ArgValue.read freeWorker)=some [str "k",str "value",str "j",str "w"] ∧
    s'.trace=s.trace++[.status true,.invoked t.values.length t,.status false] := by
  have hargv : executorArgv freeWorker (callMessage sampleCall [])=
      some (.argv [str "k",str "value",str "j",str "w"]) := by decide +kernel
  have hran : (run step (.start 1) earlierCall).isSome=true := by decide +kernel
  obtain ⟨s,hs⟩ := Option.isSome_iff_exists.mp hran
  obtain ⟨s',t,hstep,-,hread,htrace⟩ := step_of_executorArgv hargv hs ⟨some 0,3⟩
  exact ⟨s,s',t,hs,hstep,hread,htrace⟩

/-- The library when the arguments of a call are parsed. -/
def Executor.entered (s : Executor) (call : Invocation) (client : Address) : ExecLibrary :=
  {s.lib with
    function := call.funcName
    sessionId := call.sessionId
    persistFlag := if client=[] then 1 else 2}

/-- The function of an accepted call is called once, if it is there or can be
loaded. -/
theorem step_callMessage (s : Executor) (call : Invocation) (client : Address)
    (htext : split (terminated nulChar (call.sessionId++kDelimiter++call.funcName++
      call.funcArgs.flatMap fun arg => kDelimiter++arg)) kDelimiterChar=
        call.sessionId::call.funcName::args) {size : ℕ}
    (hparse : parseCall (UInt8.ofInt call.argFlag) args (s.entered call client)=.table size t)
    (loads : Bool) (finish : FunctionEnd) :
    ∃ s',step s (.message (callMessage call client) loads finish)=some s' ∧
      s'.trace=s.trace++if call.funcName∈s.nameFuncMap ∨ loads=true then
        [.status true,.invoked size t,.status false] else [.status true,.status false] := by
  have hlib : ({(s.log (.status true)).lib with
      function := call.funcName
      sessionId := call.sessionId
      persistFlag := if client=[] then 1 else 2} : ExecLibrary)=s.entered call client := rfl
  rw [callMessage_eq,step,htext]
  dsimp only
  rw [modeByte,Executor.call]
  dsimp only
  have hmap : (s.log (.status true)).nameFuncMap=s.nameFuncMap := rfl
  rw [hmap]
  by_cases hload : call.funcName∈s.nameFuncMap ∨ loads=true
  · rw [if_pos hload,if_pos hload,hlib,hparse]
    exact ⟨_,rfl,by simp [Executor.log,Executor.invoke]⟩
  · rw [if_neg hload,if_neg hload]
    exact ⟨_,rfl,by simp [Executor.log]⟩

/-- If an event is a message to an executor, it is the message of a call. -/
def OnlyCall (call : Invocation) (client : Address) (e : SchedEvent) : Prop :=
  ∀ executor msg,e=.sent (.toExecutor executor msg) → msg=callMessage call client

/-- What scheduling a call sends to an executor is the message of the call. -/
theorem message_of_scheduleFuncCall {cfg : SchedulerConfig} {origin : Origin} {call : Invocation}
    {executor : UInt8} {msg : Str} (h : SchedEvent.sent (.toExecutor executor msg)∈since st
      (endState id (scheduleFuncCall cfg origin st call))) :
    msg=callMessage call (st.sessionClientAddrMap.getD call.sessionId []) := by
  have hframe := records_frame (OnlyCall call (st.sessionClientAddrMap.getD call.sessionId []))
  have hlog : OnlyCall call (st.sessionClientAddrMap.getD call.sessionId [])
      (.scheduled origin call) := fun _ _ he => by cases he
  have hleads : Leads (Records (OnlyCall call (st.sessionClientAddrMap.getD call.sessionId []))) st
      id (scheduleFuncCall cfg origin st call) := by
    unfold scheduleFuncCall
    dsimp only
    refine Leads.after hframe.trans (hframe.log st _ hlog) ?_
    split
    · rename_i assigned pool _
      refine Leads.after hframe.trans (hframe.pool _ pool) ?_
      refine Leads.after hframe.trans (hframe.sessionClient _ call.sessionId) ?_
      refine Leads.after hframe.trans (hframe.tick _) ?_
      refine (hframe.sendToExecuter ?_ _).bind hframe.trans fun st1 _ =>
        hframe.noteHints st1 call _
      intro executor msg hmsg
      cases hmsg
      exact rfl
    · refine Leads.after hframe.trans (hframe.pool _ (lookup st.pool call.funcName)) ?_
      split
      · exact hframe.trans _ _ _ (hframe.tick _) (hframe.delayCallQueue _ _)
      · split
        · exact hframe.refl _
        · refine (leads_orFault (hframe.refl _) _).bind hframe.trans fun args _ => ?_
          refine hframe.toFrame.forward (fun e he executor msg hmsg => ?_) _
          rcases he with rfl|⟨coord,m,rfl,-,-⟩ <;> cases hmsg
  obtain ⟨events,htrace,hevents⟩ := hleads.endState
  rw [since_eq htrace] at h
  exact hevents _ h executor msg rfl

/-- A worker that is ready for a call sends a message to an executor. -/
theorem exists_sent {cfg : SchedulerConfig} {call : Invocation} (h : Ready cfg st.pool call.funcName)
    (origin : Origin) : ∃ executor msg,SchedEvent.sent (.toExecutor executor msg)∈since st
      (endState id (scheduleFuncCall cfg origin st call)) := by
  obtain ⟨st',executor,hok,htrace⟩ := scheduleFuncCall_sent h origin
  have hsince := since_eq htrace
  rw [hok]
  show ∃ executor msg,SchedEvent.sent (.toExecutor executor msg)∈since st st'
  rw [hsince]
  exact ⟨executor,_,List.mem_cons_of_mem _ List.mem_cons_self⟩

/-- The arguments of a call by key: values, or session keys and values. -/
def keyedValues (argFlag : ℤ) (objs : List NamedObject) : List ArgValue :=
  if argFlag=1 then objs.map fun o => .shm o.name o.value.length
  else objs.flatMap fun o => [.chars o.sessionKey,.shm o.name o.value.length]

/-- The sizes of the arguments of a call by key. -/
def keyedSizes (argFlag : ℤ) (objs : List NamedObject) : List ℕ :=
  if argFlag=1 then objs.map fun o => o.value.length
  else objs.flatMap fun o => [o.sessionKey.length,o.value.length]

/-- A function is called with so many arguments as a call by key says. -/
structure Delivered (call : Invocation) (client : Address) (objs : List NamedObject) (size : ℕ)
    (t : ArgTable) : Prop where
  session : t.lib.sessionId=call.sessionId
  function : t.lib.function=call.funcName
  /-- Whether the output is persisted. -/
  persist : t.lib.persistFlag=if client=[] then 1 else 2
  count : size=(keyedValues call.argFlag objs).length
  /-- Every slot is written once and in range. -/
  slots : t.writes.map Prod.fst=List.range size
  /-- The arguments in their slots. -/
  values : t.values=keyedValues call.argFlag objs
  /-- Exactly the named objects are opened, with their sizes and in order. -/
  opened : t.opened=objs.map fun o => (o.name,(o.value.length : ℤ))
  /-- The function learns the size of every argument. -/
  sizes : ∀ i,i<size → (keyedSizes call.argFlag objs)[i]?=some (t.lib.getSizeOfArg i)

theorem namedSizes_triple {objs : List NamedObject} (h : ∀ o∈objs,o.value.length<2^31) :
    namedSizes (objs.map NamedObject.triple)=
      some (objs.map fun o => (o.bucket,o.sessionKey,(o.value.length : ℤ))) := by
  induction objs with
  | nil => rfl
  | cons o objs ih =>
    have hsize : stoi o.triple.2.2=some (o.value.length : ℤ) := stoi_decimal (h o List.mem_cons_self)
    have hrest := ih fun x hx => h x (List.mem_cons_of_mem _ hx)
    rw [namedSizes] at hrest ⊢
    rw [List.map_cons,List.mapM_cons,hsize,hrest]
    rfl

theorem toSize_natCast {n : ℕ} (h : n<2^31) : toSize n=n := by
  unfold toSize
  omega

theorem keyedSizes_eq {argFlag : ℤ} {objs : List NamedObject} (h : ∀ o∈objs,o.value.length<2^31) :
    (keyedValues argFlag objs).map ArgValue.size=keyedSizes argFlag objs := by
  have hsize : ∀ o∈objs,(ArgValue.shm o.name o.value.length).size=o.value.length := fun o ho =>
    toSize_natCast (h o ho)
  unfold keyedValues keyedSizes
  split
  · rw [List.map_map]
    exact List.map_congr_left hsize
  · rw [List.map_flatMap]
    refine List.flatMap_congr fun o ho => ?_
    rw [List.map_cons,List.map_cons,hsize o ho]
    rfl

theorem flatMap_objectValues {argFlag : ℤ} (hflag : argFlag=1 ∨ argFlag=2) (objs : List NamedObject) :
    (objs.map fun o => (o.bucket,o.sessionKey,(o.value.length : ℤ))).flatMap
      (fun o => objectValues (UInt8.ofInt argFlag) o.1 o.2.1 o.2.2)=keyedValues argFlag objs := by
  rw [List.flatMap_map]
  rcases hflag with rfl|rfl
  · exact List.map_eq_flatMap.symm
  · exact rfl

/-- A scheduler that is ready for a function sends a call of it with any
objects in shared memory to an executor. An executor that is sent the call,
in any state that it can reach, calls the function as the call says, unless
it cannot be loaded, and no sizes of arguments are left from earlier calls or
for later ones, however the function ends. -/
theorem keyed_call_round_trips (cfg : SchedulerConfig) (origin : Origin) (st : SchedState)
    (sessionId appName funcName : Str) (hc : PlainCall sessionId funcName) (objs : List NamedObject)
    (hobjs : ∀ o∈objs,Plain o.bucket ∧ Plain o.sessionKey ∧ o.value.length<2^31) (argFlag : ℤ)
    (hflag : argFlag=1 ∨ argFlag=2) (chanId : UInt8) (l : List ExecLabel) (s : Executor)
    (hrun : run step (Executor.start chanId) l=some s) (loads : Bool) (finish : FunctionEnd) :
    (Ready cfg st.pool funcName → ∃ executor msg,SchedEvent.sent (.toExecutor executor msg)∈since st
      (endState id (scheduleFuncCall cfg origin st
        ⟨sessionId,appName,funcName,pairArgs objs,argFlag⟩))) ∧
    ∀ executor msg,SchedEvent.sent (.toExecutor executor msg)∈since st (endState id
        (scheduleFuncCall cfg origin st ⟨sessionId,appName,funcName,pairArgs objs,argFlag⟩)) →
      s.lib.sizeOfArgs=[] ∧ ∃ s' size t,step s (.message msg loads finish)=some s' ∧
        s'.lib.sizeOfArgs=[] ∧
        Delivered ⟨sessionId,appName,funcName,pairArgs objs,argFlag⟩
          (st.sessionClientAddrMap.getD sessionId []) objs size t ∧
        s'.trace=s.trace++if funcName∈s.nameFuncMap ∨ loads=true then
          [.status true,.invoked size t,.status false] else [.status true,.status false] := by
  refine ⟨fun hready => exists_sent hready origin,fun executor msg hsent => ?_⟩
  have hempty := sizeOfArgs_run hrun
  have hsmall : ∀ o∈objs,o.value.length<2^31 := fun o ho => (hobjs o ho).2.2
  have hflag' : UInt8.ofInt argFlag=1 ∨ UInt8.ofInt argFlag=2 := by
    rcases hflag with rfl|rfl
    · exact Or.inl rfl
    · exact Or.inr rfl
  have htext := split_pairs hc fun o ho => ⟨(hobjs o ho).1,(hobjs o ho).2.1⟩
  have hentered : (s.entered ⟨sessionId,appName,funcName,pairArgs objs,argFlag⟩
      (st.sessionClientAddrMap.getD sessionId [])).sizeOfArgs=[] := hempty
  obtain ⟨t,hparse,hfilled,hvalues,hopened,hlib⟩ := parseCall_keyed hflag'
    (triples_tripleArgs objs) (namedSizes_triple hsmall) hentered
  rw [flatMap_objectValues hflag] at hvalues
  obtain ⟨s',hstep,htrace⟩ := step_callMessage s
    ⟨sessionId,appName,funcName,pairArgs objs,argFlag⟩ (st.sessionClientAddrMap.getD sessionId [])
    htext hparse loads finish
  rw [message_of_scheduleFuncCall hsent]
  refine ⟨hempty,s',t.values.length,t,hstep,sizeOfArgs_step hempty hstep,?_,htrace⟩
  exact {
    session := congrArg UserLibrary.sessionId hlib
    function := congrArg UserLibrary.function hlib
    persist := congrArg UserLibrary.persistFlag hlib
    count := congrArg List.length hvalues
    slots := hfilled.slots
    values := hvalues
    opened := by
      rw [hopened,List.map_map]
      exact rfl
    sizes := by
      intro i hi
      rw [←keyedSizes_eq hsmall,←hvalues]
      exact hfilled.getSizeOfArg hi }

theorem ready_freeWorker (func : Str) : Ready sampleConfig freeWorker.pool func := by
  refine ⟨fun e status h => ?_,(0,0),List.mem_cons_self,Or.inl rfl⟩
  obtain ⟨rfl,-⟩ := Prod.mk.inj (List.mem_singleton.mp (UMap.find?_eq_some_iff.mp h))
  decide

/-- An executor that has taken a call is sent another one. -/
theorem keyed_call_round_trips_two : ∃ s executor msg s' size t,
    run step (.start 1) earlierCall=some s ∧
    SchedEvent.sent (.toExecutor executor msg)∈since freeWorker
      (endState id (scheduleFuncCall sampleConfig .direct freeWorker sampleCall)) ∧
    step s (.message msg true ⟨none,3⟩)=some s' ∧ s'.lib.sizeOfArgs=[] ∧
      Delivered sampleCall [] sampleObjects size t ∧
      s'.trace=s.trace++[.status true,.invoked size t,.status false] := by
  have hran : (run step (.start 1) earlierCall).isSome=true := by decide +kernel
  obtain ⟨s,hs⟩ := Option.isSome_iff_exists.mp hran
  obtain ⟨hsends,hmain⟩ := keyed_call_round_trips sampleConfig .direct freeWorker (str "s") (str "app")
    (str "f") ⟨by decide,by decide,by decide⟩ sampleObjects (by decide) 2 (Or.inr rfl) 1 earlierCall s
    hs true ⟨none,3⟩
  obtain ⟨executor,msg,hsent⟩ := hsends (ready_freeWorker _)
  obtain ⟨-,s',size,t,hstep,hempty,hdelivered,htrace⟩ := hmain executor msg hsent
  rw [if_pos (Or.inr rfl)] at htrace
  exact ⟨s,executor,msg,s',size,t,hs,hsent,hstep,hempty,hdelivered,htrace⟩

end Pheromone.ExecutorLoop
