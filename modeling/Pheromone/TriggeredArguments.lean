import Pheromone.ExecutorArguments
import Pheromone.CoordinatorRefinement

/-!
# The arguments of a triggered function

An option asks for values, for session keys and values, or for session keys.
Objects are passed by value or by name; the two agree for values only.
-/

namespace Pheromone.TriggeredArguments

open UnorderedContainers DelimitedText CommonNames TriggerPrimitives OperationMessages
open SchedulerState Scheduling SchedulerLoop SchedulerFrames RequestAdmission
open ObjectTransport CoordinatorNotify DispatchCapacity ExecutorArguments

/-- The session key of an object. -/
def sessionKeyOf (o : Session×Key) : Str := getKeySessionName o.2 o.1

/-- What the function of a trigger is given. -/
inductive Passing where
  /-- Values of the objects. -/
  | values
  /-- Session keys and values alternately. -/
  | keysAndValues
  /-- Session keys only. -/
  | keys
  deriving DecidableEq

/-- The trigger option that asks for it. -/
def Passing.option : Passing → ℤ
  | .values => 0
  | .keysAndValues => 1
  | .keys => 2

/-- The arguments that are asked for. -/
def expectedArgv (value : Session×Key → Str) (objs : List (Session×Key)) : Passing → List Str
  | .values => objs.map value
  | .keysAndValues => objs.flatMap fun o => [sessionKeyOf o,value o]
  | .keys => objs.map sessionKeyOf

/-- An object as a call by key names it. -/
def namedObject (bucket : Bucket) (value : Session×Key → Str) (o : Session×Key) : NamedObject :=
  ⟨bucket,sessionKeyOf o,value o⟩

/-- Name of an object of an action. -/
def nameOf (bucket : Bucket) (o : Session×Key) : Str := getLocalObjectName bucket o.2 o.1

/-- An object on a worker: it lies in shared memory and its length is known. -/
structure Local (st : SchedState) (bucket : Bucket) (value : Session×Key → Str) (o : Session×Key) :
    Prop where
  /-- The segment. -/
  readable : (namedObject bucket value o).Readable st
  /-- The recorded length. -/
  length : st.keyLenMap.find? (nameOf bucket o)=some (UInt32.ofNat (value o).length)

/-- The values that a table of values knows are the right ones. -/
def Genuine (cache : UMap Str Str) (bucket : Bucket) (value : Session×Key → Str)
    (o : Session×Key) : Prop :=
  ∀ v,cache.find? (nameOf bucket o)=some v → v=value o

/-- A table knows the values of all objects. -/
def AllCached (cache : UMap Str Str) (bucket : Bucket) (objs : List (Session×Key)) : Prop :=
  ∀ o∈objs,cache.contains (nameOf bucket o)=true

instance (cache : UMap Str Str) (bucket : Bucket) (objs : List (Session×Key)) :
    Decidable (AllCached cache bucket objs) := inferInstanceAs (Decidable (∀ o∈objs,_))

variable {st : SchedState} {bucket : Bucket} {value : Session×Key → Str}

variable {st' : SchedState} {o : Session×Key}

/-- A sent object that lies in shared memory is known after its message has
been recorded: a packed one with its value, a large one with its length only. -/
theorem recordObject_local (hmem : (namedObject bucket value o).Readable st) {info : ObjectInfo}
    (hname : info.objName=nameOf bucket o) {packing : UInt8}
    (hinfo : (packing=1 ∧ info.value=value o) ∨ (packing=2 ∧ info.value=decimal (value o).length))
    (h : recordObject st packing info=.ok st') :
    Local st' bucket value o ∧ st'.keyValMap.find? (nameOf bucket o)=
      if packing=1 then some (value o) else st.keyValMap.find? (nameOf bucket o) := by
  rcases hinfo with ⟨rfl,hval⟩ | ⟨rfl,hval⟩
  · obtain rfl := Except.ok.inj h
    refine ⟨⟨⟨hmem.bucket,hmem.sessionKey,hmem.small,hmem.memory⟩,?_⟩,?_⟩
    · rw [hname,hval]
      exact UMap.find?_set_self _ _ _
    · rw [hname,hval,if_pos rfl]
      exact UMap.find?_set_self _ _ _
  · have hsize : stoi info.value=some ((value o).length : ℤ) := by
      rw [hval]
      exact stoi_decimal hmem.small
    have hrec : recordObject st 2 info=.ok {st with
        keyLenMap := st.keyLenMap.set info.objName (UInt32.ofInt (value o).length)} := by
      rw [recordObject,if_neg (by decide),if_pos rfl,hsize]
      rfl
    obtain rfl := Except.ok.inj (hrec.symm.trans h)
    refine ⟨⟨⟨hmem.bucket,hmem.sessionKey,hmem.small,hmem.memory⟩,?_⟩,rfl⟩
    have hsmall : (value o).length<2^31 := hmem.small
    have hcast : UInt32.ofInt ((value o).length : ℤ)=UInt32.ofNat (value o).length := by
      rw [UInt32.ofInt,Int.emod_eq_of_lt (by omega) (by omega),Int.toNat_natCast]
    rw [hname,hcast]
    exact UMap.find?_set_self _ _ _

variable {objs : List (Session×Key)}

theorem mapM_cache {cache : UMap Str Str} (h : ∀ o∈objs,Genuine cache bucket value o) :
    (objs.mapM fun o => cache.find? (nameOf bucket o))=
      if AllCached cache bucket objs then some (objs.map value) else none := by
  induction objs with
  | nil => rfl
  | cons o objs ih =>
    have hrest := ih fun x hx => h x (List.mem_cons_of_mem _ hx)
    have hiff : AllCached cache bucket (o::objs) ↔
        cache.contains (nameOf bucket o)=true ∧ AllCached cache bucket objs := List.forall_mem_cons
    rw [List.mapM_cons,hrest]
    cases hv : cache.find? (nameOf bucket o) with
    | none =>
      have hno : ¬AllCached cache bucket (o::objs) := by
        intro hall
        have hc := (hiff.mp hall).1
        rw [UMap.contains,hv] at hc
        cases hc
      rw [if_neg hno]
      rfl
    | some v =>
      have hc : cache.contains (nameOf bucket o)=true := by
        rw [UMap.contains,hv]
        rfl
      have hval := h o List.mem_cons_self v hv
      by_cases hall : AllCached cache bucket objs
      · rw [if_pos hall,if_pos (hiff.mpr ⟨hc,hall⟩),hval]
        rfl
      · rw [if_neg hall,if_neg fun hcons => hall (hiff.mp hcons).2]
        rfl

theorem keyedArgs_local (h : ∀ o∈objs,Local st bucket value o) :
    keyedArgs st.keyLenMap (objs.map (nameOf bucket))=pairArgs (objs.map (namedObject bucket value)) := by
  rw [keyedArgs,pairArgs,List.flatMap_map,List.flatMap_map]
  refine List.flatMap_congr fun o ho => ?_
  have hl := h o ho
  have hlen : (value o).length%2^32=(value o).length := by
    have hsmall : (value o).length<2^31 := hl.readable.small
    omega
  have hsize : (st.keyLenMap.getD (nameOf bucket o) 0).toNat=(value o).length := by
    rw [UMap.getD,hl.length]
    exact UInt32.toNat_ofNat'.trans hlen
  rw [hsize]
  rfl

/-- The argument mode after some actions of a trigger: it drops to zero at
the first whose values are all cached. -/
def modeAfter (cache : UMap Str Str) (bucket : Bucket) (argFlag : ℤ) (earlier : List TriggerAction) : ℤ :=
  if ∃ a∈earlier,AllCached cache bucket a.sessionKeys then 0 else argFlag

/-- The call for an action. -/
def actionCall (st : SchedState) (bucket : Bucket) (value : Session×Key → Str) (argFlag : ℤ)
    (action : TriggerAction) : TriggerFunctionMetadata :=
  if AllCached st.keyValMap bucket action.sessionKeys then
    ⟨action.function,action.sessionKeys.map value,0⟩
  else ⟨action.function,pairArgs (action.sessionKeys.map (namedObject bucket value)),argFlag⟩

/-- Known objects stay as they are when lengths of others are read. -/
theorem Local.sends {P : SchedEvent → Prop} (h : Local st bucket value o) (hs : Sends P st st')
    (hshm : st'.shm=st.shm) : Local st' bucket value o := by
  have hread : readShm st' (namedObject bucket value o).name (namedObject bucket value o).value.length=
      readShm st (namedObject bucket value o).name (namedObject bucket value o).value.length := by
    rw [readShm,readShm,hshm]
  exact ⟨⟨h.readable.bucket,h.readable.sessionKey,h.readable.small,hread.trans h.readable.memory⟩,
    hs.keyLenMap _ _ h.length⟩

theorem sizedArgs_shm (names : List Str) (st : SchedState) : (sizedArgs names st).2.shm=st.shm := by
  induction names generalizing st with
  | nil => rfl
  | cons name names ih => exact ih _

variable {action : TriggerAction}

theorem activeFuncMetadata_head (hl : ∀ o∈action.sessionKeys,Local st bucket value o)
    (hg : ∀ o∈action.sessionKeys,Genuine st.keyValMap bucket value o) (argFlag : ℤ)
    (later : List TriggerAction) :
    (activeFuncMetadata bucket argFlag (action::later) st).1.head?=
      some (actionCall st bucket value argFlag action) := by
  have hnames : (action.sessionKeys.map fun o => getLocalObjectName bucket o.2 o.1)=
      action.sessionKeys.map (nameOf bucket) := rfl
  have hread := mapM_cache hg
  have hknown : ∀ k∈action.sessionKeys.map (nameOf bucket),st.keyLenMap.contains k=true := by
    intro k hk
    obtain ⟨o,ho,rfl⟩ := List.mem_map.mp hk
    exact UMap.contains_eq_true_iff.mpr ⟨_,(hl o ho).length⟩
  rw [activeFuncMetadata]
  dsimp only
  rw [hnames,List.mapM_map]
  simp only [Function.comp_def]
  rw [hread,actionCall]
  by_cases hall : AllCached st.keyValMap bucket action.sessionKeys
  · rw [if_pos hall,if_pos hall]
    rfl
  · rw [if_neg hall,if_neg hall,←keyedArgs_local hl,sizedArgs_known st hknown]
    rfl

theorem genuine_getD (cache : UMap Str Str) (bucket : Bucket) (o : Session×Key) :
    Genuine cache bucket (fun x => cache.getD (nameOf bucket x) []) o := by
  intro v hv
  show v=cache.getD (nameOf bucket o) []
  rw [UMap.getD,hv]
  rfl

/-- The actions after the first see the same objects, in the mode it leaves. -/
theorem activeFuncMetadata_tail (st : SchedState) (bucket : Bucket) (argFlag : ℤ)
    (action : TriggerAction) (later : List TriggerAction) :
    ∃ st1,Sends (fun _ => True) st st1 ∧ st1.shm=st.shm ∧
      (activeFuncMetadata bucket argFlag (action::later) st).1.tail=
        (activeFuncMetadata bucket
          (if AllCached st.keyValMap bucket action.sessionKeys then 0 else argFlag) later st1).1 := by
  have hread := mapM_cache fun o (_ : o∈action.sessionKeys) => genuine_getD st.keyValMap bucket o
  have hmap : ((action.sessionKeys.map fun o => getLocalObjectName bucket o.2 o.1).mapM
      fun name => st.keyValMap.find? name)=
        action.sessionKeys.mapM fun o => st.keyValMap.find? (nameOf bucket o) := List.mapM_map
  rw [activeFuncMetadata]
  dsimp only
  rw [hmap,hread]
  by_cases hall : AllCached st.keyValMap bucket action.sessionKeys
  · rw [if_pos hall,if_pos hall]
    exact ⟨st,Sends.refl _ st,rfl,rfl⟩
  · rw [if_neg hall,if_neg hall]
    exact ⟨_,sends_sizedArgs _ st,sizedArgs_shm _ st,rfl⟩

/-- One action of many: only those before it matter, by the mode they leave. -/
theorem activeFuncMetadata_at (hl : ∀ o∈action.sessionKeys,Local st bucket value o)
    (hg : ∀ o∈action.sessionKeys,Genuine st.keyValMap bucket value o) (argFlag : ℤ)
    (earlier later : List TriggerAction) :
    (activeFuncMetadata bucket argFlag (earlier++action::later) st).1[earlier.length]?=
      some (actionCall st bucket value (modeAfter st.keyValMap bucket argFlag earlier) action) := by
  induction earlier generalizing argFlag st with
  | nil =>
    have hhead := activeFuncMetadata_head hl hg argFlag later
    rw [List.head?_eq_getElem?] at hhead
    simpa [modeAfter] using hhead
  | cons a earlier ih =>
    obtain ⟨st1,hs,hshm,htail⟩ := activeFuncMetadata_tail st bucket argFlag a (earlier++action::later)
    have hrest := ih (fun o ho => (hl o ho).sends hs hshm)
      (fun o ho => hs.keyValMap ▸ hg o ho)
      (if AllCached st.keyValMap bucket a.sessionKeys then 0 else argFlag)
    have hmode : modeAfter st1.keyValMap bucket
        (if AllCached st.keyValMap bucket a.sessionKeys then 0 else argFlag) earlier=
        modeAfter st.keyValMap bucket argFlag (a::earlier) := by
      rw [hs.keyValMap,modeAfter,modeAfter]
      by_cases ha : AllCached st.keyValMap bucket a.sessionKeys
      · rw [if_pos ha,if_pos (⟨a,List.mem_cons_self,ha⟩ : ∃ x∈a::earlier,
          AllCached st.keyValMap bucket x.sessionKeys),ite_self]
      · have hiff : (∃ x∈a::earlier,AllCached st.keyValMap bucket x.sessionKeys) ↔
            ∃ x∈earlier,AllCached st.keyValMap bucket x.sessionKeys := by simp [ha]
        rw [if_neg ha]
        exact if_congr hiff.symm rfl rfl
    have hcall : actionCall st1 bucket value=actionCall st bucket value := by
      funext f x
      rw [actionCall,actionCall,hs.keyValMap]
    rw [List.cons_append,List.length_cons,←List.getElem?_tail,htail,hrest,hmode,hcall]

/-- When a call leads to the arguments that are asked for. All values are
cached, or an earlier action of the trigger had all of its cached. -/
def Agrees (cached earlier : Prop) (value : Session×Key → Str) (objs : List (Session×Key)) :
    Passing → Prop
  | .values => objs=[] ∨ cached ∨ ¬earlier
  | .keysAndValues => objs=[] ∨ (¬cached ∧ ¬earlier)
  | .keys => objs=[] ∨ (cached ∧ ∀ o∈objs,value o=sessionKeyOf o)

theorem expectedArgv_both_length (value : Session×Key → Str) (objs : List (Session×Key)) :
    (expectedArgv value objs .keysAndValues).length=2*objs.length := by
  induction objs with
  | nil => rfl
  | cons o objs ih =>
    show (expectedArgv value objs .keysAndValues).length+2=2*(objs.length+1)
    omega

theorem expectedArgv_length_le (value : Session×Key → Str) (objs : List (Session×Key)) (p : Passing) :
    (expectedArgv value objs p).length≤2*objs.length := by
  cases p with
  | values =>
    rw [expectedArgv,List.length_map]
    omega
  | keysAndValues => exact (expectedArgv_both_length value objs).le
  | keys =>
    rw [expectedArgv,List.length_map]
    omega

theorem values_expected_iff {cached : Prop} (hcached : cached) (earlier : Prop)
    (value : Session×Key → Str) (objs : List (Session×Key)) (p : Passing) :
    objs.map value=expectedArgv value objs p ↔ Agrees cached earlier value objs p := by
  cases p with
  | values => exact ⟨fun _ => Or.inr (Or.inl hcached),fun _ => rfl⟩
  | keysAndValues =>
    constructor
    · intro h
      have hlen := congrArg List.length h
      rw [List.length_map,expectedArgv_both_length] at hlen
      exact Or.inl (List.eq_nil_of_length_eq_zero (by omega))
    · rintro (rfl | h)
      · rfl
      · exact absurd hcached h.1
  | keys =>
    have hmap : objs.map value=objs.map sessionKeyOf ↔ ∀ o∈objs,value o=sessionKeyOf o :=
      List.map_inj_left
    constructor
    · intro h
      exact Or.inr ⟨hcached,hmap.mp h⟩
    · rintro (rfl | h)
      · rfl
      · exact hmap.mpr h.2

section Calls

variable {st : SchedState} {bucket : Bucket} {value : Session×Key → Str} {objs : List (Session×Key)}
variable {sessionId funcName : Str} (hc : PlainCall sessionId funcName) (appName : Str) (client : Address)

theorem readable_of_local (hl : ∀ o∈objs,Local st bucket value o) :
    ∀ o∈objs.map (namedObject bucket value),o.Readable st := by
  intro o ho
  obtain ⟨x,hx,rfl⟩ := List.mem_map.mp ho
  exact (hl x hx).readable

include hc in
/-- A call by key in the mode of the option gives values, or session keys
and values; for session keys alone there is no mode. -/
theorem argv_of_keys (hl : ∀ o∈objs,Local st bucket value o) (p : Passing) :
    executorArgv st (callMessage ⟨sessionId,appName,funcName,
        pairArgs (objs.map (namedObject bucket value)),p.option+1⟩ client)=
      some (.argv (expectedArgv value objs p)) ↔ p≠.keys := by
  have hread := readable_of_local hl
  obtain ⟨-,hvalues,hboth,hnone⟩ := parseArgs_tripleArgs hread
  rw [executorArgv_pairs hc appName client _ hread]
  cases p with
  | values =>
    have hmap : (objs.map (namedObject bucket value)).map NamedObject.value=
        expectedArgv value objs .values := List.map_map
    exact ⟨fun _ => nofun,fun _ => congrArg some (hvalues.trans (congrArg Parsed.argv hmap))⟩
  | keysAndValues =>
    have hmap : ((objs.map (namedObject bucket value)).flatMap fun o => [o.sessionKey,o.value])=
        expectedArgv value objs .keysAndValues := List.flatMap_map ..
    exact ⟨fun _ => nofun,fun _ => congrArg some (hboth.trans (congrArg Parsed.argv hmap))⟩
  | keys =>
    constructor
    · intro h
      have hargv := hnone.symm.trans (Option.some.inj h)
      cases hargv
    · intro h
      exact absurd rfl h

include hc in
/-- A call by key in the mode for values: names and sizes are taken for
values. -/
theorem argv_of_keys_as_values (hl : ∀ o∈objs,Local st bucket value o) (p : Passing) (hne : objs≠[]) :
    executorArgv st (callMessage ⟨sessionId,appName,funcName,
        pairArgs (objs.map (namedObject bucket value)),0⟩ client)≠
      some (.argv (expectedArgv value objs p)) := by
  have hread := readable_of_local hl
  rw [executorArgv_pairs hc appName client _ hread,(parseArgs_tripleArgs hread).1]
  intro h
  have hlen := congrArg List.length (Parsed.argv.inj (Option.some.inj h))
  rw [tripleArgs_length,List.length_map] at hlen
  have hle := expectedArgv_length_le value objs p
  have hpos := List.length_pos_iff.mpr hne
  omega

include hc in
/-- The call of an action, in the mode that the earlier ones leave. -/
theorem argv_of_actionCall (hf : action.function=funcName)
    (hl : ∀ o∈action.sessionKeys,Local st bucket value o)
    (hvalues : ∀ o∈action.sessionKeys,value o≠[] ∧ Plain (value o)) (earlier : Prop)
    [Decidable earlier] (p : Passing) {m : TriggerFunctionMetadata}
    (hm : m=actionCall st bucket value (if earlier then 0 else p.option+1) action) :
    executorArgv st (callMessage ⟨sessionId,appName,m.funcName,m.funcArgs,m.argFlag⟩ client)=
      some (.argv (expectedArgv value action.sessionKeys p)) ↔
    Agrees (AllCached st.keyValMap bucket action.sessionKeys) earlier value action.sessionKeys p := by
  rw [hm,actionCall,hf]
  by_cases hall : AllCached st.keyValMap bucket action.sessionKeys
  · have hargv := executorArgv_values st hc appName client (List.forall_mem_map.mpr hvalues)
    rw [if_pos hall,hargv,←values_expected_iff hall,Option.some.injEq,Parsed.argv.injEq]
  · have hne : action.sessionKeys≠[] := fun hnil => hall (by rw [hnil]; exact nofun)
    rw [if_neg hall]
    by_cases he : earlier
    · have hargv := argv_of_keys_as_values hc appName client hl p hne
      rw [if_pos he]
      refine iff_of_false hargv ?_
      cases p with
      | values => exact fun h => h.elim hne fun h => h.elim hall fun h => h he
      | keysAndValues => exact fun h => h.elim hne fun h => h.2 he
      | keys => exact fun h => h.elim hne fun h => hall h.1
    · rw [if_neg he,argv_of_keys hc appName client hl p]
      cases p with
      | values => exact iff_of_true nofun (Or.inr (Or.inr he))
      | keysAndValues => exact iff_of_true nofun (Or.inr ⟨hall,he⟩)
      | keys => exact iff_of_false (fun h => h rfl) fun h => h.elim hne fun h => hall h.1

end Calls

/-- An object that the coordinator has been told of. -/
structure Reported (cfg : CoordConfig) (cst : CoordState) (bucket : Bucket)
    (value : Session×Key → Str) (o : Session×Key) : Prop where
  /-- A value it knows is the right one. -/
  genuine : Genuine cst.bucketKeyValMap bucket value o
  /-- It knows a data server. -/
  located : ∃ a,((cst.bucketKeyAddressMap.getD bucket ∅).getD o.2 ∅).first cfg.firstPlace=some a ∧
    6≤a.length

/-- The call under which a worker schedules a request once its objects are
local. -/
def requestCall (lens : UMap Str UInt32) (appName : Str) (sessionId : Session) (req : FunctionRequest) :
    Invocation :=
  if (requestArgs req).2>0 then localCall lens appName sessionId req
  else ⟨sessionId,appName,req.name,(requestArgs req).1,0⟩

theorem admitRequest_requestCall (cfg : SchedulerConfig) (appName : Str) (sessionId : Session)
    {req : FunctionRequest} (hk : ∀ k∈(requestArgs req).1,st.keyLenMap.contains k=true) :
    ∃ st1,st1.shm=st.shm ∧ admitRequest cfg appName sessionId st req=
      scheduleFuncCall cfg (.request st.callId) st1 (requestCall st.keyLenMap appName sessionId req) := by
  by_cases hflag : (requestArgs req).2>0
  · refine ⟨st.log (.requested st.callId (localEntry sessionId req)),rfl,?_⟩
    rw [requestCall,if_pos hflag]
    exact admitRequest_local cfg appName sessionId hflag hk
  · refine ⟨st,rfl,?_⟩
    rw [requestCall,if_neg hflag]
    exact admitRequest_values cfg appName sessionId hflag

variable {ccfg : CoordConfig} {cst : CoordState}

/-- The arguments by key: one per object, in the mode that was asked for. -/
theorem keyArguments_reported (argFlag : ℤ)
    (h : ∀ o∈action.sessionKeys,Reported ccfg cst bucket value o) :
    ∃ arguments,keyArguments ccfg cst bucket argFlag action=some arguments ∧
      arguments.map Argument.body=action.sessionKeys.map (nameOf bucket) ∧
      ∀ arg∈arguments,arg.argFlag=UInt32.ofInt argFlag ∧ 6≤arg.dataAddress.length := by
  rw [keyArguments]
  generalize action.sessionKeys=objs at h
  induction objs with
  | nil => exact ⟨[],rfl,rfl,nofun⟩
  | cons o objs ih =>
    obtain ⟨arguments,hrest,hbodies,hflags⟩ := ih fun x hx => h x (List.mem_cons_of_mem _ hx)
    obtain ⟨a,ha,hlen⟩ := (h o List.mem_cons_self).located
    refine ⟨⟨nameOf bucket o,UInt32.ofInt argFlag,a⟩::arguments,?_,?_,?_⟩
    · rw [List.mapM_cons,hrest]
      dsimp only
      rw [ha]
      rfl
    · rw [List.map_cons,List.map_cons,hbodies]
    · exact List.forall_mem_cons.mpr ⟨⟨rfl,hlen⟩,hflags⟩

variable {arguments : List Argument}

theorem dataNodes_isSome (h : ∀ arg∈arguments,6≤arg.dataAddress.length) :
    ∃ nodes,dataNodes arguments=some nodes := by
  have hhosts : ∃ hosts,(arguments.mapM fun arg => hostOf arg.dataAddress)=some hosts ∧
      ∀ host∈hosts,True := CoordinatorRefinement.exists_mapM fun arg ha =>
    ⟨_,by rw [hostOf,if_neg (Nat.not_lt.mpr (h arg ha))],trivial⟩
  obtain ⟨hosts,hh,-⟩ := hhosts
  exact ⟨_,by rw [dataNodes,hh]; rfl⟩

/-- The mode of a request by key is that of its arguments. -/
theorem requestArgs_keys (p : Passing) (name : Str) (hne : arguments≠[])
    (h : ∀ arg∈arguments,arg.argFlag=UInt32.ofInt (p.option+1)) :
    requestArgs ⟨name,arguments⟩=(arguments.map Argument.body,p.option+1) := by
  have hpos : UInt32.ofInt (p.option+1)>0 := by cases p <;> decide
  have hint : (UInt32.ofInt (p.option+1)).toInt32.toInt=p.option+1 := by cases p <;> decide
  have hfold : ∀ (l : List Argument) (flag : ℤ),(∀ arg∈l,arg.argFlag=UInt32.ofInt (p.option+1)) →
      l.foldl (fun flag arg => if arg.argFlag>0 then arg.argFlag.toInt32.toInt else flag) flag=
        if l=[] then flag else p.option+1 := by
    intro l
    induction l with
    | nil => exact fun _ _ => rfl
    | cons arg l ih =>
      intro flag hl
      rw [List.foldl_cons,ih _ fun x hx => hl x (List.mem_cons_of_mem _ hx),
        hl arg List.mem_cons_self,if_pos hpos,hint,if_neg (List.cons_ne_nil _ _),ite_self]
  rw [requestArgs]
  dsimp only
  rw [hfold arguments 0 h,if_neg hne]

/-- The call for an action of the coordinator leads to the right arguments
under the same condition; no earlier action has a say. -/
theorem argv_of_packArguments {sessionId : Session} (hc : PlainCall sessionId action.function)
    (hl : ∀ o∈action.sessionKeys,Local st bucket value o)
    (hvalues : ∀ o∈action.sessionKeys,Plain (value o))
    (hr : ∀ o∈action.sessionKeys,Reported ccfg cst bucket value o) (p : Passing) (appName : Str)
    (client : Address) :
    ∃ arguments nodes,packArguments ccfg cst bucket (p.option+1) action=some (arguments,nodes) ∧
      (executorArgv st (callMessage
          (requestCall st.keyLenMap appName sessionId ⟨action.function,arguments⟩) client)=
        some (.argv (expectedArgv value action.sessionKeys p)) ↔
      Agrees (AllCached cst.bucketKeyValMap bucket action.sessionKeys) False value
        action.sessionKeys p) := by
  have hread : valToBatch cst bucket action=
      if AllCached cst.bucketKeyValMap bucket action.sessionKeys then
        some (action.sessionKeys.map value) else none := mapM_cache fun o ho => (hr o ho).genuine
  rw [packArguments,hread]
  by_cases hall : AllCached cst.bucketKeyValMap bucket action.sessionKeys
  · rw [if_pos hall]
    refine ⟨_,_,rfl,?_⟩
    have hargv := executorArgv_imploded st hc appName client (List.forall_mem_map.mpr hvalues)
    show executorArgv st (callMessage ⟨sessionId,appName,action.function,
      [imploded (action.sessionKeys.map value)],0⟩ client)=_ ↔ _
    rw [hargv,←values_expected_iff hall,Option.some.injEq,Parsed.argv.injEq]
  · have hne : action.sessionKeys≠[] := fun hnil => hall (by rw [hnil]; exact nofun)
    obtain ⟨arguments,hkeys,hbodies,hflags⟩ := keyArguments_reported (p.option+1) hr
    obtain ⟨nodes,hnodes⟩ := dataNodes_isSome fun arg ha => (hflags arg ha).2
    have hargs : arguments≠[] := by
      intro hnil
      rw [hnil,List.map_nil] at hbodies
      exact hne (List.map_eq_nil_iff.mp hbodies.symm)
    have hreq := requestArgs_keys p action.function hargs fun arg ha => (hflags arg ha).1
    have hflag : (requestArgs ⟨action.function,arguments⟩).2>0 := by
      rw [hreq]
      show p.option+1>0
      cases p <;> decide
    have hcall : requestCall st.keyLenMap appName sessionId ⟨action.function,arguments⟩=
        ⟨sessionId,appName,action.function,
          pairArgs (action.sessionKeys.map (namedObject bucket value)),p.option+1⟩ := by
      rw [requestCall,if_pos hflag,localCall,hreq,hbodies,keyedArgs_local hl]
    rw [if_neg hall,hkeys]
    refine ⟨arguments,nodes,?_,?_⟩
    · show (dataNodes arguments).bind (fun nodes => some (arguments,nodes))=_
      rw [hnodes]
      rfl
    · rw [hcall,argv_of_keys hc appName client hl p]
      cases p with
      | values => exact iff_of_true nofun (Or.inr (Or.inr id))
      | keysAndValues => exact iff_of_true nofun (Or.inr ⟨hall,id⟩)
      | keys => exact iff_of_false (fun h => h rfl) fun h => h.elim hne fun h => hall h.1

/-- An action is fired: by a worker, after other actions of the trigger, or
by the coordinator, whose call some worker schedules once it has the objects.
The executor passes what the trigger's option asks for in exactly these
cases: there is no object; values are asked for and, on a worker, all of them
are cached or no earlier action had all of its cached; session keys and
values are asked for, some value is not cached and no earlier action had all
cached; session keys are asked for, all values are cached and each equals its
session key. -/
theorem triggered_argv_iff {st wst : SchedState} {ccfg : CoordConfig} {cst : CoordState}
    {bucket : Bucket} {value : Session×Key → Str} {action : TriggerAction} {sessionId : Session}
    (hc : PlainCall sessionId action.function)
    (hvalues : ∀ o∈action.sessionKeys,value o≠[] ∧ Plain (value o))
    (hl : ∀ o∈action.sessionKeys,Local st bucket value o)
    (hg : ∀ o∈action.sessionKeys,Genuine st.keyValMap bucket value o)
    (hr : ∀ o∈action.sessionKeys,Reported ccfg cst bucket value o)
    (hw : ∀ o∈action.sessionKeys,Local wst bucket value o) (p : Passing) (appName : Str)
    (client : Address) (earlier later : List TriggerAction) :
    (∃ m,(activeFuncMetadata bucket (p.option+1) (earlier++action::later) st).1[earlier.length]?=some m ∧
      (executorArgv st (callMessage ⟨sessionId,appName,m.funcName,m.funcArgs,m.argFlag⟩ client)=
          some (.argv (expectedArgv value action.sessionKeys p)) ↔
        Agrees (AllCached st.keyValMap bucket action.sessionKeys)
          (∃ a∈earlier,AllCached st.keyValMap bucket a.sessionKeys) value action.sessionKeys p)) ∧
    ∃ arguments nodes,packArguments ccfg cst bucket (p.option+1) action=some (arguments,nodes) ∧
      (executorArgv wst (callMessage
          (requestCall wst.keyLenMap appName sessionId ⟨action.function,arguments⟩) client)=
        some (.argv (expectedArgv value action.sessionKeys p)) ↔
      Agrees (AllCached cst.bucketKeyValMap bucket action.sessionKeys) False value
        action.sessionKeys p) :=
  ⟨⟨_,activeFuncMetadata_at hl hg (p.option+1) earlier later,
      argv_of_actionCall hc appName client rfl hl hvalues _ p rfl⟩,
    argv_of_packArguments hc hw (fun o ho => (hvalues o ho).2) hr p appName client⟩

/-- The value of the object. -/
def oneValue : Session×Key → Str := fun _ => str "v"

/-- A function is called with the object. -/
def oneAction : TriggerAction := ⟨str "f",[(str "s",str "k")]⟩

/-- The object lies on a worker; its value is not cached. -/
def holding : SchedState :=
  {SchedState.start sampleConfig 0 with
    keyLenMap := UMap.set ∅ (str "b|ks") 1
    shm := UMap.set ∅ (str "b|ks") (str "v")}

/-- The value of the object is cached as well. -/
def caching : SchedState := {holding with keyValMap := UMap.set ∅ (str "b|ks") (str "v")}

/-- The coordinator knows where the object is. -/
def locating : CoordState :=
  ⟨UMap.set ∅ (str "b") (UMap.set ∅ (str "k") (USet.ofList [str "tcp://10.0.0.1:4400"])),
    ∅,∅,∅,∅,∅,∅,0⟩

/-- The object is passed by name on both sides, as key and value. -/
theorem triggered_argv_uncached :
    (∃ m,(activeFuncMetadata (str "b") 2 [oneAction] holding).1[0]?=some m ∧
      executorArgv holding (callMessage ⟨str "s",str "app",m.funcName,m.funcArgs,m.argFlag⟩ [])=
        some (.argv [str "ks",str "v"])) ∧
    ∃ arguments nodes,packArguments oneThread locating (str "b") 2 oneAction=some (arguments,nodes) ∧
      executorArgv holding (callMessage
        (requestCall holding.keyLenMap (str "app") (str "s") ⟨str "f",arguments⟩) [])=
        some (.argv [str "ks",str "v"]) := by
  have hc : PlainCall (str "s") oneAction.function := ⟨by decide,by decide,by decide⟩
  have hvalues : ∀ o∈oneAction.sessionKeys,oneValue o≠[] ∧ Plain (oneValue o) := by decide
  have hl : ∀ o∈oneAction.sessionKeys,Local holding (str "b") oneValue o :=
    List.forall_mem_singleton.mpr ⟨⟨by decide,by decide,by decide,by decide⟩,by decide⟩
  have hg : ∀ o∈oneAction.sessionKeys,Genuine holding.keyValMap (str "b") oneValue o :=
    fun _ _ _ h => (nomatch h)
  have hr : ∀ o∈oneAction.sessionKeys,Reported oneThread locating (str "b") oneValue o :=
    List.forall_mem_singleton.mpr ⟨fun _ h => (nomatch h),str "tcp://10.0.0.1:4400",rfl,by decide⟩
  have hagree : ∀ cached : Prop,¬cached → ∀ earlier : Prop,¬earlier →
      Agrees cached earlier oneValue oneAction.sessionKeys .keysAndValues :=
    fun _ hcached _ hearlier => Or.inr ⟨hcached,hearlier⟩
  obtain ⟨⟨m,hm,hworker⟩,arguments,nodes,hpack,hcoord⟩ :=
    triggered_argv_iff hc hvalues hl hg hr hl .keysAndValues (str "app") [] [] []
  exact ⟨⟨m,hm,hworker.mpr (hagree _ (by decide) _ (by decide))⟩,arguments,nodes,hpack,
    hcoord.mpr (hagree _ (by decide) _ id)⟩

/-- With its value cached only the value is passed, although session key and
value are asked for. -/
theorem key_lost_when_cached :
    activeFuncMetadata (str "b") (Passing.keysAndValues.option+1) [oneAction] caching=
        ([⟨str "f",[str "v"],0⟩],caching) ∧
      executorArgv caching (callMessage ⟨str "s",str "app",str "f",[str "v"],0⟩ [])=
        some (.argv [str "v"]) ∧
      expectedArgv oneValue oneAction.sessionKeys .keysAndValues=[str "ks",str "v"] := by
  refine ⟨rfl,by decide,by decide⟩

end Pheromone.TriggeredArguments
