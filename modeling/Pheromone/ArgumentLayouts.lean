import Pheromone.Scheduling

/-!
# The two layouts of arguments by key

Scheduled calls name objects in pairs, forwarding reads triples. The
conversion cuts names at the delimiter; unconverted pairs are never right.
-/

namespace Pheromone.ArgumentLayouts

open CommonNames SchedulerState Scheduling DelimitedText

/-- Names and sizes as arguments. -/
def pairs (objs : List (Str×Str)) : List Str := objs.flatMap fun o => [o.1,o.2]

/-- The names and sizes that a scheduled call reads from its arguments. -/
def objects : List Str → List (Str×Str)
  | name::size::rest => (name,size)::objects rest
  | _ => []

/-- Pairs whose sizes are nonempty and hold no delimiter. -/
def PairLayout (args : List Str) : Prop :=
  ∃ objs,args=pairs objs ∧ ∀ o∈objs,o.2≠[] ∧ kDelimiterChar∉o.2

/-- The forwarded arguments are triples that name the objects of the call, in
order and with their sizes. -/
def Forwards (args forwarded : List Str) : Prop :=
  ∃ ts,triples forwarded=some ts ∧ ts.map (fun t => (tripleName t,t.2.2))=objects args

/-- A bucket and a nonempty session key around the only delimiter. -/
def ObjectName (name : Str) : Prop :=
  ∃ bucket sessionKey,name=bucket++kDelimiter++sessionKey ∧ kDelimiterChar∉bucket ∧
    kDelimiterChar∉sessionKey ∧ sessionKey≠[]

theorem objects_pairs (objs : List (Str×Str)) : objects (pairs objs)=objs := by
  induction objs with
  | nil => rfl
  | cons o objs ih => exact congrArg (o::·) ih

theorem pairs_length (objs : List (Str×Str)) : (pairs objs).length=2*objs.length := by
  induction objs with
  | nil => rfl
  | cons o objs ih =>
    show (pairs objs).length+2=2*(objs.length+1)
    omega

variable {args : List Str} {ts : List (Str×Str×Str)}

theorem triples_eq_cons {t : Str×Str×Str} (h : triples args=some (t::ts)) :
    ∃ rest,args=t.1::t.2.1::t.2.2::rest ∧ triples rest=some ts := by
  unfold triples at h
  split at h
  · cases h
  · rename_i bucket sessionKey size rest
    obtain ⟨us,hrest,hr⟩ := Option.map_eq_some_iff.mp h
    obtain ⟨rfl,rfl⟩ := List.cons.inj hr
    exact ⟨rest,rfl,hrest⟩
  · cases h

theorem triples_eq_nil (h : triples args=some []) : args=[] := by
  unfold triples at h
  split at h
  · rfl
  · obtain ⟨us,-,hr⟩ := Option.map_eq_some_iff.mp h
    cases hr
  · cases h

theorem triples_length (h : triples args=some ts) : args.length=3*ts.length := by
  induction ts generalizing args with
  | nil =>
    rw [triples_eq_nil h]
    rfl
  | cons t ts ih =>
    obtain ⟨rest,rfl,hrest⟩ := triples_eq_cons h
    have hl := ih hrest
    simp only [List.length_cons]
    omega

/-- Unconverted pairs are read as triples of other objects, or past their end. -/
theorem forwards_self_iff (h : PairLayout args) : Forwards args args ↔ args=[] := by
  obtain ⟨objs,rfl,-⟩ := h
  constructor
  · rintro ⟨ts,hts,hobjs⟩
    rw [objects_pairs] at hobjs
    have hcount : ts.length=objs.length := by rw [←hobjs,List.length_map]
    have hthree := triples_length hts
    rw [pairs_length] at hthree
    have hnil : objs=[] := List.eq_nil_of_length_eq_zero (by omega)
    rw [hnil]
    rfl
  · intro hnil
    rw [hnil]
    exact ⟨[],rfl,rfl⟩

/-- The fields of an argument. -/
def cutArg (arg : Str) : List Str := if kDelimiterChar∈arg then split arg kDelimiterChar else [arg]

variable {bucket sessionKey : Str}

theorem cutArg_objectName (hb : kDelimiterChar∉bucket) (hk : kDelimiterChar∉sessionKey)
    (hn : sessionKey≠[]) : cutArg (bucket++kDelimiter++sessionKey)=[bucket,sessionKey] := by
  have hmem : kDelimiterChar∈bucket++kDelimiter++sessionKey := by simp [kDelimiter]
  have hcut : bucket++kDelimiter++sessionKey=bucket++kDelimiterChar::sessionKey := by simp [kDelimiter]
  rw [cutArg,if_pos hmem,split,hcut,fields_append_delim hb,fields_of_not_mem hk hn]

variable {objs : List (Str×Str)}

theorem flattenArgs_pairs (h : ∀ o∈objs,kDelimiterChar∉o.2) :
    flattenArgs (pairs objs)=objs.flatMap fun o => cutArg o.1++[o.2] := by
  induction objs with
  | nil => rfl
  | cons o objs ih =>
    have hsize : cutArg o.2=[o.2] := if_neg (h o List.mem_cons_self)
    have hrest := ih fun x hx => h x (List.mem_cons_of_mem _ hx)
    have hone : flattenArgs (pairs (o::objs))=cutArg o.1++(cutArg o.2++flattenArgs (pairs objs)) := rfl
    rw [hone,hsize,hrest,List.flatMap_cons,List.append_assoc]

/-- If two fields begin the triple of an object, its name consists of them. -/
theorem cutArg_of_triple {name size : Str} {rest tail : List Str} (hs : size≠[])
    (hd : kDelimiterChar∉size) (hname : name=bucket++kDelimiter++sessionKey)
    (hcut : cutArg name++size::rest=bucket::sessionKey::tail) :
    ObjectName name ∧ tail=size::rest := by
  have hmem : kDelimiterChar∈name := by simp [hname,kDelimiter]
  have hfields : cutArg name=fields kDelimiterChar name := if_pos hmem
  cases hf : cutArg name with
  | nil =>
    obtain ⟨items,hi⟩ := fields_head (d:=kDelimiterChar) (List.ne_nil_of_mem hmem)
    rw [←hfields,hf] at hi
    cases hi
  | cons x items =>
    rw [hf] at hcut
    obtain ⟨rfl,htail⟩ := List.cons.inj hcut
    have hx : kDelimiterChar∉x := by
      refine not_mem_of_mem_fields (s:=name) ?_
      rw [←hfields,hf]
      exact List.mem_cons_self
    cases items with
    | nil =>
      obtain ⟨rfl,-⟩ := List.cons.inj htail
      rw [hname,cutArg_objectName hx hd hs] at hf
      cases hf
    | cons y items =>
      obtain ⟨rfl,hend⟩ := List.cons.inj htail
      have hy : kDelimiterChar∉y := by
        refine not_mem_of_mem_fields (s:=name) ?_
        rw [←hfields,hf]
        exact List.mem_cons_of_mem _ List.mem_cons_self
      have hne : y≠[] := by
        rintro rfl
        have hcut : x++kDelimiter++[]=x++kDelimiterChar::[] := by simp [kDelimiter]
        rw [hfields,hname,hcut,fields_append_delim hx,fields_nil] at hf
        cases hf
      rw [hname,cutArg_objectName hx hy hne] at hf
      cases hf
      exact ⟨⟨x,y,hname,hx,hy,hne⟩,hend.symm⟩

theorem triples_flatten_iff (h : ∀ o∈objs,o.2≠[] ∧ kDelimiterChar∉o.2) :
    (∃ ts,triples (objs.flatMap fun o => cutArg o.1++[o.2])=some ts ∧
      ts.map (fun t => (tripleName t,t.2.2))=objs) ↔ ∀ o∈objs,ObjectName o.1 := by
  induction objs with
  | nil => exact ⟨fun _ _ ho => absurd ho List.not_mem_nil,fun _ => ⟨[],rfl,rfl⟩⟩
  | cons o objs ih =>
    obtain ⟨hsize,hdelim⟩ := h o List.mem_cons_self
    have hrest := ih fun x hx => h x (List.mem_cons_of_mem _ hx)
    rw [List.forall_mem_cons,←hrest,List.flatMap_cons,List.append_assoc,List.singleton_append]
    constructor
    · rintro ⟨ts,hts,hmap⟩
      cases ts with
      | nil => cases hmap
      | cons t ts =>
        obtain ⟨ho,hmap⟩ := List.cons.inj hmap
        have hname : o.1=t.1++kDelimiter++t.2.1 := (congrArg Prod.fst ho).symm
        obtain ⟨tail,hargs,htail⟩ := triples_eq_cons hts
        obtain ⟨hobj,hend⟩ := cutArg_of_triple hsize hdelim hname hargs
        have hafter := (List.cons.inj hend).2
        exact ⟨hobj,ts,hafter ▸ htail,hmap⟩
    · rintro ⟨⟨bucket,sessionKey,hname,hb,hk,hn⟩,ts,hts,hmap⟩
      refine ⟨(bucket,sessionKey,o.2)::ts,?_,?_⟩
      · rw [hname,cutArg_objectName hb hk hn]
        show (triples _).map _=_
        rw [hts]
        rfl
      · rw [List.map_cons,hmap,tripleName,←hname]

/-- The arguments under which a call without executor is forwarded. -/
theorem forwards_overflowArgs_iff {call : Invocation} (h : PairLayout call.funcArgs)
    (hflag : call.argFlag>0) (hargs : overflowArgs call=some args) :
    Forwards call.funcArgs args ↔ ∀ o∈objects call.funcArgs,ObjectName o.1 := by
  obtain ⟨objs,hobjs,hsizes⟩ := h
  rw [overflowArgs,if_pos hflag,hobjs] at hargs
  rw [hobjs,objects_pairs]
  cases objs with
  | nil => cases hargs
  | cons o objs =>
    have hvalue : (if kDelimiterChar∈o.1 then flattenArgs (pairs (o::objs)) else pairs (o::objs))=args :=
      Option.some.inj hargs
    rw [←hvalue]
    by_cases hd : kDelimiterChar∈o.1
    · rw [if_pos hd,flattenArgs_pairs fun x hx => (hsizes x hx).2,←triples_flatten_iff hsizes,
        Forwards,objects_pairs]
    · have hself : PairLayout (pairs (o::objs)) := ⟨o::objs,rfl,hsizes⟩
      rw [if_neg hd,forwards_self_iff hself]
      constructor
      · intro hnil
        cases hnil
      · intro hall
        obtain ⟨bucket,sessionKey,hname,-⟩ := hall o List.mem_cons_self
        exact absurd (by simp [hname,kDelimiter]) hd

end Pheromone.ArgumentLayouts
