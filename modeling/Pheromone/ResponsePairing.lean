import Pheromone.ObjectRequests

/-!
# Calls of the user library and their responses

A call of the library takes one message from the channel, whichever it is. A
response that comes after its call has timed out is taken by the next call.
-/

namespace Pheromone.ResponsePairing

open GuardedRuns DelimitedText CommonNames SchedulerLoop ObjectTransport ObjectRequests

/-- What a call asks for: an object of a name, or a durable write. -/
inductive CallKind where
  | get (name : Str)
  | put
  deriving DecidableEq

/-- A call that waits for a response. -/
structure LibCall where
  /-- What it asks for. -/
  kind : CallKind
  /-- Its request number. -/
  reqId : UInt8
  /-- When it began to wait, in milliseconds. -/
  start : ℕ
  deriving DecidableEq

/-- What a call returns: an object of a name and a size, a null pointer, an
exception, or nothing. -/
inductive CallResult where
  | object (name : Str) (size : ℤ)
  | null
  | thrown
  | done
  deriving DecidableEq

/-- How long a call waits, in milliseconds. -/
def recvTimeout : ℕ := 30000

/-- The checks of a request for an object on the message it has taken. -/
def receiveObject (name : Str) (reqId : UInt8) (msg : Str) : CallResult :=
  if msg[0]?≠some 3 then .null
  else if msg[1]?≠some reqId then .null
  else if msg[2]?≠some 1 then .null
  else match stoi (cString msg 3) with
    | none => .thrown
    | some size => .object name size

/-- What a call returns for the message it has taken; a write only prints. -/
def LibCall.result (c : LibCall) (msg : Str) : CallResult :=
  match c.kind with
  | .get name => receiveObject name c.reqId msg
  | .put => .done

/-- The response of the scheduler to a call. The size of an object is written
in decimal, or as one character if it was fetched from another worker. -/
def answerTo (c : LibCall) (size : UInt32) (fetched : Bool) : Str :=
  response c.reqId (match c.kind with
    | .put => []
    | .get _ => if fetched then [size.toUInt8] else decimal size.toNat)

/-- Whether the function runs, waits in a call, or has been stopped by an
exception or a null pointer. -/
inductive Phase where
  | idle
  | waiting (call : ℕ)
  | stopped
  deriving DecidableEq

/-- A response on the channel. -/
structure Arrival where
  /-- The call it answers. -/
  call : ℕ
  /-- When it arrives. -/
  time : ℕ
  /-- Size of the object. -/
  size : UInt32
  deriving DecidableEq

/-- An execution of a function, with its calls, their responses and what they
have returned. -/
structure Execution where
  lib : UserLibrary
  /-- What the function does. -/
  phase : Phase
  /-- The time. -/
  now : ℕ
  /-- The calls so far. -/
  calls : List LibCall
  /-- The responses so far. -/
  arrivals : List Arrival
  /-- Messages on the channel that have not been taken, oldest first. -/
  chan : List Str
  /-- What the calls have returned. -/
  results : List (ℕ×CallResult)

/-- A call begins, a response arrives, the waiting call takes a message, or
its time is over. -/
inductive LibLabel where
  | get (bucket key : Str) (fromEpheStore : Bool) (time : ℕ)
  | put (data : EpheObject) (time : ℕ)
  | arrive (call time : ℕ) (size : UInt32) (fetched : Bool)
  | take
  | expire

/-- A call begins to wait. -/
def Execution.await (s : Execution) (lib : UserLibrary) (kind : CallKind) (time : ℕ) : Execution :=
  {s with
    lib := lib
    phase := .waiting s.calls.length
    now := time
    calls := s.calls++[⟨kind,(getRequestId s.lib).1,time⟩]}

/-- While a call waits, the time is before the end of its wait. -/
def Execution.before (s : Execution) (time : ℕ) : Prop :=
  match s.phase with
  | .waiting i => ∀ c∈s.calls[i]?,time<c.start+recvTimeout
  | _ => True

instance (s : Execution) (time : ℕ) : Decidable (s.before time) := by
  unfold Execution.before
  split <;> infer_instance

/-- One step of the execution. A response is sent once, after its call. A
message on the channel ends a wait at once. -/
def libStep (s : Execution) : LibLabel → Option Execution
  | .get bucket key fromEpheStore time => if s.phase=.idle ∧ s.now≤time then
      some (s.await (getObject s.lib bucket key fromEpheStore).2
        (.get (requestName s.lib bucket key fromEpheStore)) time)
    else none
  | .put data time => if s.phase=.idle ∧ s.now≤time ∧ s.lib.persistFlag=1 then
      some (s.await (sendObject s.lib data true).2 .put time)
    else none
  | .arrive i time size fetched => match s.calls[i]? with
    | none => none
    | some c => if s.now≤time ∧ s.before time ∧ i∉s.arrivals.map Arrival.call then
        some {s with
          now := time
          arrivals := s.arrivals++[⟨i,time,size⟩]
          chan := s.chan++[answerTo c size fetched]}
      else none
  | .take => match s.phase,s.chan with
    | .waiting i,msg::rest => (s.calls[i]?).map fun c =>
        {s with
          phase := if c.result msg=.thrown then .stopped else .idle
          chan := rest
          results := s.results++[(i,c.result msg)]}
    | _,_ => none
  | .expire => match s.phase,s.chan with
    | .waiting i,[] => (s.calls[i]?).map fun c => match c.kind with
        | .get _ => {s with
            phase := .idle
            now := c.start+recvTimeout
            results := s.results++[(i,.null)]}
        | .put => {s with
            phase := .stopped
            now := c.start+recvTimeout}
    | _,_ => none

/-- A function begins. -/
def Execution.begin (lib : UserLibrary) : Execution := ⟨lib,.idle,0,[],[],[],[]⟩

/-- A request whose response arrives before its wait ends returns the object
of its name and of the size in the response: it has returned nothing else,
and it has returned or does so by taking the next message. -/
def ReturnsOwn (s : Execution) : Prop :=
  ∀ i name reqId start,s.calls[i]?=some ⟨.get name,reqId,start⟩ →
    ∀ a∈s.arrivals,a.call=i → a.time<start+recvTimeout →
      (∀ r,(i,r)∈s.results → r=.object name a.size.toNat) ∧
        ((∃ r,(i,r)∈s.results) ∨
          ∃ s',libStep s .take=some s' ∧ (i,.object name a.size.toNat)∈s'.results)

/-- The channel is empty when a call begins, and while it waits only its own
response arrives, with a size below two gigabytes in decimal. -/
def InTurn (s : Execution) : LibLabel → Prop
  | .get _ _ _ _ => s.chan=[]
  | .put _ _ => s.chan=[]
  | .arrive i _ size fetched => ∀ j,s.phase=.waiting j → i=j ∧ fetched=false ∧ size.toNat<2^31
  | .take => True
  | .expire => True

variable {size : UInt32}

/-- A request that takes its own response returns its object. -/
theorem receiveObject_own (hsize : size.toNat<2^31) (name : Str) (reqId : UInt8) :
    receiveObject name reqId (response reqId (decimal size.toNat))=.object name size.toNat := by
  have htext : cString (response reqId (decimal size.toNat)) 3=decimal size.toNat := by
    have hnul : nulChar∉decimal size.toNat := fun hm => absurd (decimal_digit hm).1 (by decide)
    exact terminated_eq_self_iff.mpr hnul
  unfold receiveObject
  rw [htext,stoi_decimal hsize]
  simp [response]

variable {s : Execution} {i : ℕ} {msg : Str} {rest : List Str} {c : LibCall}

theorem take_eq (hphase : s.phase=.waiting i) (hchan : s.chan=msg::rest) (hc : s.calls[i]?=some c) :
    libStep s .take=some {s with
      phase := if c.result msg=.thrown then .stopped else .idle
      chan := rest
      results := s.results++[(i,c.result msg)]} := by
  unfold libStep
  rw [hphase,hchan]
  dsimp only
  rw [hc]
  rfl

/-- The response of the waiting call is all that is on the channel, once it
has arrived; a call that has returned its object has had its response, and
one that has not has none before the end of its wait. -/
structure Orderly (s : Execution) : Prop where
  /-- Nothing happens later than now. -/
  past : ∀ a∈s.arrivals,a.time≤ s.now
  bound : ∀ a∈s.arrivals,a.call<s.calls.length
  /-- A call is answered once. -/
  once : (s.arrivals.map Arrival.call).Nodup
  /-- Results are those of calls that do not wait. -/
  returned : ∀ r∈s.results,r.1<s.calls.length ∧ s.phase≠.waiting r.1
  /-- A request that does not wait has a result. -/
  settled : ∀ i name reqId start,s.calls[i]?=some ⟨.get name,reqId,start⟩ → s.phase≠.waiting i →
    ∃ r,(i,r)∈s.results
  results : ∀ i name reqId start r,s.calls[i]?=some ⟨.get name,reqId,start⟩ → (i,r)∈s.results →
    (∃ a∈s.arrivals,a.call=i ∧ r=.object name a.size.toNat) ∨
      start+recvTimeout≤ s.now ∧ ∀ a∈s.arrivals,a.call=i → start+recvTimeout≤a.time
  /-- What the waiting call will take. -/
  waits : ∀ i,s.phase=.waiting i → ∃ c,s.calls[i]?=some c ∧ s.now≤ c.start+recvTimeout ∧
    (s.chan=[] ∧ (∀ a∈s.arrivals,a.call≠i) ∨
      ∃ a∈s.arrivals,a.call=i ∧ a.size.toNat<2^31 ∧ s.chan=[answerTo c a.size false])

theorem orderly_begin (lib : UserLibrary) : Orderly (.begin lib) where
  past := nofun
  bound := nofun
  once := List.nodup_nil
  returned := nofun
  settled _ _ _ _ h := by cases h
  results _ _ _ _ _ h := by cases h
  waits := nofun

theorem getElem?_concat {α : Type} {l : List α} {a b : α} (h : (l++[a])[i]?=some b) :
    l[i]?=some b ∨ i=l.length ∧ b=a := by
  rcases lt_or_ge i l.length with hi|hi
  · rw [List.getElem?_append_left hi] at h
    exact Or.inl h
  · rw [List.getElem?_append_right hi] at h
    obtain ⟨hz,hb⟩ := List.getElem?_eq_some_iff.mp h
    have hlen : i=l.length := by
      have hlt : i-l.length<1 := hz
      omega
    subst hlen
    simp only [Nat.sub_self,List.getElem_cons_zero] at hb
    exact Or.inr ⟨rfl,hb.symm⟩

variable {time : ℕ}

theorem Orderly.await (h : Orderly s) (hidle : s.phase=.idle) (hchan : s.chan=[])
    (htime : s.now≤time) (lib : UserLibrary) (kind : CallKind) :
    Orderly (s.await lib kind time) where
  past a ha := (h.past a ha).trans htime
  bound a ha := by
    have hlt := h.bound a ha
    show a.call<(s.calls++[_]).length
    rw [List.length_append,List.length_singleton]
    omega
  once := h.once
  returned r hr := by
    have hlt := (h.returned r hr).1
    constructor
    · show r.1<(s.calls++[_]).length
      rw [List.length_append,List.length_singleton]
      omega
    · intro he
      have hi : s.calls.length=r.1 := Phase.waiting.inj he
      omega
  settled i name reqId start hc hi := by
    rcases getElem?_concat hc with hc|⟨hlen,-⟩
    · exact h.settled i name reqId start hc (by rw [hidle]; nofun)
    · exact absurd (congrArg Phase.waiting hlen.symm) hi
  results i name reqId start r hc hr := by
    rcases getElem?_concat hc with hc|⟨hlen,-⟩
    · refine (h.results i name reqId start r hc hr).imp_right fun hlate => ?_
      exact ⟨hlate.1.trans htime,hlate.2⟩
    · have hlt := (h.returned _ hr).1
      dsimp only at hlt
      omega
  waits i hi := by
    have hlen : s.calls.length=i := Phase.waiting.inj hi
    refine ⟨⟨kind,(getRequestId s.lib).1,time⟩,?_,Nat.le_add_right time _,
      Or.inl ⟨hchan,fun a ha he => ?_⟩⟩
    · rw [←hlen]
      exact List.getElem?_concat_length
    · have hlt := h.bound a ha
      omega

theorem Orderly.arrive (h : Orderly s) {fetched : Bool} (hc : s.calls[i]?=some c)
    (htime : s.now≤time) (hbefore : s.before time) (hnew : i∉s.arrivals.map Arrival.call)
    (hown : ∀ j,s.phase=.waiting j → i=j ∧ fetched=false ∧ size.toNat<2^31) :
    Orderly {s with
      now := time
      arrivals := s.arrivals++[⟨i,time,size⟩]
      chan := s.chan++[answerTo c size fetched]} where
  past := List.forall_mem_append.mpr ⟨fun a ha => (h.past a ha).trans htime,
    List.forall_mem_singleton.mpr (le_refl time)⟩
  bound := List.forall_mem_append.mpr ⟨h.bound,List.forall_mem_singleton.mpr
    (List.getElem?_eq_some_iff.mp hc).1⟩
  once := by
    rw [List.map_append]
    refine List.nodup_append.mpr ⟨h.once,List.nodup_singleton _,fun x hx y hy he => ?_⟩
    have hxi : x=i := he.trans (List.mem_singleton.mp hy)
    exact hnew (hxi ▸ hx)
  returned := h.returned
  settled := h.settled
  results j name reqId start r hj hr := by
    rcases h.results j name reqId start r hj hr with ⟨a,ha,hcall,hr⟩|⟨hnow,hlate⟩
    · exact Or.inl ⟨a,List.mem_append_left _ ha,hcall,hr⟩
    · refine Or.inr ⟨hnow.trans htime,List.forall_mem_append.mpr ⟨hlate,?_⟩⟩
      exact List.forall_mem_singleton.mpr fun _ => hnow.trans htime
  waits j hj := by
    obtain ⟨hij,hdecimal,hsize⟩ := hown j hj
    subst hij
    obtain ⟨c',hc',-,hcases⟩ := h.waits i hj
    have hcc : c'=c := Option.some.inj (hc'.symm.trans hc)
    subst hcc
    have hlt : time<c'.start+recvTimeout := by
      unfold Execution.before at hbefore
      rw [hj] at hbefore
      exact hbefore c' hc'
    refine ⟨c',hc',hlt.le,?_⟩
    rcases hcases with ⟨hchan,-⟩|⟨a,ha,hcall,-⟩
    · refine Or.inr ⟨⟨i,time,size⟩,List.mem_append_right _ List.mem_cons_self,rfl,hsize,?_⟩
      show s.chan++[answerTo c' size fetched]=_
      rw [hchan,hdecimal]
      rfl
    · exact absurd (List.mem_map.mpr ⟨a,ha,hcall⟩) hnew

theorem Orderly.take (h : Orderly s) (hphase : s.phase=.waiting i) (hchan : s.chan=msg::rest)
    (hc : s.calls[i]?=some c) : Orderly {s with
      phase := if c.result msg=.thrown then .stopped else .idle
      chan := rest
      results := s.results++[(i,c.result msg)]} where
  past := h.past
  bound := h.bound
  once := h.once
  returned := by
    have hnot : ∀ j,(if c.result msg=.thrown then Phase.stopped else .idle)≠.waiting j := by
      intro j
      split <;> nofun
    refine List.forall_mem_append.mpr ⟨fun r hr => ⟨(h.returned r hr).1,hnot _⟩,?_⟩
    exact List.forall_mem_singleton.mpr ⟨(List.getElem?_eq_some_iff.mp hc).1,hnot _⟩
  settled j name reqId start hj _ := by
    by_cases hij : i=j
    · subst hij
      exact ⟨_,List.mem_append_right _ List.mem_cons_self⟩
    · obtain ⟨r,hr⟩ := h.settled j name reqId start hj
        (by rw [hphase]; exact fun he => hij (Phase.waiting.inj he))
      exact ⟨r,List.mem_append_left _ hr⟩
  results j name reqId start r hj hr := by
    rcases List.mem_append.mp hr with hr|hr
    · exact h.results j name reqId start r hj hr
    · obtain ⟨rfl,rfl⟩ := Prod.mk.inj (List.mem_singleton.mp hr)
      obtain ⟨c',hc',-,hcases⟩ := h.waits j hphase
      have hcall : c'=⟨.get name,reqId,start⟩ := Option.some.inj (hc'.symm.trans hj)
      have hcc : c=⟨.get name,reqId,start⟩ := Option.some.inj (hc.symm.trans hj)
      rcases hcases with ⟨hnone,-⟩|⟨a,ha,hacall,hsize,hown⟩
      · rw [hchan] at hnone
        cases hnone
      · have hmsg : msg=answerTo c' a.size false := by
          rw [hchan] at hown
          exact (List.cons.inj hown).1
        refine Or.inl ⟨a,ha,hacall,?_⟩
        rw [hmsg,hcall,hcc]
        exact receiveObject_own hsize name reqId
  waits j hj := by
    dsimp only at hj
    split at hj <;> cases hj

theorem Orderly.now_le (h : Orderly s) (hphase : s.phase=.waiting i) (hc : s.calls[i]?=some c) :
    s.now≤ c.start+recvTimeout := by
  obtain ⟨c',hc',hnow,-⟩ := h.waits i hphase
  rwa [Option.some.inj (hc'.symm.trans hc)] at hnow

/-- The time of the waiting call is over. -/
theorem Orderly.expire (h : Orderly s) {phase : Phase} (hphase : s.phase=.waiting i)
    (hchan : s.chan=[]) (hc : s.calls[i]?=some c) (hnext : ∀ j,phase≠.waiting j)
    {results : List (ℕ×CallResult)} (hresults : ∀ r∈results,r.1=i)
    (hget : ∀ name,c.kind=.get name → results≠[]) : Orderly {s with
      phase := phase
      now := c.start+recvTimeout
      results := s.results++results} where
  past a ha := (h.past a ha).trans (h.now_le hphase hc)
  bound := h.bound
  once := h.once
  returned := by
    refine List.forall_mem_append.mpr ⟨fun r hr => ⟨(h.returned r hr).1,hnext _⟩,fun r hr => ?_⟩
    exact ⟨hresults r hr ▸ (List.getElem?_eq_some_iff.mp hc).1,hnext _⟩
  settled j name reqId start hj _ := by
    by_cases hij : i=j
    · subst hij
      have hcc : c=⟨.get name,reqId,start⟩ := Option.some.inj (hc.symm.trans hj)
      obtain ⟨r,hr⟩ := List.exists_mem_of_ne_nil _ (hget name (by rw [hcc]))
      refine ⟨r.2,List.mem_append_right _ ?_⟩
      rw [←hresults r hr]
      exact hr
    · obtain ⟨r,hr⟩ := h.settled j name reqId start hj
        (by rw [hphase]; exact fun he => hij (Phase.waiting.inj he))
      exact ⟨r,List.mem_append_left _ hr⟩
  results j name reqId start r hj hr := by
    rcases List.mem_append.mp hr with hr|hr
    · refine (h.results j name reqId start r hj hr).imp_right fun hlate => ?_
      exact ⟨hlate.1.trans (h.now_le hphase hc),hlate.2⟩
    · have hji : j=i := hresults _ hr
      subst hji
      have hcc : c=⟨.get name,reqId,start⟩ := Option.some.inj (hc.symm.trans hj)
      obtain ⟨_,_,_,hcases⟩ := h.waits j hphase
      refine Or.inr ⟨by rw [hcc],fun a ha hacall => ?_⟩
      rcases hcases with ⟨-,hnone⟩|⟨a',-,-,-,hown⟩
      · exact absurd hacall (hnone a ha)
      · rw [hchan] at hown
        cases hown
  waits j hj := absurd hj (hnext j)

theorem orderly_step {s' : Execution} {l : LibLabel} (h : Orderly s) (hok : InTurn s l)
    (hstep : libStep s l=some s') : Orderly s' := by
  cases l with
  | get bucket key fromEpheStore time =>
    unfold libStep at hstep
    dsimp only at hstep
    split at hstep
    · rename_i hstart
      cases hstep
      exact h.await hstart.1 hok hstart.2 _ _
    · cases hstep
  | put data time =>
    unfold libStep at hstep
    dsimp only at hstep
    split at hstep
    · rename_i hstart
      cases hstep
      exact h.await hstart.1 hok hstart.2.1 _ _
    · cases hstep
  | arrive i time size fetched =>
    unfold libStep at hstep
    dsimp only at hstep
    split at hstep
    · cases hstep
    · rename_i c hc
      split at hstep
      · rename_i hguard
        cases hstep
        exact h.arrive hc hguard.1 hguard.2.1 hguard.2.2 hok
      · cases hstep
  | take =>
    unfold libStep at hstep
    dsimp only at hstep
    split at hstep
    · rename_i i msg rest hphase hchan
      obtain ⟨c,hc,rfl⟩ := Option.map_eq_some_iff.mp hstep
      exact h.take hphase hchan hc
    · cases hstep
  | expire =>
    unfold libStep at hstep
    dsimp only at hstep
    split at hstep
    · rename_i i hphase hchan
      obtain ⟨c,hc,rfl⟩ := Option.map_eq_some_iff.mp hstep
      cases hk : c.kind with
      | get name =>
        exact h.expire hphase hchan hc (fun _ he => by cases he) (List.forall_mem_singleton.mpr rfl)
          fun _ _ => List.cons_ne_nil _ _
      | put =>
        have hput : Orderly {s with
            phase := .stopped
            now := c.start+recvTimeout
            results := s.results++[]} :=
          h.expire hphase hchan hc (fun _ he => by cases he) nofun
            fun name hget => by rw [hk] at hget; cases hget
        rwa [List.append_nil] at hput
    · cases hstep

theorem eq_of_call_eq {arrivals : List Arrival} (h : (arrivals.map Arrival.call).Nodup)
    {a b : Arrival} (ha : a∈arrivals) (hb : b∈arrivals) (he : a.call=b.call) : a=b :=
  List.inj_on_of_nodup_map h ha hb he

theorem Orderly.returnsOwn (h : Orderly s) : ReturnsOwn s := by
  intro i name reqId start hc a ha hcall hintime
  constructor
  · intro r hr
    rcases h.results i name reqId start r hc hr with ⟨b,hb,hbcall,hrb⟩|⟨-,hlate⟩
    · rw [hrb,eq_of_call_eq h.once ha hb (hcall.trans hbcall.symm)]
    · have hle := hlate a ha hcall
      omega
  · by_cases hphase : s.phase=.waiting i
    · obtain ⟨c,hc',-,hcases⟩ := h.waits i hphase
      have hcc : c=⟨.get name,reqId,start⟩ := Option.some.inj (hc'.symm.trans hc)
      subst hcc
      rcases hcases with ⟨-,hnone⟩|⟨b,hb,hbcall,hsize,hchan⟩
      · exact absurd hcall (hnone a ha)
      · have hab : b=a := eq_of_call_eq h.once hb ha (hbcall.trans hcall.symm)
        subst hab
        have hresult : LibCall.result ⟨.get name,reqId,start⟩
            (answerTo ⟨.get name,reqId,start⟩ b.size false)=.object name b.size.toNat :=
          receiveObject_own hsize name reqId
        refine Or.inr ⟨_,take_eq hphase hchan hc',?_⟩
        dsimp only
        rw [hresult]
        exact List.mem_append_right _ List.mem_cons_self
    · exact Or.inl (h.settled i name reqId start hc hphase)

/-- In every execution in which calls and responses take turns, a request
whose response arrives in time returns its object. -/
theorem gets_return_own_object (lib : UserLibrary) (l : List LibLabel) (s : Execution)
    (hok : StepsMeet libStep InTurn (.begin lib) l) (hrun : run libStep (.begin lib) l=some s) :
    ReturnsOwn s :=
  (run_invariant_of_steps (fun _ _ _ h hok hstep => orderly_step h hok hstep) (orderly_begin lib)
    hok hrun).returnsOwn

instance (s : Execution) (l : LibLabel) : Decidable (InTurn s l) :=
  match l with
  | .get _ _ _ _ => inferInstanceAs (Decidable (_=_))
  | .put _ _ => inferInstanceAs (Decidable (_=_))
  | .arrive i _ size fetched => match h : s.phase with
    | .waiting j => decidable_of_iff (i=j ∧ fetched=false ∧ size.toNat<2^31)
        ⟨fun hj k hk => by rw [h] at hk; exact Phase.waiting.inj hk ▸ hj,fun hj => hj j h⟩
    | .idle => isTrue fun k hk => by rw [h] at hk; cases hk
    | .stopped => isTrue fun k hk => by rw [h] at hk; cases hk
  | .take => isTrue trivial
  | .expire => isTrue trivial

/-- A request that times out without response, and one whose response arrives
in time. -/
def answeredInTime : List LibLabel :=
  [.get (str "b") (str "j") true 0,.expire,.get (str "b") (str "k") true 30002,
    .arrive 1 30003 5 false,.take]

theorem gets_return_own_object_inTime : ∃ s,run libStep (.begin sampleLibrary) answeredInTime=some s ∧
    s.results=[(0,.null),(1,.object (requestName sampleLibrary (str "b") (str "k") true) 5)] ∧
    ReturnsOwn s := by
  have hcomputed : ((run libStep (.begin sampleLibrary) answeredInTime).map fun s => decide
      (s.results=[(0,.null),(1,.object (requestName sampleLibrary (str "b") (str "k") true) 5)]))=
        some true := by
    decide +kernel
  obtain ⟨s,hs,hresults⟩ := exists_of_decided hcomputed
  exact ⟨s,hs,hresults,gets_return_own_object sampleLibrary answeredInTime s (by decide +kernel) hs⟩

/-- A request times out and its response arrives late; the next request takes
it and returns a null pointer, although its own response arrives in time. -/
theorem late_response_poisons : ∃ s,run libStep (.begin sampleLibrary)
      [.get (str "b") (str "j") true 0,.expire,.arrive 0 30001 7 false,
        .get (str "b") (str "k") true 30002,.take,.arrive 1 30003 5 false]=some s ∧
    s.calls[1]?=some ⟨.get (requestName sampleLibrary (str "b") (str "k") true),2,30002⟩ ∧
    ⟨1,30003,5⟩∈s.arrivals ∧ (1,.null)∈s.results ∧ ¬ReturnsOwn s := by
  have hcomputed : ((run libStep (.begin sampleLibrary)
      [.get (str "b") (str "j") true 0,.expire,.arrive 0 30001 7 false,
        .get (str "b") (str "k") true 30002,.take,.arrive 1 30003 5 false]).map fun s => decide
      (s.calls[1]?=some ⟨.get (requestName sampleLibrary (str "b") (str "k") true),2,30002⟩ ∧
        ⟨1,30003,5⟩∈s.arrivals ∧ (1,.null)∈s.results))=some true := by
    decide +kernel
  obtain ⟨s,hs,hcall,harrival,hresult⟩ := exists_of_decided hcomputed
  refine ⟨s,hs,hcall,harrival,hresult,fun h => ?_⟩
  cases (h 1 _ 2 30002 hcall _ harrival rfl (by decide)).1 _ hresult

end Pheromone.ResponsePairing
