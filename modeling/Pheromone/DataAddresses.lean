import Pheromone.CoordinatorLoop

/-!
# Data servers of arguments that are sent by key

Data servers of objects are kept by bucket and key, without the session.
Where sessions agree on them, the server sent with an argument was reported
for the very object that it names.
-/

namespace Pheromone.DataAddresses

open UnorderedContainers CommonNames TriggerPrimitives OperationMessages CoordinatorNotify
open GuardedRuns EventHistories DispatchCapacity CoordinatorRefinement CoordinatorOps
open CoordinatorLoop

/-- The address entries of an event. -/
def reported : CoordEvent → List BucketKeyAddress
  | .received (.notify req _) => req.addresses
  | _ => []

/-- All address entries of the notifications received so far. -/
def reports (history : List CoordEvent) : List BucketKeyAddress := history.flatMap reported

/-- A data server was reported for an object. -/
def ReportedAt (entries : List BucketKeyAddress) (bk : BucketKey) (ip : Address) : Prop :=
  ∃ a∈entries,getBucketKeyFromAddr a=bk ∧ a.ips.head?=some ip

instance (entries : List BucketKeyAddress) (bk : BucketKey) (ip : Address) :
    Decidable (ReportedAt entries bk ip) := inferInstanceAs (Decidable (∃ a∈entries,_))

/-- Every argument with a data server names an object of the action at its
position, and the server was reported for that object. -/
def WellAddressed (before : List CoordEvent) (e : CoordEvent) : Prop :=
  ∀ d,e=.sent (.dispatch d) → ∀ request∈d.call.requests,∀ (i : ℕ) (arg : Argument),
    request.arguments[i]?=some arg → arg.dataAddress≠[] →
    ∃ (o : Session×Key) (bucket : Bucket),d.action.sessionKeys[i]?=some o ∧
      arg.body=getLocalObjectName bucket o.2 o.1 ∧
      ReportedAt (reports before) ⟨bucket,o.2,o.1⟩ arg.dataAddress

/-- Two entries of one bucket and key are of one session or name one server. -/
def Compatible (a a' : BucketKeyAddress) : Prop :=
  a'.bucket=a.bucket → a'.key=a.key → a'.session=a.session ∨ a'.ips.head?=a.ips.head?

instance (a a' : BucketKeyAddress) : Decidable (Compatible a a') :=
  inferInstanceAs (Decidable (_ → _ → _))

/-- Whether a bucket has a trigger that keeps keys without their sessions. -/
def hasGroups (st : CoordState) (bucket : Bucket) : Bool :=
  (st.bucketTriggersMap.getD bucket []).any fun t => keepsKeysOnly t.state

/-- A notification fits the reports so far: entries of one bucket and key
are compatible, and those of a bucket with groups are of one session. -/
def Consistent (r : CoordRun) : CoordIn → Prop
  | .notify req _ => ∀ a∈req.addresses,∀ a'∈reports r.history++req.addresses,
      (Compatible a a' ∧ Compatible a' a) ∧
        (hasGroups r.tables a.bucket=true → a'.bucket=a.bucket → a'.session=a.session)
  | _ => True

instance (r : CoordRun) (i : CoordIn) : Decidable (Consistent r i) :=
  match i with
  | .notify req _ => inferInstanceAs (Decidable (∀ a∈req.addresses,_))
  | .query _ => isTrue trivial
  | .bucket _ => isTrue trivial
  | .trigger _ _ => isTrue trivial
  | .status _ => isTrue trivial
  | .register _ _ => isTrue trivial
  | .call _ => isTrue trivial

/-- What reports say about an object that a trigger holds. -/
def KnownObject (entries : List BucketKeyAddress) (bucket : Bucket) (keysOnly : Bool)
    (o : Session×Key) : Prop :=
  if keysOnly=true then ∃ a∈entries,a.bucket=bucket ∧ a.key=o.2
  else ∃ ip,ReportedAt entries ⟨bucket,o.2,o.1⟩ ip

/-- Recorded servers and held objects come from reports. -/
structure Recorded (entries : List BucketKeyAddress) (st : CoordState) : Prop where
  servers : ∀ bucket key,∀ ip∈addressesOf st.bucketKeyAddressMap bucket key,
    ∃ a∈entries,a.bucket=bucket ∧ a.key=key ∧ a.ips.head?=some ip
  objects : ∀ bucket,∀ t∈st.bucketTriggersMap.getD bucket [],
    Contents (KnownObject entries bucket (keepsKeysOnly t.state)) t.state

variable {entries more : List BucketKeyAddress}

theorem ReportedAt.mono (hsub : entries⊆more) {bk : BucketKey} {ip : Address}
    (h : ReportedAt entries bk ip) : ReportedAt more bk ip := by
  obtain ⟨a,ha,hbk,hip⟩ := h
  exact ⟨a,hsub ha,hbk,hip⟩

theorem KnownObject.mono (hsub : entries⊆more) {bucket : Bucket} {keysOnly : Bool} {o : Session×Key}
    (h : KnownObject entries bucket keysOnly o) : KnownObject more bucket keysOnly o := by
  unfold KnownObject at h ⊢
  split
  · rename_i hk
    rw [if_pos hk] at h
    obtain ⟨a,ha,hbk⟩ := h
    exact ⟨a,hsub ha,hbk⟩
  · rename_i hk
    rw [if_neg hk] at h
    obtain ⟨ip,hip⟩ := h
    exact ⟨ip,hip.mono hsub⟩

theorem Recorded.mono (hsub : entries⊆more) {st : CoordState} (h : Recorded entries st) :
    Recorded more st := by
  refine ⟨fun bucket key ip hip => ?_,fun bucket t ht => ?_⟩
  · obtain ⟨a,ha,hrest⟩ := h.servers bucket key ip hip
    exact ⟨a,hsub ha,hrest⟩
  · have hc := h.objects bucket t ht
    exact ⟨hc.sound,fun o ho => (hc.held o ho).mono hsub⟩

variable {events : List CoordEvent}

theorem Recorded.aside {st st' : CoordState} (h : Recorded entries st)
    (haside : Aside st st' events) : Recorded entries st' := by
  refine ⟨?_,fun bucket t ht => ?_⟩
  · rw [haside.addresses]
    exact h.servers
  · rcases haside.triggers bucket t ht with hold|hfresh
    · exact h.objects bucket t hold
    · exact hfresh.contents _

section Notification

variable {entries : List BucketKeyAddress} {req : KeyNotifyRequest}

/-- Along the handling of a notification: its entries are among the reports,
and a bucket with groups has reports of one session. -/
structure Handling (entries : List BucketKeyAddress) (req : KeyNotifyRequest) (st : CoordState) :
    Prop where
  /-- Servers and objects. -/
  recorded : Recorded entries st
  /-- Sessions of buckets with groups. -/
  sessions : ∀ a∈req.addresses,hasGroups st a.bucket=true → ∀ a'∈entries,a'.bucket=a.bucket →
    a'.session=a.session

variable {a : BucketKeyAddress}

theorem Recorded.register {st st' : CoordState} (h : Recorded entries st) (ha : a∈entries)
    (hr : registerObject st a=some (some st')) :
    Recorded entries st' ∧ st'.bucketTriggersMap=st.bucketTriggersMap := by
  obtain ⟨ip,host,hip,-,rfl⟩ := registerObject_eq_some hr
  refine ⟨⟨fun bucket key x hx => ?_,h.objects⟩,rfl⟩
  rcases mem_addressesOf_update.mp hx with ⟨rfl,rfl,rfl⟩|hx
  · exact ⟨a,ha,rfl,rfl,hip⟩
  · exact h.servers bucket key x hx

variable {ip : Address}

/-- What an entry says about its own object. -/
theorem arrivesKnown (ha : a∈entries) (hip : a.ips.head?=some ip) (s : TriggerState) :
    ArrivesKnown (KnownObject entries a.bucket (keepsKeysOnly s)) s (getBucketKeyFromAddr a) := by
  have hkeys : ∀ session,keepsKeysOnly s=true →
      KnownObject entries a.bucket (keepsKeysOnly s) (session,a.key) := by
    intro session hk
    rw [KnownObject,if_pos hk]
    exact ⟨a,ha,rfl,rfl⟩
  refine ⟨?_,fun hk session => hkeys session hk⟩
  by_cases hk : keepsKeysOnly s=true
  · exact hkeys a.session hk
  · show KnownObject entries a.bucket (keepsKeysOnly s) (a.session,a.key)
    rw [KnownObject,if_neg hk]
    exact ⟨ip,a,ha,rfl,hip⟩

theorem Recorded.advance {st : CoordState} (h : Recorded entries st) (ha : a∈entries)
    (hip : a.ips.head?=some ip) (now : ℤ) :
    Recorded entries (advanced now (getBucketKeyFromAddr a) st) := by
  refine ⟨h.servers,fun bucket t ht => ?_⟩
  have hset := UMap.getD_set st.bucketTriggersMap a.bucket bucket
    ((arrivals now (st.bucketTriggersMap.getD a.bucket []) (getBucketKeyFromAddr a)).map Prod.fst) []
  have hmem : t∈(st.bucketTriggersMap.set a.bucket ((arrivals now
      (st.bucketTriggersMap.getD a.bucket []) (getBucketKeyFromAddr a)).map Prod.fst)).getD bucket [] := ht
  rw [hset] at hmem
  split at hmem
  · rename_i hb
    obtain ⟨r,hr,rfl⟩ := List.mem_map.mp hmem
    obtain ⟨u,hu,rfl⟩ := List.mem_map.mp hr
    have hc := h.objects a.bucket u hu
    have harrive : Contents (KnownObject entries a.bucket (keepsKeysOnly u.state))
        (u.state.actionForNewObject u.targetFunction now (getBucketKeyFromAddr a)).1 :=
      hc.arrive (arrivesKnown ha hip u.state)
    rw [hb]
    show Contents (KnownObject entries a.bucket (keepsKeysOnly
      (u.state.actionForNewObject u.targetFunction now (getBucketKeyFromAddr a)).1)) _
    rw [keepsKeysOnly_arrive]
    exact harrive
  · exact h.objects bucket t hmem

theorem hasGroups_advanced (st : CoordState) (now : ℤ) (bk : BucketKey) (bucket : Bucket) :
    hasGroups (advanced now bk st) bucket=hasGroups st bucket := by
  have hset := UMap.getD_set st.bucketTriggersMap bk.bucket bucket
    ((arrivals now (st.bucketTriggersMap.getD bk.bucket []) bk).map Prod.fst) []
  unfold hasGroups advanced
  dsimp only
  rw [hset]
  split
  · rename_i hb
    rw [hb,arrivals,List.map_map,List.any_map]
    congr 1
    funext t
    exact keepsKeysOnly_arrive t.state
  · rfl

variable {now : ℤ} {action : TriggerAction}

/-- A trigger that keeps keys only hands them out in the arrived session. -/
theorem session_of_keysOnly {s : TriggerState} (hs : keepsKeysOnly s=true) {target : Str}
    {bk : BucketKey} (ha : action∈(s.actionForNewObject target now bk).2) {o : Session×Key}
    (ho : o∈action.sessionKeys) : o.1=bk.session := by
  cases s with
  | dynamicGroup t =>
    simp only [TriggerState.actionForNewObject,DynamicGroupTrigger.actionForNewObject] at ha
    generalize (if bk.key∈t.controlGroup then t.curControlKeys.insert bk.key else
      t.curControlKeys)=control at ha
    split at ha
    · split at ha
      · obtain ⟨e,-,rfl⟩ := List.mem_map.mp ha
        obtain ⟨key,-,rfl⟩ := List.mem_map.mp ho
        rfl
      · cases ha
    · cases ha
  | _ => cases hs

/-- All entries of one bucket and key are compatible. -/
def AllCompatible (entries : List BucketKeyAddress) : Prop :=
  ∀ a∈entries,∀ a'∈entries,Compatible a a'

/-- Every recorded server of an object that an action hands out was reported
for that object. -/
theorem reportedAt_of_action {st : CoordState} (h : Handling entries req st)
    (hall : AllCompatible entries) (ha : a∈req.addresses) (hin : a∈entries)
    (hip : a.ips.head?=some ip) {t : Trigger} (ht : t∈st.bucketTriggersMap.getD a.bucket [])
    (haction : action∈(t.state.actionForNewObject t.targetFunction now (getBucketKeyFromAddr a)).2)
    {o : Session×Key} (ho : o∈action.sessionKeys) {server : Address}
    (hserver : server∈addressesOf st.bucketKeyAddressMap a.bucket o.2) :
    ReportedAt entries ⟨a.bucket,o.2,o.1⟩ server := by
  have hknown := (h.recorded.objects a.bucket t ht).action (arrivesKnown hin hip t.state).object
    haction ho
  obtain ⟨b,hb,hbucket,hkey,hbip⟩ := h.recorded.servers a.bucket o.2 server hserver
  by_cases hk : keepsKeysOnly t.state=true
  · have hgroups : hasGroups st a.bucket=true := List.any_eq_true.mpr ⟨t,ht,hk⟩
    have hsession : b.session=o.1 := by
      rw [session_of_keysOnly hk haction ho]
      exact h.sessions a ha hgroups b hb hbucket
    refine ⟨b,hb,?_,hbip⟩
    rw [getBucketKeyFromAddr,hbucket,hkey,hsession]
  · rw [KnownObject,if_neg hk] at hknown
    obtain ⟨own,c,hc,hcbk,hcip⟩ := hknown
    have hcbucket : c.bucket=a.bucket := congrArg BucketKey.bucket hcbk
    have hckey : c.key=o.2 := congrArg BucketKey.key hcbk
    have hcsession : c.session=o.1 := congrArg BucketKey.session hcbk
    rcases hall c hc b hb (hbucket.trans hcbucket.symm) (hkey.trans hckey.symm) with hs|hs
    · refine ⟨b,hb,?_,hbip⟩
      rw [getBucketKeyFromAddr,hbucket,hkey,hs,hcsession]
    · exact ⟨c,hc,hcbk,hs.symm.trans hbip⟩

/-- The arguments of a dispatch. -/
def Good (entries : List BucketKeyAddress) (d : Dispatch) : Prop :=
  ∀ request∈d.call.requests,∀ (i : ℕ) (arg : Argument),request.arguments[i]?=some arg →
    arg.dataAddress≠[] → ∃ (o : Session×Key) (bucket : Bucket),d.action.sessionKeys[i]?=some o ∧
      arg.body=getLocalObjectName bucket o.2 o.1 ∧
      ReportedAt entries ⟨bucket,o.2,o.1⟩ arg.dataAddress

/-- The servers of packed arguments are recorded ones of the objects they name. -/
theorem packArguments_server {cfg : CoordConfig} {st : CoordState} {bucket : Bucket} {argFlag : ℤ}
    {arguments : List Argument} {nodes : USet Address}
    (h : packArguments cfg st bucket argFlag action=some (arguments,nodes)) {i : ℕ} {arg : Argument}
    (hi : arguments[i]?=some arg) (hne : arg.dataAddress≠[]) :
    ∃ o,action.sessionKeys[i]?=some o ∧ arg.body=getLocalObjectName bucket o.2 o.1 ∧
      arg.dataAddress∈addressesOf st.bucketKeyAddressMap bucket o.2 := by
  rcases packArguments_eq_some h with ⟨value,rfl,-⟩|⟨hosts,hargs,-,-⟩
  · have harg := List.mem_singleton.mp (List.mem_of_getElem? hi)
    rw [harg] at hne
    exact absurd rfl hne
  · have hforall := forall₂_mapM hargs
    have hlen := hforall.length_eq
    obtain ⟨hlt,harg⟩ := List.getElem?_eq_some_iff.mp hi
    have hlt' : i<action.sessionKeys.length := by omega
    have hat := hforall.get hlt' hlt
    obtain ⟨address,haddress,heq⟩ := Option.bind_eq_some_iff.mp hat
    refine ⟨action.sessionKeys[i],List.getElem?_eq_getElem hlt',?_⟩
    have harg' : arguments.get ⟨i,hlt⟩=arg := harg
    rw [harg'] at heq
    rw [←Option.some.inj heq]
    exact ⟨rfl,USet.mem_of_first haddress⟩

/-- Handling a notification keeps the tables and addresses arguments well. -/
theorem Handling.notify {cfg : CoordConfig} {st st' : CoordState} {out : List CoordOut}
    (h : Handling entries req st) (hall : AllCompatible entries) (hsub : req.addresses⊆entries)
    (hn : notifyHandler cfg now st req=some (st',out)) :
    Recorded entries st' ∧ ∀ o∈out,∀ d,o=.dispatch d → Good entries d := by
  have hrule := @notifyHandler_rule cfg now req (Handling entries req)
    (fun o => ∀ d,o=.dispatch d → Good entries d) (fun a ha st st₁ st₂ out h hr ht => ?_) st st' out h hn
  · exact ⟨hrule.1.recorded,hrule.2⟩
  · obtain ⟨ip,host,hip,-,-⟩ := registerObject_eq_some hr
    obtain ⟨hrec,htriggers⟩ := h.recorded.register (hsub ha) hr
    have hgroups : ∀ bucket,hasGroups st₁ bucket=hasGroups st bucket := by
      intro bucket
      rw [hasGroups,htriggers]
      rfl
    have h1 : Handling entries req st₁ := by
      refine ⟨hrec,fun b hb hg => ?_⟩
      rw [hgroups] at hg
      exact h.sessions b hb hg
    have hadv : Handling entries req (advanced now (getBucketKeyFromAddr a) st₁) := by
      refine ⟨hrec.advance (hsub ha) hip now,fun b hb hg => ?_⟩
      rw [hasGroups_advanced] at hg
      exact h1.sessions b hb hg
    -- the servers stay as they are while the actions are routed
    have hrouted := @notifyTriggers_rule cfg now req (getBucketKeyFromAddr a)
      (fun st => Handling entries req st ∧ st.bucketKeyAddressMap=st₁.bucketKeyAddressMap)
      (Good entries) st₁ st₂ out ⟨hadv,rfl⟩ (fun r hmem action haction st st' d hst hd => ?_) ht
    · refine ⟨hrouted.1.1,fun o ho d hd => ?_⟩
      rcases hrouted.2 o ho with ⟨d',rfl,hgood⟩|⟨node,msg,rfl,-⟩
      · cases hd
        exact hgood
      · cases hd
    · obtain ⟨t,htm,rfl⟩ := List.mem_map.mp hmem
      obtain ⟨arguments,nodes,hp,-,hact,hcall,hst',-⟩ := dispatchAction_eq_some hd
      refine ⟨⟨⟨⟨?_,?_⟩,?_⟩,?_⟩,?_⟩
      · rw [hst']
        exact hst.1.recorded.servers
      · rw [hst']
        exact hst.1.recorded.objects
      · rw [hst']
        exact hst.1.sessions
      · rw [hst']
        exact hst.2
      · intro request hrequest i arg hi hne
        rw [hcall] at hrequest
        rw [List.mem_singleton.mp hrequest] at hi
        obtain ⟨o,ho,hbody,hserver⟩ := packArguments_server hp hi hne
        rw [hst.2] at hserver
        refine ⟨o,a.bucket,by rw [hact]; exact ho,hbody,?_⟩
        exact reportedAt_of_action h1 hall ha (hsub ha) hip htm haction (List.mem_of_getElem? ho)
          hserver

end Notification

/-- Tables, reports and sent arguments fit together. -/
structure Addressed (r : CoordRun) : Prop where
  /-- Servers and held objects come from reports. -/
  recorded : Recorded (reports r.history) r.tables
  compatible : AllCompatible (reports r.history)
  sent : Justified WellAddressed r.history

theorem addressed_start (seed : UInt32) : Addressed (start seed) := by
  refine ⟨⟨fun _ _ _ h => absurd h (USet.not_mem_empty _),fun _ _ h => absurd h List.not_mem_nil⟩,
    fun _ h => absurd h List.not_mem_nil,justified_nil⟩

theorem reports_eq_nil (h : ∀ e∈events,∀ i,e≠.received i) : reports events=[] := by
  refine List.flatMap_eq_nil_iff.mpr fun e he => ?_
  cases e with
  | received i => exact absurd rfl (h _ he i)
  | _ => rfl

variable {r : CoordRun} {st : CoordState} {i : CoordIn}

/-- A turn that dispatches nothing and reports nothing. -/
theorem Addressed.quiet (h : Addressed r) (hreports : reports (.received i::events)=[])
    (hevents : ∀ e∈events,∀ d,e≠.sent (.dispatch d)) (hrec : Recorded (reports r.history) st) :
    Addressed ⟨st,r.history++.received i::events⟩ := by
  have hsame : reports (r.history++.received i::events)=reports r.history := by
    rw [reports,List.flatMap_append]
    exact (congrArg (reports r.history++·) hreports).trans (List.append_nil _)
  refine ⟨?_,?_,?_⟩
  · show Recorded (reports (r.history++.received i::events)) st
    rw [hsame]
    exact hrec
  · show AllCompatible (reports (r.history++.received i::events))
    rw [hsame]
    exact h.compatible
  · exact h.sent.record (fun d hd => by cases hd)
      fun before _ e he d hd => absurd hd (hevents e he d)

theorem Addressed.notify {cfg : CoordConfig} {req : KeyNotifyRequest} {now : ℤ} {out : List CoordOut}
    (h : Addressed r) (hok : Consistent r (.notify req now))
    (hn : notifyHandler cfg now r.tables req=some (st,out)) :
    Addressed ⟨st,r.history++.received (.notify req now)::out.map .sent⟩ := by
  have hentries : ∀ before,before⊆out.map CoordEvent.sent →
      reports (r.history++.received (.notify req now)::before)=reports r.history++req.addresses := by
    intro before hb
    have hnone : reports before=[] := by
      refine reports_eq_nil fun e he i => ?_
      obtain ⟨o,-,rfl⟩ := List.mem_map.mp (hb he)
      exact nofun
    rw [reports,List.flatMap_append,List.flatMap_cons]
    exact congrArg (fun l => reports r.history++(req.addresses++l)) hnone |>.trans
      (by rw [List.append_nil])
  have hall : AllCompatible (reports r.history++req.addresses) := by
    intro a ha a' ha'
    rcases List.mem_append.mp ha with ha|ha
    · rcases List.mem_append.mp ha' with hb|hb
      · exact h.compatible a ha a' hb
      · exact (hok a' hb a (List.mem_append_left _ ha)).1.2
    · exact (hok a ha a' ha').1.1
  have hhandling : Handling (reports r.history++req.addresses) req r.tables :=
    ⟨h.recorded.mono (List.subset_append_left _ _),
      fun a ha hg a' ha' => (hok a ha a' ha').2 hg⟩
  obtain ⟨hrec,hgood⟩ := hhandling.notify hall (List.subset_append_right _ _) hn
  refine ⟨?_,?_,?_⟩
  · show Recorded (reports (r.history++_)) st
    rw [hentries _ (fun _ he => he)]
    exact hrec
  · show AllCompatible (reports (r.history++_))
    rw [hentries _ (fun _ he => he)]
    exact hall
  · refine h.sent.record (fun d hd => by cases hd) fun before hb e he d hd => ?_
    rw [hentries before hb]
    obtain ⟨o,ho,rfl⟩ := List.mem_map.mp he
    cases hd
    exact hgood _ ho d rfl

theorem addressed_step {cfg : CoordConfig} {self : CoordIdentity} {r' : CoordRun} (h : Addressed r)
    (hok : Consistent r i) (hstep : step cfg self r i=some r') : Addressed r' := by
  obtain ⟨st,events,hh,rfl⟩ := step_eq_some hstep
  by_cases hi : ∃ req now,i=.notify req now
  · obtain ⟨req,now,rfl⟩ := hi
    obtain ⟨out,hout,rfl⟩ := map_sent_eq_some hh
    exact h.notify hok hout
  · have haside := handle_aside (fun req now he => hi ⟨req,now,he⟩) hh
    have hnone : reports (.received i::events)=[] := by
      have hreported : reported (.received i)=[] := by
        cases i with
        | notify req now => exact absurd ⟨req,now,rfl⟩ hi
        | _ => rfl
      rw [reports,List.flatMap_cons,hreported]
      exact reports_eq_nil haside.produced
    exact h.quiet hnone haside.undispatched (h.recorded.aside haside)

/-- Along every run whose notifications fit the reports before them, every
argument that is sent by key carries a data server that was reported for the
object it names. -/
theorem arguments_well_addressed (cfg : CoordConfig) (self : CoordIdentity) (seed : UInt32)
    (inputs : List CoordIn) (r : CoordRun)
    (hok : StepsMeet (step cfg self) Consistent (start seed) inputs)
    (hrun : run (step cfg self) (start seed) inputs=some r) : Justified WellAddressed r.history :=
  (run_invariant_of_steps (fun _ _ _ h hok hstep => addressed_step h hok hstep) (addressed_start seed)
    hok hrun).sent

/-- Large objects of several sessions, each reported with its data server, in
a bucket whose trigger fires on every object. -/
def sessionObjects (servers : List (String×String)) : List CoordIn :=
  [.status ⟨str "10.0.0.1",3⟩,
    .bucket ⟨.createBucket,str "app",str "b",[],[]⟩,
    .trigger ⟨.addTrigger,str "app",str "b",str "t",0,.immediate,⟨str "f",[],0,0⟩,[],[],[]⟩ 0]++
  servers.map fun e => .notify ⟨[],[⟨str "b",str "k",str e.1,[str e.2],[]⟩],[]⟩ 0

theorem arguments_well_addressed_oneServer :
    ∃ r,run (step oneThread ⟨[],0⟩) (start 1)
        (sessionObjects [("s1","tcp://10.0.0.1:6000"),("s2","tcp://10.0.0.1:6000")])=some r ∧
      (∃ d,.sent (.dispatch d)∈r.history ∧
        d.call.requests=[⟨str "f",[⟨str "b|ks2",1,str "tcp://10.0.0.1:6000"⟩]⟩]) ∧
      Justified WellAddressed r.history := by
  refine ⟨_,rfl,⟨_,List.mem_of_getElem? (i:=10) rfl,rfl⟩,?_⟩
  exact arguments_well_addressed oneThread ⟨[],0⟩ 1
    (sessionObjects [("s1","tcp://10.0.0.1:6000"),("s2","tcp://10.0.0.1:6000")]) _
    (by decide +kernel) rfl

/-- The set of addresses begins with the one added last: the third argument
carries the server of the second session's object. -/
theorem foreign_session_address :
    ∃ r,run (step oneThread ⟨[],0⟩) (start 1) (sessionObjects [("s1","tcp://10.0.0.1:6000"),
        ("s2","tcp://10.0.0.2:6000"),("s3","tcp://10.0.0.1:6000")])=some r ∧
      (∃ d,.sent (.dispatch d)∈r.history ∧ d.routed.isSome=true ∧ d.action.sessionKeys=[(str "s3",str "k")] ∧
        d.call.requests=[⟨str "f",[⟨str "b|ks3",1,str "tcp://10.0.0.2:6000"⟩]⟩] ∧
        ¬ReportedAt (reports r.history) ⟨str "b",str "k",str "s3"⟩ (str "tcp://10.0.0.2:6000")) ∧
      ¬Justified WellAddressed r.history := by
  refine ⟨_,rfl,⟨_,List.mem_of_getElem? (i:=14) rfl,rfl,rfl,rfl,by decide +kernel⟩,fun h => ?_⟩
  obtain ⟨o,bucket,ho,hbody,hreported⟩ := h [_,_,_,_,_,_,_,_,_,_,_,_,_,_] _ [_,_] rfl _ rfl _
    List.mem_cons_self 0 _ rfl (by decide +kernel)
  cases ho
  have hbucket : bucket=str "b" := List.append_cancel_right (List.append_cancel_right hbody.symm)
  subst hbucket
  revert hreported
  decide +kernel

end Pheromone.DataAddresses
