import Pheromone.EventHistories
import Pheromone.GuardedRuns
import Pheromone.CommonNames

/-!
# The manager's assignment of coordinators

The manager picks a coordinator at random for a new application and keeps to
it. In every round it takes at most one message from each of two sockets.
-/

namespace Pheromone.CoordinatorAssignment

open UnorderedContainers EventHistories GuardedRuns CommonNames

/-- A coordinator thread announces itself. -/
structure CoordSync where
  /-- Address for clients outside. -/
  publicIp : Address
  /-- Address for clients inside. -/
  privateIp : Address
  /-- Number of the thread. -/
  threadId : UInt32
  deriving DecidableEq

/-- Which coordinator serves an application? -/
structure CoordQuery where
  /-- Name of the application. -/
  application : Str
  /-- Identifier chosen by the client. -/
  requestId : Str
  deriving DecidableEq

/-- The answer. -/
structure CoordResponse where
  coordIp : Address
  threadId : UInt32
  /-- Identifier of the query. -/
  requestId : Str
  deriving DecidableEq

/-- An announced coordinator thread. -/
structure CoordIp where
  /-- Address for clients outside. -/
  publicIp : Address
  /-- Address for clients inside. -/
  privateIp : Address
  /-- Number of the thread. -/
  threadId : UInt32
  deriving DecidableEq

/-- What the manager is started with. -/
structure ManagerConfig where
  /-- Whether clients are outside. -/
  externalUser : Bool
  /-- The pseudo-random source: the drawn number and the next seed. -/
  randR : UInt32 → UInt32×UInt32

/-- What the manager keeps. -/
structure ManagerState where
  /-- The coordinator of each application asked for. -/
  appCoordMap : UMap Str (Address×UInt32)
  /-- The announced coordinators. -/
  coordIps : USet CoordIp
  /-- Seed of the next draw. -/
  seed : UInt32

/-- What has happened. -/
inductive ManagerEvent where
  | synced (msg : CoordSync)
  | answered (query : CoordQuery) (resp : CoordResponse)
  deriving DecidableEq

/-- The manager and the history of its messages. -/
structure ManagerRun where
  tables : ManagerState
  /-- What was received and answered, oldest first. -/
  history : List ManagerEvent

/-- The manager at its start. -/
def ManagerRun.start (seed : UInt32) : ManagerRun := ⟨⟨∅,∅,seed⟩,[]⟩

variable (cfg : ManagerConfig)

/-- The coordinator of an announcement. -/
def CoordSync.coord (msg : CoordSync) : CoordIp := ⟨msg.publicIp,msg.privateIp,msg.threadId⟩

/-- How a coordinator is named to clients. -/
def CoordIp.named (coord : CoordIp) : Address×UInt32 :=
  (if cfg.externalUser then coord.publicIp else coord.privateIp,coord.threadId)

/-- Take an announcement. -/
def coordSync (r : ManagerRun) (msg : CoordSync) : ManagerRun :=
  ⟨{r.tables with coordIps := r.tables.coordIps.insert msg.coord},r.history++[.synced msg]⟩

/-- Pick one of the announced coordinators; without any there is a division
by zero. -/
def pickCoord (st : ManagerState) : Option (CoordIp×UInt32) :=
  let draw := cfg.randR st.seed
  if st.coordIps.size=0 then none
  else (st.coordIps.elems[draw.1.toNat%st.coordIps.size]?).map fun coord => (coord,draw.2)

/-- The tables once the application has a coordinator. -/
def assign (st : ManagerState) (app : Str) : Option ManagerState :=
  if st.appCoordMap.contains app then some st
  else (pickCoord cfg st).map fun r => {st with
    appCoordMap := st.appCoordMap.set app (r.1.named cfg)
    seed := r.2}

/-- Answer a query. -/
def coordQuery (r : ManagerRun) (query : CoordQuery) : Option ManagerRun :=
  (assign cfg r.tables query.application).map fun st =>
    let coord := st.appCoordMap.getD query.application ([],0)
    ⟨st,r.history++[.answered query ⟨coord.1,coord.2,query.requestId⟩]⟩

/-- The messages that a poll finds. -/
structure Round where
  /-- On the socket of announcements. -/
  sync : Option CoordSync
  /-- On the socket of queries. -/
  query : Option CoordQuery
  deriving DecidableEq

/-- One round of the loop. -/
def managerRound (r : ManagerRun) (round : Round) : Option ManagerRun :=
  let r := match round.sync with
    | some msg => coordSync r msg
    | none => r
  match round.query with
  | some query => coordQuery cfg r query
  | none => some r

/-- The answer to a query is one of the announced coordinators. -/
def Announced (before : List ManagerEvent) : ManagerEvent → Prop
  | .synced _ => True
  | .answered _ resp => ∃ msg,.synced msg∈before ∧
      (resp.coordIp,resp.threadId)=msg.coord.named cfg

/-- The answers of a history name announced coordinators and agree on every
application. -/
structure Sticky (history : List ManagerEvent) : Prop where
  /-- Every answer names a coordinator that was announced before. -/
  announced : Justified (Announced cfg) history
  /-- All answers for one application are equal. -/
  agreed : ∀ query resp query' resp',.answered query resp∈history → .answered query' resp'∈history →
    query.application=query'.application →
      (resp.coordIp,resp.threadId)=(resp'.coordIp,resp'.threadId)

/-- The rounds up to a query, if it is the first message of all. -/
def QueryFirst : List Round → Prop
  | [] => False
  | round::rounds => round.sync=none ∧ (round.query≠none ∨ QueryFirst rounds)

instance decidableQueryFirst : (rounds : List Round) → Decidable (QueryFirst rounds)
  | [] => isFalse id
  | round::rounds =>
    haveI := decidableQueryFirst rounds
    inferInstanceAs (Decidable (round.sync=none ∧ (round.query≠none ∨ QueryFirst rounds)))

/-- What holds of the manager's tables and history at any time. -/
structure Inv (r : ManagerRun) : Prop where
  /-- The coordinators are those announced. -/
  coords : ∀ coord,coord∈r.tables.coordIps ↔ ∃ msg,.synced msg∈r.history ∧ msg.coord=coord
  /-- An assigned coordinator was announced. -/
  assigned : ∀ app named,r.tables.appCoordMap.find? app=some named →
    ∃ msg,.synced msg∈r.history ∧ msg.coord.named cfg=named
  /-- The answers are those of the table. -/
  answers : ∀ query resp,.answered query resp∈r.history →
    r.tables.appCoordMap.find? query.application=some (resp.coordIp,resp.threadId)
  announced : Justified (Announced cfg) r.history

variable {cfg}

theorem inv_start (seed : UInt32) : Inv cfg (ManagerRun.start seed) where
  coords coord := by simp [ManagerRun.start]
  assigned _ _ h := by cases h
  answers _ _ h := absurd h List.not_mem_nil
  announced := justified_nil

variable {r : ManagerRun}

theorem Inv.sticky (h : Inv cfg r) : Sticky cfg r.history := by
  refine ⟨h.announced,fun query resp query' resp' ha ha' happ => ?_⟩
  have hfirst := h.answers query resp ha
  have hsecond := h.answers query' resp' ha'
  rw [happ] at hfirst
  exact Option.some.inj (hfirst.symm.trans hsecond)

theorem Inv.sync (h : Inv cfg r) (msg : CoordSync) : Inv cfg (coordSync r msg) where
  coords coord := by
    rw [coordSync,USet.mem_insert,h.coords]
    constructor
    · rintro (rfl|⟨other,hother,rfl⟩)
      · exact ⟨msg,by simp,rfl⟩
      · exact ⟨other,List.mem_append_left _ hother,rfl⟩
    · rintro ⟨other,hother,rfl⟩
      rcases List.mem_append.mp hother with hother|hother
      · exact Or.inr ⟨other,hother,rfl⟩
      · cases List.mem_singleton.mp hother
        exact Or.inl rfl
  assigned app named hfind := by
    obtain ⟨other,hother,hnamed⟩ := h.assigned app named hfind
    exact ⟨other,List.mem_append_left _ hother,hnamed⟩
  answers query resp hmem := by
    rcases List.mem_append.mp hmem with hmem|hmem
    · exact h.answers query resp hmem
    · cases List.mem_singleton.mp hmem
  announced := h.announced.concat trivial

variable {st : ManagerState}

theorem pickCoord_isSome (hne : st.coordIps.size≠0) :
    ∃ r,pickCoord cfg st=some r ∧ r.1∈st.coordIps := by
  have hlt : (cfg.randR st.seed).1.toNat%st.coordIps.size<st.coordIps.elems.length :=
    Nat.mod_lt _ (Nat.pos_of_ne_zero hne)
  refine ⟨(st.coordIps.elems.get ⟨_,hlt⟩,(cfg.randR st.seed).2),?_,List.get_mem _ _⟩
  rw [pickCoord,if_neg hne,List.getElem?_eq_getElem hlt]
  rfl

/-- An application has a coordinator afterwards, an announced one, and the
others keep theirs. -/
theorem assign_eq_some (hne : st.coordIps.size≠0) (app : Str) :
    ∃ st' named,assign cfg st app=some st' ∧ st'.coordIps=st.coordIps ∧
      (∀ other,st'.appCoordMap.find? other=
        if other=app then some named else st.appCoordMap.find? other) ∧
      (st.appCoordMap.find? app=some named ∨
        st.appCoordMap.find? app=none ∧ ∃ coord∈st.coordIps,coord.named cfg=named) := by
  unfold assign
  cases hfind : st.appCoordMap.find? app with
  | some named =>
    refine ⟨st,named,if_pos (by rw [UMap.contains,hfind]; rfl),rfl,fun other => ?_,Or.inl rfl⟩
    split
    · rename_i he
      rw [he,hfind]
    · rfl
  | none =>
    obtain ⟨r,hr,hmem⟩ := @pickCoord_isSome cfg _ hne
    rw [if_neg (by rw [UMap.contains,hfind]; exact Bool.false_ne_true),hr]
    exact ⟨_,_,rfl,rfl,fun other => UMap.find?_set _ _ _ _,Or.inr ⟨rfl,r.1,hmem,rfl⟩⟩

/-- Once a coordinator has been announced every query is answered. -/
theorem Inv.query (h : Inv cfg r) (hne : r.tables.coordIps.size≠0) (query : CoordQuery) :
    ∃ r',coordQuery cfg r query=some r' ∧
      r'.tables.coordIps=r.tables.coordIps ∧ Inv cfg r' := by
  obtain ⟨st,named,hassign,hcoords,hfind,hnamed⟩ := @assign_eq_some cfg _ hne query.application
  have hsource : ∃ msg,.synced msg∈r.history ∧ msg.coord.named cfg=named := by
    rcases hnamed with hold|⟨-,coord,hcoord,rfl⟩
    · exact h.assigned _ _ hold
    · obtain ⟨msg,hmsg,rfl⟩ := (h.coords coord).mp hcoord
      exact ⟨msg,hmsg,rfl⟩
  have hself : st.appCoordMap.find? query.application=some named := by
    rw [hfind,if_pos rfl]
  have hanswer : st.appCoordMap.getD query.application ([],0)=named := by
    rw [UMap.getD,hself]
    rfl
  refine ⟨⟨st,r.history++[.answered query ⟨named.1,named.2,query.requestId⟩]⟩,?_,hcoords,?_⟩
  · rw [coordQuery,hassign,←hanswer]
    rfl
  refine ⟨fun coord => ?_,fun app c hc => ?_,fun query' resp hmem => ?_,h.announced.concat ?_⟩
  · show coord∈st.coordIps ↔ _
    rw [hcoords,h.coords]
    constructor
    · rintro ⟨msg,hmsg,he⟩
      exact ⟨msg,List.mem_append_left _ hmsg,he⟩
    · rintro ⟨msg,hmsg,he⟩
      rcases List.mem_append.mp hmsg with hmsg|hmsg
      · exact ⟨msg,hmsg,he⟩
      · cases List.mem_singleton.mp hmsg
  · have hc' : (if app=query.application then some named else r.tables.appCoordMap.find? app)=some c :=
      (hfind app).symm.trans hc
    have hold : ∃ msg,.synced msg∈r.history ∧ msg.coord.named cfg=c := by
      split at hc'
      · exact Option.some.inj hc' ▸ hsource
      · exact h.assigned app c hc'
    obtain ⟨msg,hmsg,he⟩ := hold
    exact ⟨msg,List.mem_append_left _ hmsg,he⟩
  · rcases List.mem_append.mp hmem with hmem|hmem
    · have hold := h.answers query' resp hmem
      show st.appCoordMap.find? query'.application=_
      rw [hfind]
      split
      · rename_i he
        rw [he] at hold
        rcases hnamed with hsame|⟨hnone,-⟩
        · rw [←hsame,hold]
        · rw [hnone] at hold
          cases hold
      · exact hold
    · cases List.mem_singleton.mp hmem
      exact hself
  · obtain ⟨msg,hmsg,he⟩ := hsource
    exact ⟨msg,hmsg,he.symm⟩

/-- The pick of an application without any coordinator. -/
theorem coordQuery_eq_none (h : Inv cfg r) (hnone : r.tables.coordIps.size=0) (query : CoordQuery) :
    coordQuery cfg r query=none := by
  have hunknown : r.tables.appCoordMap.find? query.application=none := by
    cases hfind : r.tables.appCoordMap.find? query.application with
    | none => rfl
    | some named =>
      obtain ⟨msg,hmsg,-⟩ := h.assigned _ _ hfind
      have hcoord : msg.coord∈r.tables.coordIps := (h.coords _).mpr ⟨msg,hmsg,rfl⟩
      rw [USet.mem_def,List.length_eq_zero_iff.mp hnone] at hcoord
      cases hcoord
  have hpick : pickCoord cfg r.tables=none := if_pos hnone
  rw [coordQuery,assign,if_neg (by rw [UMap.contains,hunknown]; exact Bool.false_ne_true),hpick]
  rfl

/-- An announcement leaves at least one coordinator. -/
theorem size_coordSync (r : ManagerRun) (msg : CoordSync) :
    (coordSync r msg).tables.coordIps.size≠0 := by
  intro h
  have hmem : msg.coord∈(coordSync r msg).tables.coordIps := USet.mem_insert.mpr (Or.inl rfl)
  rw [USet.mem_def,List.length_eq_zero_iff.mp h] at hmem
  cases hmem

/-- A round with an announcement before it or in it. -/
theorem managerRound_serves (h : Inv cfg r) {round : Round}
    (hne : r.tables.coordIps.size≠0 ∨ round.sync≠none) :
    ∃ r',managerRound cfg r round=some r' ∧ r'.tables.coordIps.size≠0 ∧ Inv cfg r' := by
  obtain ⟨r1,hr1,hsize,hinv⟩ : ∃ r1,(match round.sync with
      | some msg => coordSync r msg
      | none => r)=r1 ∧ r1.tables.coordIps.size≠0 ∧ Inv cfg r1 := by
    cases hs : round.sync with
    | some msg => exact ⟨_,rfl,size_coordSync r msg,h.sync msg⟩
    | none => exact ⟨r,rfl,hne.resolve_right fun hn => hn hs,h⟩
  unfold managerRound
  dsimp only
  rw [hr1]
  cases round.query with
  | none => exact ⟨r1,rfl,hsize,hinv⟩
  | some query =>
    obtain ⟨r2,hr2,hcoords,hinv2⟩ := hinv.query hsize query
    exact ⟨r2,hr2,by rw [hcoords]; exact hsize,hinv2⟩

/-- Once a coordinator has been announced the manager serves every sequence
of rounds. -/
theorem run_serves (rounds : List Round) (h : Inv cfg r) (hne : r.tables.coordIps.size≠0) :
    ∃ r',run (managerRound cfg) r rounds=some r' ∧ Inv cfg r' := by
  induction rounds generalizing r with
  | nil => exact ⟨r,rfl,h⟩
  | cons round rounds ih =>
    obtain ⟨r1,hr1,hsize,hinv⟩ := @managerRound_serves _ _ h round (Or.inl hne)
    obtain ⟨r2,hr2,hinv2⟩ := ih hinv hsize
    exact ⟨r2,run_cons_eq_some.mpr ⟨r1,hr1,hr2⟩,hinv2⟩

variable {rounds : List Round}

/-- A run whose first message is a query ends there. -/
theorem run_eq_none (h : QueryFirst rounds) (seed : UInt32) :
    run (managerRound cfg) (ManagerRun.start seed) rounds=none := by
  induction rounds with
  | nil => exact h.elim
  | cons round rounds ih =>
    obtain ⟨hs,h⟩ := h
    cases hq : round.query with
    | some query =>
      have hround : managerRound cfg (ManagerRun.start seed) round=none := by
        rw [managerRound,hs,hq]
        exact coordQuery_eq_none (inv_start seed) rfl query
      rw [run,hround]
      rfl
    | none =>
      have hround : managerRound cfg (ManagerRun.start seed) round=some (ManagerRun.start seed) := by
        rw [managerRound,hs,hq]
      rw [run,hround]
      exact ih (h.resolve_left fun hn => hn hq)

/-- All other runs go on. -/
theorem run_start (h : ¬QueryFirst rounds) (seed : UInt32) :
    ∃ r,run (managerRound cfg) (ManagerRun.start seed) rounds=some r ∧ Inv cfg r := by
  have hinv := @inv_start cfg seed
  induction rounds with
  | nil => exact ⟨_,rfl,hinv⟩
  | cons round rounds ih =>
    by_cases hs : round.sync=none
    · have hq : round.query=none := by_contra fun hq => h ⟨hs,Or.inl hq⟩
      have hround : managerRound cfg (ManagerRun.start seed) round=some (ManagerRun.start seed) := by
        rw [managerRound,hs,hq]
      obtain ⟨r,hr,hinv⟩ := ih fun hfirst => h ⟨hs,Or.inr hfirst⟩
      exact ⟨r,run_cons_eq_some.mpr ⟨_,hround,hr⟩,hinv⟩
    · obtain ⟨r1,hr1,hsize,hinv1⟩ := managerRound_serves hinv (Or.inr hs)
      obtain ⟨r2,hr2,hinv2⟩ := run_serves rounds hinv1 hsize
      exact ⟨r2,run_cons_eq_some.mpr ⟨r1,hr1,hr2⟩,hinv2⟩

/-- The manager handles every message of a run, every answer names an
announced coordinator and all answers for an application agree, exactly if
the first message of the run is not a query. -/
theorem assignment_sticky_iff (cfg : ManagerConfig) (seed : UInt32) (rounds : List Round) :
    (∃ r,run (managerRound cfg) (ManagerRun.start seed) rounds=some r ∧ Sticky cfg r.history) ↔
      ¬QueryFirst rounds := by
  constructor
  · rintro ⟨r,hr,-⟩ hfirst
    rw [run_eq_none hfirst] at hr
    cases hr
  · intro hlater
    obtain ⟨r,hr,hinv⟩ := run_start hlater seed
    exact ⟨r,hr,hinv.sticky⟩

/-- A client asks before any coordinator has announced itself. -/
theorem early_query_divides_by_zero :
    QueryFirst [⟨none,some ⟨str "app",str "1"⟩⟩] ∧
      run (managerRound ⟨false,fun seed => (seed,seed)⟩) (ManagerRun.start 0)
        [⟨none,some ⟨str "app",str "1"⟩⟩]=none := by
  constructor
  · decide
  · rfl

/-- The announcement comes in the same round. -/
example : (run (managerRound ⟨false,fun seed => (seed,seed)⟩) (ManagerRun.start 7)
    [⟨some ⟨str "1.2.3.4",str "10.0.0.1",2⟩,some ⟨str "app",str "1"⟩⟩]).map
      (fun r => r.history.getLast?)=
    some (some (.answered ⟨str "app",str "1"⟩ ⟨str "10.0.0.1",2,str "1"⟩)) := by
  decide

end Pheromone.CoordinatorAssignment
