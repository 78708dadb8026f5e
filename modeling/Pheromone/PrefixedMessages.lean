import Pheromone.ObjectRequests

/-!
# Messages with the length of a name

Three messages put a name behind one byte with its length. A name of 256
bytes or more is cut.
-/

namespace Pheromone.PrefixedMessages

open DelimitedText CommonNames SchedulerState ObjectTransport ObjectRequests

/-- The answer is about the key that was read from the request, and this
always fits. -/
theorem answer_recovered {objects : Str → Str} {req key msg : Str} {respAddress dest : Address}
    (h : readDataRequest req=some (key,respAddress))
    (hmsg : handleDataRequest objects req=some (dest,msg)) :
    dest=respAddress ∧ readDataResponse msg=some (key,objects key) := by
  have hshort := (framed_of_unframed h).2
  rw [handleDataRequest_eq objects h] at hmsg
  split at hmsg
  · cases hmsg
    exact ⟨rfl,unframed_framed_iff.mpr hshort⟩
  · cases hmsg

/-- All three messages say the name of an object, at every length: the request
of a function, the request for it to another worker, and the answer of that
worker, are read as they were written exactly if the name is shorter than 256
bytes. -/
theorem names_recovered_iff (g : GetRequest) (cfg : SchedulerConfig) (st : SchedState) (tid : UInt32)
    (objects : Str → Str) (address : Address) (req : Str)
    (hreq : sendDataReqBase cfg st tid g.name=some (address,req)) :
    (requestedName g.message=some g.name ↔ g.name.length<256) ∧
    (readDataRequest req=some (g.name,responseAddress cfg tid) ↔ g.name.length<256) ∧
    ∀ dest msg,handleDataRequest objects req=some (dest,msg) →
      (dest=responseAddress cfg tid ∧ readDataResponse msg=some (g.name,objects g.name) ↔
        g.name.length<256) := by
  have hframed := sendDataReqBase_eq_some hreq
  refine ⟨?_,?_,?_⟩
  · rw [requestedName,drop_message]
    exact fst_unframed_framed_iff
  · rw [hframed]
    exact unframed_framed_iff
  · intro dest msg hmsg
    have hread : readDataRequest req=some (_,_) := hframed ▸ unframed_framed g.name _
    obtain ⟨rfl,hback⟩ := answer_recovered hread hmsg
    rw [hback]
    constructor
    · intro h
      have hshort := (framed_of_unframed hread).2
      rwa [(Prod.mk.inj (Option.some.inj h.2)).1] at hshort
    · intro h
      rw [Nat.mod_eq_of_lt h,List.take_left,List.drop_left]
      exact ⟨rfl,rfl⟩

/-- A request for an object with a key of the given length. -/
def longRequest (size : ℕ) : GetRequest := ⟨sampleLibrary,str "b",List.replicate size 107,true⟩

/-- A worker that knows where the object is. -/
def locatingState (g : GetRequest) : SchedState :=
  {SchedState.start sampleConfig 1 with
    keyAddressCache := (SchedState.start sampleConfig 1).keyAddressCache.set g.name
      (str "tcp://10.0.0.2:4400")}

/-- A name of 255 bytes. -/
theorem names_recovered_longest : (longRequest 237).name.length=255 ∧
    requestedName (longRequest 237).message=some (longRequest 237).name ∧
    ∃ address req,sendDataReqBase sampleConfig (locatingState (longRequest 237)) 0
        (longRequest 237).name=some (address,req) ∧
      readDataRequest req=some ((longRequest 237).name,responseAddress sampleConfig 0) := by
  have hlen : (longRequest 237).name.length=255 := by decide +kernel
  obtain ⟨address,req,hreq⟩ : ∃ address req,sendDataReqBase sampleConfig
      (locatingState (longRequest 237)) 0 (longRequest 237).name=some (address,req) :=
    ⟨str "tcp://10.0.0.2:4400",framed (longRequest 237).name (responseAddress sampleConfig 0),
      by decide +kernel⟩
  have hiff := names_recovered_iff (longRequest 237) sampleConfig (locatingState (longRequest 237)) 0
    (fun _ => []) address req hreq
  exact ⟨hlen,hiff.1.mpr (by omega),address,req,hreq,hiff.2.1.mpr (by omega)⟩

/-- Of a name of 256 bytes nothing is read, and of one of 260 bytes the first
four. -/
theorem long_names_cut : (longRequest 238).name.length=256 ∧
    requestedName (longRequest 238).message=some [] ∧
    (longRequest 242).name.length=260 ∧
    requestedName (longRequest 242).message=some (str "b|kk") ∧
    (∃ address req,sendDataReqBase sampleConfig (locatingState (longRequest 242)) 0
        (longRequest 242).name=some (address,req) ∧
      (readDataRequest req).map Prod.fst=some (str "b|kk")) := by
  refine ⟨by decide +kernel,by decide +kernel,by decide +kernel,by decide +kernel,
    str "tcp://10.0.0.2:4400",framed (longRequest 242).name (responseAddress sampleConfig 0),
    by decide +kernel,by decide +kernel⟩

end Pheromone.PrefixedMessages
