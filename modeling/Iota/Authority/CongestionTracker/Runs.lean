import Iota.Authority.CongestionTracker.Schedule
import Iota.Lib.Run

/-! Over any sequence of certificates the free slots of an object are the times that neither its
debt nor a scheduled certificate takes, and a certificate gets the least start at which its duration
is free on all its shared inputs. -/
namespace Iota.Authority
open Certificate CongestionControlParameters Except List ObjectExecutionSlots SharedObjectCongestionTracker
open Std (ExtTreeMap)
section Exact
variable (params : CongestionControlParameters) (debts : List (ObjectID × Nat))

/-- The debt of an object at the start of the commit; a later entry for it counts. -/
def debtOf (id : ObjectID) : Nat :=
  ((debts.foldl (fun m e => m.insert e.1 e.2) (∅ : ExtTreeMap ObjectID Nat))[id]?).getD 0

/-- The times of an object that its debt or a scheduled certificate takes. -/
def Occupied (scheduled : List (Certificate × Nat)) (id : ObjectID) (t : Nat) : Prop :=
  t < debtOf debts id ∨ ∃ e ∈ scheduled, id ∈ e.1.mutableInputs ∧
    e.2 ≤ t ∧ t < e.2 + params.getEstimatedExecutionDuration e.1

/-- The free slots of every object are the times that are not occupied. -/
structure Exact (tracker : SharedObjectCongestionTracker) (scheduled : List (Certificate × Nat)) :
    Prop where
  parameters : tracker.congestionControlParameters = params
  free : ∀ id object, tracker.objectExecutionSlots[id]? = some object →
    ∀ t, object.Free t ↔ t < maxExecutionTime ∧ ¬ Occupied params debts scheduled id t
  untouched : ∀ id, tracker.objectExecutionSlots[id]? = none →
    ∀ t, ¬ Occupied params debts scheduled id t

/-- The starts at which a certificate of duration `d` has all its shared inputs to itself. -/
def FreeStarts (scheduled : List (Certificate × Nat)) (objects : List SharedInputObject)
    (d : Nat) : Set Nat :=
  {t | ∀ obj ∈ objects, ∀ u, t ≤ u → u < t + d → ¬ Occupied params debts scheduled obj.id u}

variable {params debts} {tracker : SharedObjectCongestionTracker}
  {scheduled : List (Certificate × Nat)} {objects : List SharedInputObject} {d : Nat}

theorem Exact.room_iff (h : Exact params debts tracker scheduled) (hd : 0 < d)
    (hrd : tracker.Ready objects) {t : Nat} (ht : t + d ≤ maxExecutionTime) :
    tracker.Room d objects t ↔ t ∈ FreeStarts params debts scheduled objects d := by
  constructor
  · intro hr obj ho u hu hlt
    obtain ⟨object,hob⟩ := hrd obj ho
    have hf := (fits_iff_free hd).mp (hr obj ho object hob) u hu hlt
    exact ((h.free _ _ hob u).mp hf).2
  intro hs obj ho object hob
  refine (fits_iff_free hd).mpr fun u hu hlt => ?_
  exact (h.free _ _ hob u).mpr ⟨by omega,hs obj ho u hu hlt⟩

theorem exists_freeStart : (FreeStarts params debts scheduled objects d).Nonempty := by
  refine ⟨(objects.map fun obj => debtOf debts obj.id).sum +
    (scheduled.map fun e => e.2 + params.getEstimatedExecutionDuration e.1).sum,?_⟩
  rintro obj ho u hu - (hd | ⟨e,he,-,-,hlt⟩)
  · have hle := le_sum_of_mem (mem_map_of_mem (f := fun obj => debtOf debts obj.id) ho)
    omega
  have hle := le_sum_of_mem (mem_map_of_mem
    (f := fun e => e.2 + params.getEstimatedExecutionDuration e.1) he)
  omega

theorem Exact.initialized (h : Exact params debts tracker scheduled)
    (objects : List SharedInputObject) :
    Exact params debts (tracker.initializeObjectExecutionSlots objects) scheduled := by
  refine ⟨h.parameters,fun id object ho t => ?_,fun id hn t => ?_⟩
  · rw [getElem?_initialized] at ho
    split at ho
    · next hnw =>
      cases ho
      rw [free_new]
      exact ⟨fun ht => ⟨ht,h.untouched id hnw.1 t⟩,And.left⟩
    · exact h.free id object ho t
  rw [getElem?_initialized] at hn
  split at hn
  · cases hn
  · exact h.untouched id hn t

theorem limit_le_max {limit : Nat} (h : params.getEffectiveCongestionLimitPerCommit = some limit) :
    limit ≤ maxExecutionTime := by
  obtain ⟨max,-,rfl⟩ := Option.map_eq_some_iff.mp h
  exact Nat.min_le_right _ _

section Decide
variable {cert : Certificate} {limit : Nat}

section
variable (h : Exact params debts tracker scheduled)

include h

theorem Exact.trySchedule_eq (hl : params.getEffectiveCongestionLimitPerCommit = some limit)
    (hne : cert.sharedInputObjects ≠ []) (hdr : params.getEstimatedExecutionDuration cert = d)
    (hd : 0 < d) {start : Option Nat}
    (hs : tracker.computeTxStartTime cert.sharedInputObjects d = .ok start)
    (previous : PreviouslyDeferredTransactions) (commitRound : CommitRound) :
    tracker.trySchedule cert previous commitRound =
      if start.any (fun t => t + d ≤ limit) then .ok (.schedule (start.getD 0))
      else tracker.deferCongested cert previous commitRound d limit := by
  have he : cert.sharedInputObjects.isEmpty = false := by simpa using hne
  unfold trySchedule
  simp only [h.parameters,hdr,hl,he,Nat.pos_iff_ne_zero.mp hd,hs,if_false,
    ok_bind,Bool.false_eq_true]
  cases start with
  | none => rfl
  | some t => simp

theorem Exact.trySchedule_minFree (hm : params.congestionControlMinFreeExecutionSlot = true)
    (hlm : params.getEffectiveCongestionLimitPerCommit = some limit)
    (hrd : tracker.Ready cert.sharedInputObjects) (hne : cert.sharedInputObjects ≠ [])
    (hdr : params.getEstimatedExecutionDuration cert = d) (hd : 0 < d)
    (previous : PreviouslyDeferredTransactions) (commitRound : CommitRound) :
    ∃ t result, IsLeast (FreeStarts params debts scheduled cert.sharedInputObjects d) t ∧
      tracker.trySchedule cert previous commitRound = .ok result ∧
      (result = .schedule t ∧ t + d ≤ limit ∨
        (∃ key congested, result = .defer key congested) ∧ limit < t + d) := by
  have hmx := limit_le_max hlm
  obtain ⟨r,hr,hf⟩ := tracker.computeMinFreeExecutionSlot_firstIn hd hne hrd .maxDurationSlot
  have hst : tracker.computeTxStartTime cert.sharedInputObjects d = .ok r := by
    unfold computeTxStartTime
    rw [h.parameters,if_pos hm,hr]
  have hb : tracker.congestionControlParameters.congestionControlMinFreeExecutionSlot = false →
      ∃ obj ∈ cert.sharedInputObjects, tracker.isCongested d limit obj = .ok true := by
    rw [h.parameters,hm]
    exact nofun
  obtain ⟨key,congested,hdf⟩ := exists_deferCongested hrd hne hb previous commitRound
  rw [h.trySchedule_eq hlm hne hdr hd hst,hdf]
  -- the search is over the starts that end in time
  have hs : ∀ t, t ∈ FreeStarts params debts scheduled cert.sharedInputObjects d →
      t + d ≤ maxExecutionTime → r ≠ none ∧ ∀ least, r = some least → least ≤ t := by
    intro t ht he
    have hmm := (⟨Nat.zero_le _,he,(h.room_iff hd hrd he).mpr ht⟩ :
      ExecutionSlot.maxDurationSlot.startTime ≤ t ∧
        t + d ≤ ExecutionSlot.maxDurationSlot.endTime ∧
        tracker.Room d cert.sharedInputObjects t)
    cases r with
    | none => exact absurd hmm (Set.eq_empty_iff_forall_notMem.mp hf t)
    | some least =>
      refine ⟨nofun,fun other ho => ?_⟩
      cases ho
      exact hf.2 hmm
  cases r with
  | none =>
    have hn : (FreeStarts params debts scheduled cert.sharedInputObjects d).Nonempty :=
      exists_freeStart
    have hl := Nat.sInf_mem hn
    refine ⟨_,_,⟨hl,fun u => Nat.sInf_le⟩,rfl,.inr ⟨⟨key,congested,rfl⟩,?_⟩⟩
    by_contra hle
    exact (hs _ hl (by omega)).1 rfl
  | some t =>
    obtain ⟨-,he,hrm⟩ := hf.1
    have hbn : t + d ≤ maxExecutionTime := he
    have hl : IsLeast (FreeStarts params debts scheduled cert.sharedInputObjects d) t := by
      refine ⟨(h.room_iff hd hrd hbn).mp hrm,fun u hu => ?_⟩
      by_cases hln : u + d ≤ maxExecutionTime
      · exact (hs u hu hln).2 t rfl
      · omega
    by_cases hle : t + d ≤ limit
    · exact ⟨t,.schedule t,hl,by simp [hle],.inl ⟨rfl,hle⟩⟩
    · exact ⟨t,.defer key congested,hl,by simp [hle],.inr ⟨⟨key,congested,rfl⟩,by omega⟩⟩

theorem Exact.free_last (hen : ∀ e ∈ scheduled, e.1.mutableInputs ≠ [] →
      e.2 + params.getEstimatedExecutionDuration e.1 < maxExecutionTime)
    {id : ObjectID} {object : ObjectExecutionSlots}
    (ho : tracker.objectExecutionSlots[id]? = some object) {t : Nat} (ht : object.Free t) :
    object.Free (maxExecutionTime - 1) := by
  obtain ⟨hlt,hf⟩ := (h.free id object ho t).mp ht
  refine (h.free id object ho _).mpr ⟨by omega,?_⟩
  rintro (hd | ⟨e,he,hid,-,hh⟩)
  · exact hf (.inl (by omega))
  · have hed := hen e he (ne_nil_of_mem hid)
    omega

theorem Exact.trySchedule_last (hm : params.congestionControlMinFreeExecutionSlot = false)
    (hl : params.getEffectiveCongestionLimitPerCommit = some limit)
    (he : ∀ e ∈ scheduled, e.1.mutableInputs ≠ [] →
      e.2 + params.getEstimatedExecutionDuration e.1 < maxExecutionTime)
    (hr : tracker.Ready cert.sharedInputObjects) (hne : cert.sharedInputObjects ≠ [])
    (hdr : params.getEstimatedExecutionDuration cert = d) (hd : 0 < d)
    (previous : PreviouslyDeferredTransactions) (commitRound : CommitRound) :
    ∃ result, tracker.trySchedule cert previous commitRound = .ok result ∧
      ((∃ start, result = .schedule start ∧ start + d ≤ limit ∧
          tracker.Room d cert.sharedInputObjects start) ∨
        ∃ key congested, result = .defer key congested) := by
  have hma := limit_le_max hl
  have hcm : tracker.computeTxStartTime cert.sharedInputObjects d =
      (tracker.objectStartTimes d cert.sharedInputObjects).map (·.bind List.max?) := by
    unfold computeTxStartTime
    rw [h.parameters,if_neg (by simp [hm])]
    cases tracker.objectStartTimes d cert.sharedInputObjects <;> rfl
  rcases objectStartTimes_spec (d := d) hr with
    ⟨starts,hok,ha,hf⟩ | ⟨hok,obj,hoj,object,hob,hn⟩
  · obtain ⟨obj,hoj⟩ := exists_mem_of_ne_nil _ hne
    obtain ⟨-,first,-,-,hfr⟩ := ha obj hoj
    obtain ⟨start,hst⟩ : ∃ start, starts.max? = some start :=
      Option.isSome_iff_exists.mp (isSome_max?_of_mem hfr)
    obtain ⟨hmm,hmx⟩ := List.max?_eq_some_iff.mp hst
    have hc : tracker.computeTxStartTime cert.sharedInputObjects d = .ok (some start) := by
      simp [hcm,hok,hst]
    rw [h.trySchedule_eq hl hne hdr hd hc]
    by_cases hle : start + d ≤ limit
    · refine ⟨.schedule start,by simp [hle],.inl ⟨start,rfl,hle,fun o ho object hob => ?_⟩⟩
      obtain ⟨object',s,ho',hs,hin⟩ := ha o ho
      cases hob.symm.trans ho'
      obtain ⟨t,ht⟩ := exists_free hs
      exact fits_of_maxObjectFreeSlotStartTime hs (h.free_last he hob ht) (hmx s hin) (by omega)
    obtain ⟨o,ho,object,hob,hs⟩ := hf start hmm
    have hy : tracker.isCongested d limit o = .ok true :=
      isCongested_of_late hd hob fun other hot => by
        cases hs.symm.trans hot
        exact Nat.lt_of_not_le hle
    obtain ⟨key,congested,hdf⟩ := exists_deferCongested
      hr hne (fun _ => ⟨o,ho,hy⟩) previous commitRound
    exact ⟨.defer key congested,by simp [hle,hdf],.inr ⟨key,congested,rfl⟩⟩
  · have hc : tracker.computeTxStartTime cert.sharedInputObjects d = .ok none := by
      simp [hcm,hok]
    rw [h.trySchedule_eq hl hne hdr hd hc]
    have hy : tracker.isCongested d limit obj = .ok true :=
      isCongested_of_late hd hob fun other hot => by
        rw [hn] at hot
        cases hot
    obtain ⟨key,congested,hdf⟩ := exists_deferCongested
      hr hne (fun _ => ⟨obj,hoj,hy⟩) previous commitRound
    exact ⟨.defer key congested,by simp [hdf],.inr ⟨key,congested,rfl⟩⟩

end
end Decide

theorem occupied_append {cert : Certificate} {start : Nat} {id : ObjectID} {t : Nat}
    (hd : params.getEstimatedExecutionDuration cert = d) :
    Occupied params debts (scheduled ++ [(cert,start)]) id t ↔
      Occupied params debts scheduled id t ∨
        (id ∈ cert.mutableInputs ∧ start ≤ t ∧ t < start + d) := by
  simp [Occupied,or_assoc,hd,or_and_right,exists_or]

theorem Exact.bump_idle (h : Exact params debts tracker scheduled) {cert : Certificate}
    (hi : params.getEstimatedExecutionDuration cert = 0 ∨ cert.sharedInputObjects = []) :
    ∃ result, tracker.bumpObjectExecutionSlots cert 0 = .ok (tracker,result) ∧
      Exact params debts tracker (scheduled ++ [(cert,0)]) := by
  have hm : params.getEstimatedExecutionDuration cert = 0 ∨ cert.mutableInputs = [] :=
    hi.imp_right fun hn => by simp [mutableInputs,hn]
  have hs : ∀ id t, Occupied params debts (scheduled ++ [(cert,0)]) id t ↔
      Occupied params debts scheduled id t := by
    intro id t
    rw [occupied_append rfl]
    refine or_iff_left ?_
    rintro ⟨hid,-,hlt⟩
    rcases hm with hz | hn
    · omega
    · rw [hn] at hid
      cases hid
  have he : Exact params debts tracker (scheduled ++ [(cert,0)]) :=
    ⟨h.parameters,fun id object ho t => by rw [hs]; exact h.free id object ho t,
      fun id hnn t => by rw [hs]; exact h.untouched id hnn t⟩
  unfold bumpObjectExecutionSlots
  simp only [h.parameters]
  split
  · exact ⟨none,rfl,he⟩
  · next hp =>
    have hn : cert.mutableInputs = [] := hm.resolve_left hp
    rw [dif_pos (by unfold maxExecutionTime; omega),hn]
    exact ⟨_,rfl,he⟩

theorem Exact.bump_taken (h : Exact params debts tracker scheduled) {cert : Certificate}
    {start : Nat} (hds : cert.DistinctInputs) (hrd : tracker.Ready cert.sharedInputObjects)
    (hdr : params.getEstimatedExecutionDuration cert = d) (hd : 0 < d)
    (he : start + d ≤ maxExecutionTime) (hr : tracker.Room d cert.sharedInputObjects start) :
    ∃ tracker' result, tracker.bumpObjectExecutionSlots cert start = .ok (tracker',result) ∧
      Exact params debts tracker' (scheduled ++ [(cert,start)]) := by
  have hsm : min (start + d) maxExecutionTime = start + d := Nat.min_eq_left he
  have hs : start < min (start + d) maxExecutionTime := by omega
  have hnd : cert.mutableInputs.Nodup := hds.sublist (filter_sublist.map SharedInputObject.id)
  let slot : ExecutionSlot := ⟨start,min (start + d) maxExecutionTime,hs,Nat.min_le_right _ _⟩
  have hf : ∀ id ∈ cert.mutableInputs, ∃ object,
      tracker.objectExecutionSlots[id]? = some object ∧
        Fits object.slots (slot.endTime - slot.startTime) slot.startTime := by
    intro id hid
    obtain ⟨obj,hob,rfl⟩ := mem_map.mp hid
    obtain ⟨object,ho⟩ := hrd obj (mem_of_mem_filter hob)
    have hln : slot.endTime - slot.startTime = d := by dsimp only [slot]; omega
    rw [hln]
    exact ⟨object,ho,hr obj (mem_of_mem_filter hob) object ho⟩
  obtain ⟨tracker',hok,hp,hl⟩ := exists_removeSlot hnd hf
  refine ⟨tracker',some ⟨cert.mutableInputs,start,d,cert.gasPrice⟩,?_,?_,?_,?_⟩
  · unfold bumpObjectExecutionSlots
    simp only [h.parameters,hdr]
    rw [if_neg (Nat.pos_iff_ne_zero.mp hd),dif_pos hs,hok]
    rfl
  · rw [hp,h.parameters]
  · intro id object' ho' t
    rw [occupied_append hdr]
    have hid := hl id
    split at hid
    · next hm =>
      obtain ⟨object,taken,ho,hrm,ht⟩ := hid
      cases ho'.symm.trans ht
      have hc := free_remove hrm (t := t)
      dsimp only [slot] at hc
      rw [hsm] at hc
      rw [hc,h.free id object ho t]
      tauto
    · next hm =>
      rw [hid] at ho'
      rw [h.free id object' ho' t]
      tauto
  · intro id hn t
    rw [occupied_append hdr]
    have hid := hl id
    split at hid
    · obtain ⟨-,taken,-,-,ht⟩ := hid
      rw [hn] at ht
      cases ht
    · next hm =>
      rw [hn] at hid
      have hfr := h.untouched id hid.symm t
      tauto

/-- Two scheduled certificates share no time if they mutate a common object. -/
def Apart (params : CongestionControlParameters) (a b : Certificate × Nat) : Prop :=
  ∀ id ∈ a.1.mutableInputs, id ∈ b.1.mutableInputs →
    ∀ t, ¬ ((a.2 ≤ t ∧ t < a.2 + params.getEstimatedExecutionDuration a.1) ∧
      (b.2 ≤ t ∧ t < b.2 + params.getEstimatedExecutionDuration b.1))

end Exact
namespace CommitSchedule

structure Sound (params : CongestionControlParameters) (debts : List (ObjectID × Nat))
    (s : CommitSchedule) : Prop where
  exact : Exact params debts s.tracker s.scheduled
  apart : s.scheduled.Pairwise (Apart params)
  ended : ∀ limit, params.getEffectiveCongestionLimitPerCommit = some limit →
    ∀ e ∈ s.scheduled, e.1.mutableInputs ≠ [] →
      e.2 + params.getEstimatedExecutionDuration e.1 ≤ limit

/-- With minimum free slots: a certificate is given the least start at which its duration is free on
all its shared inputs, and is deferred exactly when that start is too late for the limit. -/
def Earliest (params : CongestionControlParameters) (debts : List (ObjectID × Nat))
    (s : CommitSchedule) (cert : Certificate) (limit : Nat) (result : SequencingResult) : Prop :=
  ∃ t, IsLeast (FreeStarts params debts s.scheduled cert.sharedInputObjects
      (params.getEstimatedExecutionDuration cert)) t ∧
    (result = .schedule t ∧ t + params.getEstimatedExecutionDuration cert ≤ limit ∨
      (∃ key congested, result = .defer key congested) ∧
        limit < t + params.getEstimatedExecutionDuration cert)

variable {params : CongestionControlParameters} {debts : List (ObjectID × Nat)}
  {s : CommitSchedule}

section
variable (hs : s.Sound params debts)

include hs

theorem Sound.schedule {tracker : SharedObjectCongestionTracker} {cert : Certificate} {start : Nat}
    (hex : Exact params debts tracker (s.scheduled ++ [(cert,start)]))
    (hf : start ∈ FreeStarts params debts s.scheduled cert.sharedInputObjects
      (params.getEstimatedExecutionDuration cert))
    (hen : ∀ limit, params.getEffectiveCongestionLimitPerCommit = some limit →
      cert.mutableInputs ≠ [] → start + params.getEstimatedExecutionDuration cert ≤ limit) :
    Sound params debts ⟨tracker,s.scheduled ++ [(cert,start)]⟩ := by
  refine ⟨hex,pairwise_append.mpr ⟨hs.apart,pairwise_singleton _ _,?_⟩,?_⟩
  · intro e he new hn id hid hid' t ht
    cases mem_singleton.mp hn
    obtain ⟨obj,ho,rfl⟩ := mem_map.mp hid'
    exact hf obj (mem_of_mem_filter ho) t ht.2.1 ht.2.2 (.inr ⟨e,he,hid,ht.1⟩)
  intro limit hl e he hm
  rcases mem_append.mp he with he | he
  · exact hs.ended limit hl e he hm
  · cases mem_singleton.mp he
    exact hen limit hl hm

theorem Sound.initialized (objects : List SharedInputObject) :
    Sound params debts ⟨s.tracker.initializeObjectExecutionSlots objects,s.scheduled⟩ :=
  ⟨hs.exact.initialized objects,hs.apart,hs.ended⟩

theorem Sound.attempt_idle {request : SchedulingRequest}
    (he : params.isCongestionControlEnabled = true)
    (hi : params.getEstimatedExecutionDuration request.cert = 0 ∨
      request.cert.sharedInputObjects = []) :
    ∃ s', s.attempt request = .ok (.schedule 0,s') ∧ s'.Sound params debts := by
  have hin := hs.initialized request.cert.sharedInputObjects
  obtain ⟨result,hb,hex⟩ := hin.exact.bump_idle hi
  have ht : (s.tracker.initializeObjectExecutionSlots
      request.cert.sharedInputObjects).trySchedule request.cert request.previous
        request.commitRound = .ok (.schedule 0) := by
    unfold trySchedule
    rw [hin.exact.parameters]
    rcases hi with hz | hn
    · exact if_pos hz
    · simp [hn]
  rw [← hs.exact.parameters] at he
  refine ⟨_,attempt_ok he ht (place_schedule hb),hs.schedule hex ?_ ?_⟩
  · rcases hi with hz | hn
    · intro obj _ u _ hlt
      omega
    · rw [hn]
      exact forall_mem_nil _
  intro limit _ hm
  rcases hi with hz | hn
  · omega
  · exact absurd (by simp [mutableInputs,hn]) hm

theorem Sound.attempt_of_trySchedule {request : SchedulingRequest}
    {limit d : Nat} (hl : params.getEffectiveCongestionLimitPerCommit = some limit)
    (he : params.isCongestionControlEnabled = true) (hds : request.cert.DistinctInputs)
    (hdr : params.getEstimatedExecutionDuration request.cert = d) (hd : 0 < d)
    {result : SequencingResult} (ht : (s.tracker.initializeObjectExecutionSlots
      request.cert.sharedInputObjects).trySchedule request.cert request.previous
        request.commitRound = .ok result)
    (hrs : ∀ start, result = .schedule start → start + d ≤ limit ∧
      start ∈ FreeStarts params debts s.scheduled request.cert.sharedInputObjects d) :
    ∃ s', s.attempt request = .ok (result,s') ∧ s'.Sound params debts := by
  have hi := hs.initialized request.cert.sharedInputObjects
  have hr := s.tracker.ready_initialized request.cert.sharedInputObjects
  have hm := limit_le_max hl
  rw [← hs.exact.parameters] at he
  cases result with
  | defer key congested => exact ⟨_,attempt_ok he ht rfl,hi⟩
  | schedule start =>
    obtain ⟨hen,hf⟩ := hrs start rfl
    have hb : start + d ≤ maxExecutionTime := by omega
    obtain ⟨tracker',bumped,hbm,hex⟩ := hi.exact.bump_taken hds hr hdr hd
      hb ((hi.exact.room_iff hd hr hb).mpr hf)
    refine ⟨_,attempt_ok he ht (place_schedule hbm),
      hs.schedule hex (hdr ▸ hf) fun other ho _ => ?_⟩
    rw [hl] at ho
    cases ho
    omega

theorem Sound.attempt (hc : params.congestionControlMinFreeExecutionSlot = true ∨
      ∀ limit, params.getEffectiveCongestionLimitPerCommit = some limit → limit < maxExecutionTime)
    (request : SchedulingRequest) (hds : request.cert.DistinctInputs) :
    ∃ result s', s.attempt request = .ok (result,s') ∧ s'.Sound params debts ∧
      (params.congestionControlMinFreeExecutionSlot = true →
        ∀ limit, params.getEffectiveCongestionLimitPerCommit = some limit →
        (request.cert.sharedInputObjects = [] →
          params.getEstimatedExecutionDuration request.cert ≤ limit) →
        Earliest params debts s request.cert limit result) := by
  cases hmx : params.maxExecutionDurationPerCommit with
  | none =>
    have hl : params.getEffectiveCongestionLimitPerCommit = none := by
      simp [getEffectiveCongestionLimitPerCommit,hmx]
    refine ⟨.schedule 0,s,?_,hs,fun _ limit h => by rw [hl] at h; cases h⟩
    simp [CommitSchedule.attempt,hs.exact.parameters,isCongestionControlEnabled,hmx]
  | some maximum =>
    have hen : params.isCongestionControlEnabled = true := by
      simp [isCongestionControlEnabled,hmx]
    obtain ⟨limit,hl⟩ :
        ∃ limit, params.getEffectiveCongestionLimitPerCommit = some limit := by
      simp [getEffectiveCongestionLimitPerCommit,hmx]
    by_cases hi : params.getEstimatedExecutionDuration request.cert = 0 ∨
        request.cert.sharedInputObjects = []
    · obtain ⟨s',hs',hsn⟩ := hs.attempt_idle hen hi
      refine ⟨.schedule 0,s',hs',hsn,fun _ other ho hf => ?_⟩
      refine ⟨0,⟨?_,fun _ _ => Nat.zero_le _⟩,.inl ⟨rfl,?_⟩⟩
      · rcases hi with hz | hn
        · intro obj _ u _ hlt
          omega
        · rw [hn]
          exact forall_mem_nil _
      rcases hi with hz | hn
      · omega
      · rw [Nat.zero_add]
        exact hf hn
    · rw [not_or] at hi
      have hd : 0 < params.getEstimatedExecutionDuration request.cert := Nat.pos_of_ne_zero hi.1
      have hin := hs.initialized request.cert.sharedInputObjects
      have hrd := s.tracker.ready_initialized request.cert.sharedInputObjects
      cases hmd : params.congestionControlMinFreeExecutionSlot with
      | true =>
        obtain ⟨t,result,hls,ht,hr⟩ := hin.exact.trySchedule_minFree hmd hl
          hrd hi.2 rfl hd request.previous request.commitRound
        obtain ⟨s',hs',hsn⟩ := hs.attempt_of_trySchedule hl hen hds rfl hd ht
          fun start hst => by
            rcases hr with ⟨heq,hed⟩ | ⟨⟨key,congested,heq⟩,-⟩
            · cases heq.symm.trans hst
              exact ⟨hed,hls.1⟩
            · cases heq.symm.trans hst
        refine ⟨result,s',hs',hsn,fun _ other ho _ => ⟨t,hls,?_⟩⟩
        cases hl.symm.trans ho
        exact hr
      | false =>
        have hb : limit < maxExecutionTime := (hc.resolve_left (by simp [hmd])) limit hl
        have hende : ∀ e ∈ s.scheduled, e.1.mutableInputs ≠ [] →
            e.2 + params.getEstimatedExecutionDuration e.1 < maxExecutionTime :=
          fun e he hm => (hs.ended limit hl e he hm).trans_lt hb
        obtain ⟨result,ht,hr⟩ := hin.exact.trySchedule_last hmd hl hende
          hrd hi.2 rfl hd request.previous request.commitRound
        obtain ⟨s',hs',hsn⟩ := hs.attempt_of_trySchedule hl hen hds rfl hd ht
          fun start hst => by
            rcases hr with ⟨found,heq,hed,hrm⟩ | ⟨key,congested,heq⟩
            · cases heq.symm.trans hst
              exact ⟨hed,(hin.exact.room_iff hd hrd (by omega)).mp hrm⟩
            · cases heq.symm.trans hst
        exact ⟨result,s',hs',hsn,fun h => (Bool.false_ne_true h).elim⟩

end
end CommitSchedule

theorem initialSlots_spec {debt : Nat} (h : debt ≤ maxExecutionTime) :
    ∃ object, initialSlots debt = .ok object ∧
      ∀ t, object.Free t ↔ debt ≤ t ∧ t < maxExecutionTime := by
  unfold initialSlots
  split
  · next hp =>
    have hf : Fits new.slots (debt - 0) 0 :=
      ⟨.maxDurationSlot,mem_cons_self,le_rfl,by simpa [ExecutionSlot.maxDurationSlot] using h⟩
    obtain ⟨object,hr⟩ :
        ∃ object, new.remove ⟨0,debt,hp.1,hp.2⟩ = .ok object :=
      exists_remove hf
    refine ⟨object,hr,fun t => ?_⟩
    rw [free_remove hr,free_new]
    simp only [Nat.zero_le,true_and,not_lt]
    exact and_comm
  · next hz =>
    refine ⟨.new,rfl,fun t => ?_⟩
    rw [free_new]
    omega

/-- Every object with a debt has the slots from that debt on, and no other object has slots. -/
def Tracks (slots : ExtTreeMap ObjectID ObjectExecutionSlots) (debts : ExtTreeMap ObjectID Nat) :
    Prop :=
  ∀ id : ObjectID, (debts[id]? = none ∧ slots[id]? = none) ∨
    ∃ debt object, debts[id]? = some debt ∧ slots[id]? = some object ∧
      ∀ t, object.Free t ↔ debt ≤ t ∧ t < maxExecutionTime

theorem exists_foldlM_addDebt : ∀ {debts : List (ObjectID × Nat)}
    {slots : ExtTreeMap ObjectID ObjectExecutionSlots} {known : ExtTreeMap ObjectID Nat},
    (∀ e ∈ debts, e.2 ≤ maxExecutionTime) → Tracks slots known →
    ∃ slots', debts.foldlM addDebt slots = .ok slots' ∧
      Tracks slots' (debts.foldl (fun m e => m.insert e.1 e.2) known) := by
  intro debts
  induction debts with
  | nil => exact fun _ ht => ⟨_,rfl,ht⟩
  | cons entry rest ih =>
    intro slots known hd ht
    obtain ⟨he,hr⟩ := forall_mem_cons.mp hd
    obtain ⟨object,hok,hfr⟩ := initialSlots_spec he
    have hi : Tracks (slots.insert entry.1 object) (known.insert entry.1 entry.2) := by
      intro id
      simp only [ExtTreeMap.getElem?_insert_eq]
      split
      · exact .inr ⟨entry.2,object,rfl,rfl,hfr⟩
      · exact ht id
    obtain ⟨slots',hf,ht'⟩ := ih hr hi
    refine ⟨slots',?_,ht'⟩
    rw [foldlM_cons,addDebt,hok]
    exact hf

theorem exists_new (params : CongestionControlParameters) {debts : List (ObjectID × Nat)}
    (hdb : ∀ e ∈ debts, e.2 ≤ maxExecutionTime) :
    ∃ tracker, new debts params = .ok tracker ∧
      Exact params debts tracker [] := by
  have he : Tracks ∅ ∅ := fun id => .inl ⟨by simp,by simp⟩
  obtain ⟨slots,hf,ht⟩ := exists_foldlM_addDebt hdb he
  refine ⟨⟨slots,params⟩,?_,rfl,fun id object ho t => ?_,fun id hn t => ?_⟩
  · unfold SharedObjectCongestionTracker.new
    rw [hf]
    rfl
  · rcases ht id with ⟨-,hs⟩ | ⟨debt,found,hd,hs,hfr⟩
    · cases ho.symm.trans hs
    cases ho.symm.trans hs
    rw [hfr t]
    simp [Occupied,debtOf,hd,and_comm]
  rcases ht id with ⟨hd,-⟩ | ⟨debt,found,-,hs,-⟩
  · simp [Occupied,debtOf,hd]
  · cases hn.symm.trans hs

def Started (params : CongestionControlParameters) (debts : List (ObjectID × Nat))
    (s : CommitSchedule) : Prop :=
  new debts params = .ok s.tracker ∧ s.scheduled = []

/-- The tracker over every sequence of certificates: the free slots are exact, scheduled
certificates do not overlap, nothing fails, and minimum free slots are given out earliest first. -/
theorem schedules_exact (params : CongestionControlParameters) (debts : List (ObjectID × Nat))
    (hdebts : ∀ e ∈ debts, e.2 ≤ maxExecutionTime)
    (hcond : params.congestionControlMinFreeExecutionSlot = true ∨
      ∀ limit, params.getEffectiveCongestionLimitPerCommit = some limit →
        limit < maxExecutionTime) :
    (∃ tracker, new debts params = .ok tracker) ∧
    ∀ s, Machine.Reached (Started params debts) CommitSchedule.step
        (fun _ request => request.cert.DistinctInputs) s →
      Exact params debts s.tracker s.scheduled ∧ s.scheduled.Pairwise (Apart params) ∧
      ∀ request : SchedulingRequest, request.cert.DistinctInputs →
        ∃ result s', s.attempt request = .ok (result,s') ∧
          (params.congestionControlMinFreeExecutionSlot = true →
            ∀ limit, params.getEffectiveCongestionLimitPerCommit = some limit →
            (request.cert.sharedInputObjects = [] →
              params.getEstimatedExecutionDuration request.cert ≤ limit) →
            s.Earliest params debts request.cert limit result) := by
  obtain ⟨tracker,hnw,hex⟩ := exists_new params hdebts
  refine ⟨⟨tracker,hnw⟩,fun s hr => ?_⟩
  have hsn : s.Sound params debts := by
    refine hr.invariant ?_ ?_
    · rintro s ⟨hs,hn⟩
      cases hnw.symm.trans hs
      refine ⟨hn ▸ hex,hn ▸ List.Pairwise.nil,?_⟩
      rw [hn]
      exact fun _ _ => forall_mem_nil _
    intro s request s' hs hd hst
    obtain ⟨result,next,ha,hnx,-⟩ := hs.attempt hcond request hd
    rw [CommitSchedule.step,ha] at hst
    cases hst
    exact hnx
  refine ⟨hsn.exact,hsn.apart,fun request hd => ?_⟩
  obtain ⟨result,s',ha,-,he⟩ := hsn.attempt hcond request hd
  exact ⟨result,s',ha,he⟩

section Runs

def gasCert (digest gasBudget : Nat) (objects : List ObjectID) : Certificate :=
  ⟨digest,gasBudget,1,objects.map fun id => ⟨id,1,true⟩⟩

def gasParams (minFree : Bool) (limit : Nat) : CongestionControlParameters :=
  ⟨.totalGasBudget,minFree,some limit,none⟩

def afterFirst (params : CongestionControlParameters) (debts : List (ObjectID × Nat))
    (cert : Certificate) : Except Panic CommitSchedule := do
  let tracker ← new debts params
  CommitSchedule.step ⟨tracker,[]⟩ ⟨cert,∅,0⟩

theorem reached_afterFirst {params : CongestionControlParameters} {debts : List (ObjectID × Nat)}
    {cert : Certificate} (hd : cert.DistinctInputs) {s : CommitSchedule}
    (h : afterFirst params debts cert = .ok s) :
    Machine.Reached (Started params debts) CommitSchedule.step
      (fun _ request => request.cert.DistinctInputs) s := by
  obtain ⟨tracker,hn,hs⟩ := of_bind h
  have hst : Started params debts ⟨tracker,[]⟩ := ⟨hn,rfl⟩
  exact .step (.init hst) hd hs

/-- An object with debt 3 and a fresh one: the first certificate goes from 3 to 7, and the next one
on the fresh object goes before it. -/
theorem schedules_exact_debt :
    ∃ s, Machine.Reached (Started (gasParams true 10) [(1,3)]) CommitSchedule.step
        (fun _ request => request.cert.DistinctInputs) s ∧
      s.scheduled = [(gasCert 1 4 [1,2],3)] ∧
      Exact (gasParams true 10) [(1,3)] s.tracker s.scheduled ∧
      ∃ result s', s.attempt ⟨gasCert 2 3 [2],∅,0⟩ = .ok (result,s') ∧
        s.Earliest (gasParams true 10) [(1,3)] (gasCert 2 3 [2]) 10 result := by
  obtain ⟨s,hrn,hs⟩ : ∃ s,
      afterFirst (gasParams true 10) [(1,3)] (gasCert 1 4 [1,2]) = .ok s ∧
        s.scheduled = [(gasCert 1 4 [1,2],3)] := by decide +kernel
  have hr := reached_afterFirst (by unfold DistinctInputs; decide) hrn
  obtain ⟨-,ha⟩ := schedules_exact (gasParams true 10) [(1,3)] (by decide) (.inl rfl)
  obtain ⟨hex,-,hn⟩ := ha s hr
  obtain ⟨result,s',hat,he⟩ := hn ⟨gasCert 2 3 [2],∅,0⟩ (by unfold DistinctInputs; decide)
  exact ⟨s,hr,hs,hex,result,s',hat,he rfl 10 rfl nofun⟩

/-- Without minimum free slots and with the greatest limit: a slot up to the last time leaves a
short last slot, which the next certificate is believed to fit into. -/
theorem last_slot_overrun_panics :
    ∃ s, Machine.Reached (Started (gasParams false maxExecutionTime) [(2,5)]) CommitSchedule.step
        (fun _ request => request.cert.DistinctInputs) s ∧
      (gasCert 2 10 [1]).DistinctInputs ∧
      s.attempt ⟨gasCert 2 10 [1],∅,0⟩ = .error .panic := by
  obtain ⟨s,hrn,hs⟩ : ∃ s, afterFirst (gasParams false maxExecutionTime) [(2,5)]
        (gasCert 1 (maxExecutionTime - 5) [1,2]) = .ok s ∧
      s.attempt ⟨gasCert 2 10 [1],∅,0⟩ = .error .panic := by decide +kernel
  have hr := reached_afterFirst (by unfold DistinctInputs; decide) hrn
  exact ⟨s,hr,by unfold DistinctInputs; decide,hs⟩

end Runs
end Iota.Authority
