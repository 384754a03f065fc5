import Iota.Authority.CongestionTracker.Slots

/-! What the tracker finds for the shared inputs of a certificate: the least start at which a
duration fits on all of them, or the start of their last free slots, or the inputs to blame. -/
namespace Iota.Authority
open Except ExecutionSlot List
open Std (ExtTreeMap)

theorem ExecutionSlot.intersection_eq_some {slot lookup both : ExecutionSlot}
    (h : slot.intersection lookup = some both) :
    both.startTime = max slot.startTime lookup.startTime ∧
      both.endTime = min slot.endTime lookup.endTime := by
  unfold intersection at h
  split at h
  · rw [← Option.some.inj h]
    exact ⟨rfl,rfl⟩
  · cases h

theorem ExecutionSlot.exists_intersection {slot lookup : ExecutionSlot}
    (h : max slot.startTime lookup.startTime < min slot.endTime lookup.endTime) :
    ∃ both, slot.intersection lookup = some both := by
  unfold intersection
  rw [dif_pos h]
  exact ⟨_,rfl⟩

namespace SharedObjectCongestionTracker
variable {tracker tracker' : SharedObjectCongestionTracker} {d : Nat}
  {objects : List SharedInputObject}

def Ready (tracker : SharedObjectCongestionTracker) (objects : List SharedInputObject) : Prop :=
  ∀ obj ∈ objects, ∃ object, tracker.objectExecutionSlots[obj.id]? = some object

/-- A duration that starts at `t` fits on all shared inputs. -/
def Room (tracker : SharedObjectCongestionTracker) (d : Nat) (objects : List SharedInputObject)
    (t : Nat) : Prop :=
  ∀ obj ∈ objects, ∀ object, tracker.objectExecutionSlots[obj.id]? = some object →
    Fits object.slots d t

theorem slotsOf_ok {id : ObjectID} {object : ObjectExecutionSlots}
    (h : tracker.objectExecutionSlots[id]? = some object) : tracker.slotsOf id = .ok object := by
  unfold slotsOf
  rw [h]

theorem pairwise_intersections (object : ObjectExecutionSlots) (lookup : ExecutionSlot) :
    Separated (object.slots.filterMap (·.intersection lookup)) := by
  refine object.separated.filterMap _ fun {a a'} hlt both hb both' hb' => ?_
  have ha := intersection_eq_some hb
  have ha' := intersection_eq_some hb'
  omega

variable {object : ObjectExecutionSlots}

theorem fits_intersections (hd : 0 < d) {lookup : ExecutionSlot}
    {t : Nat} : (∃ slot ∈ object.slots.filterMap (·.intersection lookup),
        slot.startTime ≤ t ∧ t + d ≤ slot.endTime) ↔
      lookup.startTime ≤ t ∧ t + d ≤ lookup.endTime ∧ Fits object.slots d t := by
  constructor
  · rintro ⟨both,hbt,hst,he⟩
    obtain ⟨slot,hs,hc⟩ := mem_filterMap.mp hbt
    have hb := intersection_eq_some hc
    exact ⟨by omega,by omega,slot,hs,by omega,by omega⟩
  rintro ⟨hl,hh,slot,hs,hst,he⟩
  have hc : max slot.startTime lookup.startTime < min slot.endTime lookup.endTime := by omega
  obtain ⟨both,hbt⟩ := exists_intersection hc
  have hb := intersection_eq_some hbt
  exact ⟨both,mem_filterMap.mpr ⟨slot,hs,hbt⟩,by omega,by omega⟩

variable {obj : SharedInputObject}

theorem room_cons {t : Nat} (ho : tracker.objectExecutionSlots[obj.id]? = some object) :
    tracker.Room d (obj :: objects) t ↔ Fits object.slots d t ∧ tracker.Room d objects t := by
  unfold Room
  rw [forall_mem_cons,ho]
  simp

theorem computeMinFreeExecutionSlot_firstIn (hd : 0 < d) :
    ∀ {objects : List SharedInputObject}, objects ≠ [] → tracker.Ready objects →
      ∀ lookup : ExecutionSlot, ∃ r,
        tracker.computeMinFreeExecutionSlot d objects lookup = .ok r ∧
        List.FirstIn {t | lookup.startTime ≤ t ∧ t + d ≤ lookup.endTime ∧
          tracker.Room d objects t} r := by
  intro objects
  induction objects with
  | nil => exact absurd rfl
  | cons obj rest ih =>
    intro _ hrd lookup
    obtain ⟨object,hob⟩ := hrd obj mem_cons_self
    have hrs : tracker.Ready rest := fun o ho => hrd o (.tail _ ho)
    rw [computeMinFreeExecutionSlot,slotsOf_ok hob,ok_bind]
    -- the solutions within one intersection
    let S : ExecutionSlot → Set Nat := fun slot =>
      {t | slot.startTime ≤ t ∧ t + d ≤ slot.endTime ∧ tracker.Room d rest t}
    have hse : {t | lookup.startTime ≤ t ∧ t + d ≤ lookup.endTime ∧
          tracker.Room d (obj :: rest) t} =
        {t | ∃ slot ∈ object.slots.filterMap (·.intersection lookup), t ∈ S slot} := by
      ext t
      rw [Set.mem_ofPred_eq,room_cons hob,← and_assoc,← and_assoc,and_assoc (a := _ ≤ t),
        ← fits_intersections hd]
      constructor
      · rintro ⟨⟨slot,hs,hst,he⟩,hr⟩
        exact ⟨slot,hs,hst,he,hr⟩
      · rintro ⟨slot,hs,hst,he,hr⟩
        exact ⟨⟨slot,hs,hst,he⟩,hr⟩
    rw [hse]
    refine exists_findSomeM?_firstIn (fun slot hs => ?_) ?_
    · unfold duration
      split
      · next hsh =>
        refine ⟨none,rfl,?_⟩
        rw [List.FirstIn,Set.eq_empty_iff_forall_notMem]
        rintro t ⟨hst,he,-⟩
        omega
      · next hln =>
        split
        · next hl =>
          rw [List.isEmpty_iff] at hl
          subst hl
          refine ⟨some slot.startTime,rfl,⟨le_rfl,by omega,forall_mem_nil _⟩,?_⟩
          exact fun t ht => ht.1
        · next hm =>
          exact ih (fun hn => hm (isEmpty_iff.mpr hn)) hrs slot
    · refine (pairwise_intersections object lookup).imp fun {a b} hab t ht u hu => ?_
      have h1 := ht.2.1
      have h2 := hu.1
      omega

theorem getElem?_initialized (objects : List SharedInputObject)
    (tracker : SharedObjectCongestionTracker) (id : ObjectID) :
    (tracker.initializeObjectExecutionSlots objects).objectExecutionSlots[id]? =
      if tracker.objectExecutionSlots[id]? = none ∧ id ∈ objects.map SharedInputObject.id then
        some .new
      else tracker.objectExecutionSlots[id]? := by
  unfold initializeObjectExecutionSlots
  generalize tracker.objectExecutionSlots = slots
  induction objects generalizing slots with
  | nil => simp
  | cons obj rest ih =>
    rw [foldl_cons,ih,ExtTreeMap.getElem?_insertIfNew]
    by_cases hid : obj.id = id
    · subst hid
      by_cases hm : obj.id ∈ slots
      · simp [hm]
      · simp [hm]
    · have hc : compare obj.id id ≠ .eq := fun h => hid (Nat.compare_eq_eq.mp h)
      simp [hc,Ne.symm hid]

theorem ready_initialized (tracker : SharedObjectCongestionTracker)
    (objects : List SharedInputObject) :
    (tracker.initializeObjectExecutionSlots objects).Ready objects := by
  intro obj ho
  rw [getElem?_initialized]
  cases h : tracker.objectExecutionSlots[obj.id]? with
  | some object => exact ⟨object,by simp⟩
  | none => exact ⟨.new,by simp [mem_map_of_mem ho]⟩

theorem exists_removeSlot {slot : ExecutionSlot} : ∀ {ids : List ObjectID}
    {tracker : SharedObjectCongestionTracker}, ids.Nodup →
    (∀ id ∈ ids, ∃ object, tracker.objectExecutionSlots[id]? = some object ∧
      Fits object.slots (slot.endTime - slot.startTime) slot.startTime) →
    ∃ tracker', removeSlot slot ids tracker = .ok tracker' ∧
      tracker'.congestionControlParameters = tracker.congestionControlParameters ∧
      ∀ id, if id ∈ ids then ∃ object object', tracker.objectExecutionSlots[id]? = some object ∧
          object.remove slot = .ok object' ∧ tracker'.objectExecutionSlots[id]? = some object'
        else tracker'.objectExecutionSlots[id]? = tracker.objectExecutionSlots[id]? := by
  intro ids
  induction ids with
  | nil => exact fun _ _ => ⟨_,rfl,rfl,fun _ => by simp⟩
  | cons id rest ih =>
    intro tracker hn hf
    obtain ⟨hfr,hrs⟩ := nodup_cons.mp hn
    obtain ⟨object,hob,hft⟩ := hf id mem_cons_self
    obtain ⟨object',hr⟩ := ObjectExecutionSlots.exists_remove hft
    let mid : SharedObjectCongestionTracker :=
      { tracker with objectExecutionSlots := tracker.objectExecutionSlots.insert id object' }
    have hm : ∀ other, other ≠ id →
        mid.objectExecutionSlots[other]? = tracker.objectExecutionSlots[other]? := by
      intro other hne
      rw [ExtTreeMap.getElem?_insert_eq,if_neg hne.symm]
    have hne : ∀ other ∈ rest, other ≠ id := fun other ho heq => hfr (heq ▸ ho)
    obtain ⟨tracker',hok,hp,hl⟩ := @ih mid hrs fun other ho => by
      rw [hm other (hne other ho)]
      exact hf other (.tail _ ho)
    refine ⟨tracker',?_,hp,fun other => ?_⟩
    · rw [removeSlot,slotsOf_ok hob,ok_bind,hr,ok_bind]
      exact hok
    have hot := hl other
    by_cases heq : other = id
    · subst heq
      rw [if_neg hfr] at hot
      rw [if_pos mem_cons_self]
      refine ⟨object,object',hob,hr,hot.trans ?_⟩
      rw [ExtTreeMap.getElem?_insert_eq,if_pos rfl]
    · rw [hm other heq] at hot
      simpa [heq] using hot

theorem objectStartTimes_spec : ∀ {objects : List SharedInputObject}, tracker.Ready objects →
    (∃ starts, tracker.objectStartTimes d objects = .ok (some starts) ∧
      (∀ obj ∈ objects, ∃ object start, tracker.objectExecutionSlots[obj.id]? = some object ∧
        object.maxObjectFreeSlotStartTime d = some start ∧ start ∈ starts) ∧
      ∀ start ∈ starts, ∃ obj ∈ objects, ∃ object,
        tracker.objectExecutionSlots[obj.id]? = some object ∧
        object.maxObjectFreeSlotStartTime d = some start) ∨
    (tracker.objectStartTimes d objects = .ok none ∧
      ∃ obj ∈ objects, ∃ object, tracker.objectExecutionSlots[obj.id]? = some object ∧
        object.maxObjectFreeSlotStartTime d = none) := by
  intro objects
  induction objects with
  | nil => exact fun _ => .inl ⟨[],rfl,forall_mem_nil _,forall_mem_nil _⟩
  | cons obj rest ih =>
    intro hr
    obtain ⟨object,hob⟩ := hr obj mem_cons_self
    rw [objectStartTimes,slotsOf_ok hob,ok_bind]
    cases hst : object.maxObjectFreeSlotStartTime d with
    | none => exact .inr ⟨rfl,obj,mem_cons_self,object,hob,hst⟩
    | some start =>
      rcases ih fun o ho => hr o (.tail _ ho) with
        ⟨starts,hok,ha,hf⟩ | ⟨hok,o,ho,hn⟩
      · refine .inl ⟨start :: starts,by simp [hok],?_,?_⟩
        · refine forall_mem_cons.mpr ⟨⟨object,start,hob,hst,mem_cons_self⟩,fun o ho => ?_⟩
          obtain ⟨other,s,hot,hs,hm⟩ := ha o ho
          exact ⟨other,s,hot,hs,mem_cons_of_mem _ hm⟩
        refine forall_mem_cons.mpr ⟨⟨obj,mem_cons_self,object,hob,hst⟩,fun s hs => ?_⟩
        obtain ⟨o,ho,hot⟩ := hf s hs
        exact ⟨o,mem_cons_of_mem _ ho,hot⟩
      · exact .inr ⟨by simp [hok],o,mem_cons_of_mem _ ho,hn⟩

variable {limit : Nat}

theorem isCongested_ok (ho : tracker.objectExecutionSlots[obj.id]? = some object) :
    tracker.isCongested d limit obj =
      .ok (decide (maxExecutionTime < object.maxObjectOccupiedSlotEndTime + d) ||
        decide (limit < (object.maxObjectOccupiedSlotEndTime + d) % 2 ^ 64)) := by
  rw [isCongested,slotsOf_ok ho]
  rfl

theorem isCongested_of_late (hd : 0 < d) (hob : tracker.objectExecutionSlots[obj.id]? = some object)
    (hl : ∀ start, object.maxObjectFreeSlotStartTime d = some start → limit < start + d) :
    tracker.isCongested d limit obj = .ok true := by
  rw [isCongested_ok hob]
  unfold ObjectExecutionSlots.maxObjectOccupiedSlotEndTime
  unfold ObjectExecutionSlots.maxObjectFreeSlotStartTime at hl ⊢
  cases hls : object.slots.getLast? with
  | none =>
    have ho : maxExecutionTime < maxExecutionTime + d := by omega
    simp [ho]
  | some last =>
    simp only [hls,Nat.zero_le,if_true,Option.getD_some] at hl ⊢
    have hb := last.bounded
    by_cases hf : d ≤ maxExecutionTime - last.startTime
    · have hlt := hl last.startTime (if_pos hf)
      have hm : (last.startTime + d) % 2 ^ 64 = last.startTime + d := by
        refine Nat.mod_eq_of_lt ?_
        unfold maxExecutionTime at hf hb
        omega
      rw [hm,decide_eq_true hlt,Bool.or_true]
    · have ho : maxExecutionTime < last.startTime + d := by omega
      simp [ho]

theorem congestedInputs_spec : ∀ {objects : List SharedInputObject},
    tracker.Ready objects → ∃ ids, tracker.congestedInputs d limit objects = .ok ids ∧
      ∀ obj ∈ objects, tracker.isCongested d limit obj = .ok true → obj.id ∈ ids := by
  intro objects
  induction objects with
  | nil => exact fun _ => ⟨[],rfl,forall_mem_nil _⟩
  | cons obj rest ih =>
    intro hr
    obtain ⟨object,hob⟩ := hr obj mem_cons_self
    obtain ⟨ids,hok,hm⟩ := ih fun o ho => hr o (.tail _ ho)
    rw [congestedInputs,isCongested_ok hob,ok_bind,hok,ok_bind]
    refine ⟨_,rfl,forall_mem_cons.mpr ⟨fun hy => ?_,fun o ho hy => ?_⟩⟩
    · rw [isCongested_ok hob] at hy
      rw [ok.inj hy]
      exact mem_cons_self
    split
    · exact mem_cons_of_mem _ (hm o ho hy)
    · exact hm o ho hy

theorem exists_deferCongested {cert : Certificate}
    (hr : tracker.Ready cert.sharedInputObjects) (hne : cert.sharedInputObjects ≠ [])
    (hc :
      tracker.congestionControlParameters.congestionControlMinFreeExecutionSlot = false →
      ∃ obj ∈ cert.sharedInputObjects, tracker.isCongested d limit obj = .ok true)
    (previous : PreviouslyDeferredTransactions) (commitRound : CommitRound) :
    ∃ key congested, tracker.deferCongested cert previous commitRound d limit =
      .ok (.defer key congested) := by
  have hi : ∃ ids, tracker.congestedObjects cert.sharedInputObjects d limit = .ok ids ∧
      ids ≠ [] := by
    unfold congestedObjects
    split
    · exact ⟨_,rfl,by simpa using hne⟩
    · next hm =>
      obtain ⟨ids,hok,hmm⟩ := @congestedInputs_spec tracker d limit _ hr
      obtain ⟨obj,ho,hy⟩ := hc (Bool.not_eq_true _ ▸ hm)
      exact ⟨ids,hok,ne_nil_of_mem (hmm obj ho hy)⟩
  obtain ⟨ids,hok,hn⟩ := hi
  refine ⟨deferralKey previous commitRound cert,ids,?_⟩
  rw [deferCongested,hok,ok_bind,if_neg]
  simpa using hn

end SharedObjectCongestionTracker
end Iota.Authority
