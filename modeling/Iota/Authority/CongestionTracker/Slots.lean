import Iota.Authority.CongestionTracker

/-! The free slots as a set of times: what cutting a slot out of them leaves, and where a duration
fits. -/
namespace Iota.Authority
open ExecutionSlot List
variable {slots : List ExecutionSlot} {object object' : ObjectExecutionSlots}

theorem Separated.cases (hs : Separated slots) {a b : ExecutionSlot} (ha : a ∈ slots)
    (hb : b ∈ slots) : a = b ∨ a.endTime < b.startTime ∨ b.endTime < a.startTime := by
  induction slots with
  | nil => cases ha
  | cons slot rest ih =>
    obtain ⟨hf,hr⟩ := pairwise_cons.mp hs
    rcases mem_cons.mp ha with ha | ha <;> rcases mem_cons.mp hb with hb | hb
    · exact .inl (ha.trans hb.symm)
    · exact .inr (.inl (ha ▸ hf b hb))
    · exact .inr (.inr (hb ▸ hf a ha))
    · exact ih hr ha hb

def Fits (slots : List ExecutionSlot) (d t : Nat) : Prop :=
  ∃ slot ∈ slots, slot.startTime ≤ t ∧ t + d ≤ slot.endTime

namespace ObjectExecutionSlots

def Free (object : ObjectExecutionSlots) (t : Nat) : Prop :=
  ∃ slot ∈ object.slots, slot.startTime ≤ t ∧ t < slot.endTime

theorem free_new {t : Nat} : new.Free t ↔ t < maxExecutionTime := by
  simp [Free,new,maxDurationSlot]

theorem fits_iff_free {d t : Nat} (hd : 0 < d) :
    Fits object.slots d t ↔ ∀ u, t ≤ u → u < t + d → object.Free u := by
  constructor
  · rintro ⟨slot,hs,hst,he⟩ u hu hlt
    exact ⟨slot,hs,by omega,by omega⟩
  intro h
  obtain ⟨slot,hs,hst,he⟩ := h t le_rfl (by omega)
  refine ⟨slot,hs,hst,?_⟩
  by_contra hover
  -- the first time after the slot would be free in another slot
  obtain ⟨other,ho,hs',he'⟩ := h slot.endTime he.le (by omega)
  rcases object.separated.cases hs ho with rfl | hlt | hlt <;> omega

theorem searchOrdered_contains (hs : Separated slots) (slot : ExecutionSlot) :
    slots.SearchOrdered (·.contains slot) := by
  refine hs.imp fun {a b} hab => ?_
  have ha := a.valid
  have hb := b.valid
  simp only [ExecutionSlot.contains]
  constructor <;> intro h <;> split_ifs at h ⊢ <;> first | rfl | omega

theorem exists_remove {slot : ExecutionSlot}
    (h : Fits object.slots (slot.endTime - slot.startTime) slot.startTime) :
    ∃ object', object.remove slot = .ok object' := by
  obtain ⟨free,hf,hs,he⟩ := h
  have hc : free.contains slot = .eq := contains_eq_iff.mpr ⟨hs,by omega⟩
  obtain ⟨i,hi⟩ := (searchOrdered_contains object.separated slot).binarySearchBy_isSome hf hc
  unfold remove
  split
  · next hn => rw [hi] at hn; cases hn
  · exact ⟨_,rfl⟩

theorem free_remove {slot : ExecutionSlot} (h : object.remove slot = .ok object') {t : Nat} :
    object'.Free t ↔ object.Free t ∧ ¬ (slot.startTime ≤ t ∧ t < slot.endTime) := by
  unfold remove at h
  split at h
  · cases h
  · next i hsr =>
    cases h
    obtain ⟨free,hf,hcn⟩ := List.getElem?_of_binarySearchBy hsr
    obtain ⟨hl,hh⟩ := contains_eq_iff.mp hcn
    have hm := mem_of_getElem? hf
    have hv := slot.valid
    obtain ⟨hi,hg⟩ := List.getElem?_eq_some_iff.mp hf
    have hsl : object.slots.take i ++ free :: object.slots.drop (i+1) = object.slots := by
      rw [← hg,← drop_eq_getElem_cons hi,take_append_drop]
    have hsp := object.separated
    unfold Separated at hsp
    rw [← hsl,pairwise_append,pairwise_cons] at hsp
    obtain ⟨-,⟨hn,-⟩,hcr⟩ := hsp
    have hb : ∀ a ∈ object.slots.take i, a.endTime < free.startTime :=
      fun a ha => hcr a ha free mem_cons_self
    have hc : ∀ r, r ∈ cutAt object.slots slot i ↔
        r ∈ object.slots.take i ∨ r ∈ free.remainders slot ∨ r ∈ object.slots.drop (i+1) := by
      intro r
      simp only [cutAt,hf,Option.toList_some,flatMap_singleton,mem_append]
    constructor
    · rintro ⟨r,hr,hst,hen⟩
      rcases (hc r).mp hr with hr | hr | hr
      · have hlt := hb r hr
        exact ⟨⟨r,mem_of_mem_take hr,hst,hen⟩,by omega⟩
      · rcases mem_remainders.mp hr with ⟨hs,he⟩ | ⟨hs,he⟩
        · exact ⟨⟨free,hm,by omega,by omega⟩,by omega⟩
        · exact ⟨⟨free,hm,by omega,by omega⟩,by omega⟩
      · have hlt := hn r hr
        exact ⟨⟨r,mem_of_mem_drop hr,hst,hen⟩,by omega⟩
    · rintro ⟨⟨r,hr,hst,hen⟩,ho⟩
      rw [← hsl,mem_append,mem_cons] at hr
      rcases hr with hr | rfl | hr
      · exact ⟨r,(hc r).mpr (.inl hr),hst,hen⟩
      · -- the time lies before or after the slot, in what remains there
        by_cases hlt : t < slot.startTime
        · refine ⟨⟨r.startTime,slot.startTime,by omega,hv.le.trans slot.bounded⟩,?_,?_⟩
          · exact (hc _).mpr (.inr (.inl (mem_remainders.mpr (.inl ⟨rfl,rfl⟩))))
          · exact ⟨hst,hlt⟩
        refine ⟨⟨slot.endTime,r.endTime,by omega,r.bounded⟩,?_,?_⟩
        · exact (hc _).mpr (.inr (.inl (mem_remainders.mpr (.inr ⟨rfl,rfl⟩))))
        · exact ⟨by dsimp only; omega,hen⟩
      · exact ⟨r,(hc r).mpr (.inr (.inr hr)),hst,hen⟩

theorem Separated.le_last (hs : Separated slots) {last slot : ExecutionSlot}
    (hl : slots.getLast? = some last) (hsl : slot ∈ slots) :
    slot = last ∨ slot.endTime < last.startTime := by
  obtain ⟨front,rfl⟩ := List.getLast?_eq_some_iff.mp hl
  rcases mem_append.mp hsl with hf | he
  · exact .inr ((pairwise_append.mp hs).2.2 slot hf last mem_cons_self)
  · exact .inl (mem_singleton.mp he)

theorem fits_of_maxObjectFreeSlotStartTime {d start t : Nat}
    (h : object.maxObjectFreeSlotStartTime d = some start)
    (ho : object.Free (maxExecutionTime - 1)) (ht : start ≤ t)
    (he : t + d ≤ maxExecutionTime) : Fits object.slots d t := by
  unfold maxObjectFreeSlotStartTime at h
  split at h
  · next last hl =>
    split at h
    · cases h
      obtain ⟨slot,hs,-,hov⟩ := ho
      refine ⟨last,mem_of_getLast? hl,ht,?_⟩
      rcases Separated.le_last object.separated hl hs with rfl | hlt <;> omega
    · cases h
  · cases h

theorem exists_free {d start : Nat} (h : object.maxObjectFreeSlotStartTime d = some start) :
    ∃ t, object.Free t := by
  unfold maxObjectFreeSlotStartTime at h
  split at h
  · next last hl =>
    exact ⟨last.startTime,last,mem_of_getLast? hl,le_rfl,last.valid⟩
  · cases h

end ObjectExecutionSlots
end Iota.Authority
