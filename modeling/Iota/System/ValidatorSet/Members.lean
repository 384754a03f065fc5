import Iota.System.ValidatorSet.Places

/-! What an epoch change does to the active validators: the pending ones join, those who asked for
it and those with little stake leave. The only thing that can fail is the subtraction of the stake
of a leaving committee member from the total stake. -/
namespace Iota.System
open List Move Validator

def Named (records : ReportRecords) (x : Nat) : Prop :=
  ∃ entry ∈ records.contents, x = entry.1 ∨ x ∈ entry.2.contents

/-- Records while the reports of a leaving validator are taken out: `rest` are the reported
validators still to be looked at. -/
structure Cleaning (records : ReportRecords) (leaving : Nat) (rest : List Nat) (r : ReportRecords) :
    Prop where
  keys : ∀ k ∈ rest, k ∈ r.keys
  nodup : rest.Nodup
  from_records : ∀ b rs, (b,rs) ∈ r.contents → b ≠ leaving ∧
    (b ∈ rest ∨ leaving ∉ rs.contents) ∧
    ∃ old, (b,old) ∈ records.contents ∧ ∀ x ∈ rs.contents, x ∈ old.contents

theorem Cleaning.step {records r : ReportRecords} {leaving k : Nat} {rest : List Nat}
    {errs : Abort Error → Prop} (h : Cleaning records leaving (k :: rest) r) :
    (cleanReporters leaving r k).Satisfies errs (Cleaning records leaving rest) := by
  obtain ⟨hk,hr⟩ := nodup_cons.mp h.nodup
  have hne : ∀ j ∈ rest, j ≠ k := fun j hj heq => hk (heq ▸ hj)
  obtain ⟨reporters,hm⟩ := VecMap.mem_keys.mp (h.keys k mem_cons_self)
  have ho : ∀ b rs, (b,rs) ∈ r.contents → b ≠ k → b ≠ leaving ∧
      (b ∈ rest ∨ leaving ∉ rs.contents) ∧
      ∃ old, (b,old) ∈ records.contents ∧ ∀ x ∈ rs.contents, x ∈ old.contents := by
    intro b rs hb hbk
    obtain ⟨hl,hor,hf⟩ := h.from_records b rs hb
    exact ⟨hl,hor.imp_left fun hb => (mem_cons.mp hb).resolve_left hbk,hf⟩
  refine .bind_ok (VecMap.get_eq_ok.mpr hm) ?_
  split
  · next hc =>
    have hin : leaving ∈ reporters.contents := contains_iff_mem.mp hc
    refine .bind_ok (by rw [VecSet.remove,if_pos hin]) ?_
    split
    · refine (VecMap.remove_eq_ok.mpr ⟨h.keys k mem_cons_self,rfl⟩).symm ▸ ?_
      refine ⟨fun j hj => ?_,hr,fun b rs hb => ?_⟩
      · obtain ⟨rs,hrs⟩ := VecMap.mem_keys.mp (h.keys j (.tail _ hj))
        exact VecMap.mem_keys.mpr ⟨rs,VecMap.mem_erase.mpr ⟨hrs,hne j hj⟩⟩
      · obtain ⟨hb,hbk⟩ := VecMap.mem_erase.mp hb
        exact ho b rs hb hbk
    refine ⟨fun j hj => ?_,hr,fun b rs hb => ?_⟩
    · obtain ⟨rs,hrs⟩ := VecMap.mem_keys.mp (h.keys j (.tail _ hj))
      exact VecMap.mem_keys.mpr ⟨rs,VecMap.mem_replace.mpr (.inl ⟨hrs,hne j hj⟩)⟩
    rcases VecMap.mem_replace.mp hb with ⟨hb,hbk⟩ | ⟨hbk,hrs,-⟩
    · exact ho b rs hb hbk
    simp only at hbk hrs
    subst hbk hrs
    obtain ⟨hl,-,old,hm',hs⟩ := h.from_records b reporters hm
    refine ⟨hl,.inr ?_,old,hm',fun x hx => hs x (mem_of_mem_erase hx)⟩
    simp [reporters.nodup.mem_erase_iff]
  · next hc =>
    refine ⟨fun j hj => h.keys j (.tail _ hj),hr,fun b rs hb => ?_⟩
    by_cases hbk : b = k
    · subst hbk
      obtain rfl := VecMap.value_unique hb hm
      obtain ⟨hl,-,hf⟩ := h.from_records b rs hb
      exact ⟨hl,.inr fun hin => hc (contains_iff_mem.mpr hin),hf⟩
    · exact ho b rs hb hbk

theorem cleanReportRecordsLeavingValidator_satisfies (records : ReportRecords) (leaving : Nat)
    {errs : Abort Error → Prop} :
    (cleanReportRecordsLeavingValidator records leaving).Satisfies errs fun r =>
      ∀ x, Named r x → Named records x ∧ x ≠ leaving := by
  refine .bind_ok VecMap.remove_if_contains ?_
  have hs : Cleaning records leaving (records.erase leaving).keys (records.erase leaving) := by
    refine ⟨fun k hk => hk,(records.erase leaving).nodup,fun b rs hb => ?_⟩
    obtain ⟨hm,hne⟩ := VecMap.mem_erase.mp hb
    exact ⟨hne,.inl (VecMap.mem_keys.mpr ⟨rs,hb⟩),rs,hm,fun _ hx => hx⟩
  refine (foldlM_satisfies (Cleaning records leaving) (fun k rest r h => h.step) hs).mono ?_
  rintro r hr x ⟨⟨b,rs⟩,hb,hx⟩
  obtain ⟨hne,hor,old,ho,hsb⟩ := hr.from_records b rs hb
  rcases hx with rfl | hx
  · exact ⟨⟨_,ho,.inl rfl⟩,hne⟩
  refine ⟨⟨_,ho,.inr (hsb x hx)⟩,?_⟩
  rintro rfl
  exact (hor.resolve_left not_mem_nil) hx

namespace ValidatorSet

/-- What the departure of a validator takes from the total stake. -/
def cost (committee : List Nat) (v : Validator) : Nat :=
  if committee.contains v.iotaAddress then v.totalStake else 0

/-- The set after the departure of the active validator `v` at an index. -/
def retire (s : ValidatorSet) (i : Nat) (v : Validator) (committee : List Nat) (newEpoch : Nat) :
    ValidatorSet :=
  { s with
    totalStake := s.totalStake - cost committee v
    activeValidators := s.activeValidators.eraseIdx i
    stakingPoolMappings := s.stakingPoolMappings.erase v.stakingPoolId
    inactiveValidators := s.inactiveValidators.insert v.stakingPoolId (v.deactivated newEpoch)
    atRiskValidators := s.atRiskValidators.erase v.iotaAddress }

variable {s s' t : ValidatorSet} {pools i newEpoch : Nat} {v : Validator} {committee : List Nat}
  {records : ReportRecords}

theorem perm_eraseIdx (hv : s.activeValidators[i]? = some v) :
    s.activeValidators.Perm (v :: s.activeValidators.eraseIdx i) := by
  obtain ⟨hi,rfl⟩ := List.getElem?_eq_some_iff.mp hv
  exact (getElem_cons_eraseIdx_perm hi).symm

theorem entries_perm_eraseIdx (hv : s.activeValidators[i]? = some v) :
    s.entries.Perm (v.entry .active :: entriesOf (s.activeValidators.eraseIdx i)
      s.pendingActiveValidators s.validatorCandidates s.inactiveValidators) :=
  entriesOf_active (perm_eraseIdx hv)

theorem WellPlaced.inactive_none (h : WellPlaced pools s) (hv : s.activeValidators[i]? = some v) :
    s.inactiveValidators[v.stakingPoolId]? = none := by
  cases hw : s.inactiveValidators[v.stakingPoolId]? with
  | none => rfl
  | some w =>
    have hid := h.inactive _ _ hw
    have hm : w.entry .inactive ∈ entriesOf (s.activeValidators.eraseIdx i)
        s.pendingActiveValidators s.validatorCandidates s.inactiveValidators :=
      (entriesOf_inactive (Std.ExtTreeMap.toList_perm_cons_erase hw)).mem_iff.mpr mem_cons_self
    exact absurd hid (ne_of_once h.once (entries_perm_eraseIdx hv) _ hm)

theorem WellPlaced.mapping (h : WellPlaced pools s) (hv : s.activeValidators[i]? = some v) :
    s.stakingPoolMappings[v.stakingPoolId]? = some v.iotaAddress := by
  rw [h.mapped]
  exact ⟨v.entry .active,(entries_perm_eraseIdx hv).mem_iff.mpr mem_cons_self,by
    simp [entry],rfl,rfl⟩

theorem WellPlaced.retire (h : WellPlaced pools s) (hr : s.pendingRemovals = [])
    (hv : s.activeValidators[i]? = some v) :
    WellPlaced pools (s.retire i v committee newEpoch) := by
  have hb := entries_perm_eraseIdx hv
  have ha : (s.retire i v committee newEpoch).entries.Perm
      ((v.deactivated newEpoch).entry .inactive :: entriesOf (s.activeValidators.eraseIdx i)
        s.pendingActiveValidators s.validatorCandidates s.inactiveValidators) :=
    entriesOf_inactive (Std.ExtTreeMap.toList_insert_perm (h.inactive_none hv))
  refine ⟨once_of_move h.once hb ha rfl,?_,?_,h.candidate,fun id w hw => ?_,
    h.pending,fun w hw => h.active w (mem_of_mem_eraseIdx hw),?_⟩
  · exact ((h.mapped.perm hb).retire (ne_of_once h.once hb)).perm ha.symm
  · refine h.distinct.sublist (List.Sublist.map _ (List.Sublist.append ?_ (List.Sublist.refl _)))
    exact eraseIdx_sublist _ _
  · simp only [ValidatorSet.retire,Std.ExtTreeMap.getElem?_insert_eq] at hw
    split at hw
    · next heq =>
      cases hw
      exact heq
    · exact h.inactive id w hw
  · simp [ValidatorSet.retire,hr]

theorem removeActiveValidator_satisfies (h : WellPlaced pools s)
    (hv : s.activeValidators[i]? = some v) (records : ReportRecords) (committee : List Nat)
    (newEpoch : Nat) :
    (s.removeActiveValidator i records committee newEpoch).Satisfies
      (fun _ => s.totalStake < cost committee v) fun r =>
        cost committee v ≤ s.totalStake ∧ r.1 = s.retire i v committee newEpoch ∧
        ∀ x, Named r.2 x → Named records x ∧ x ≠ v.iotaAddress := by
  have hm : Table.remove s.stakingPoolMappings v.stakingPoolId =
      .ok (v.iotaAddress,s.stakingPoolMappings.erase v.stakingPoolId) := by
    rw [Table.remove,h.mapping hv]
  have hi : Table.add s.inactiveValidators v.stakingPoolId (v.deactivated newEpoch) =
      .ok (s.inactiveValidators.insert v.stakingPoolId (v.deactivated newEpoch)) := by
    rw [Table.add,if_neg]
    rw [Std.ExtTreeMap.contains_eq_isSome_getElem?,h.inactive_none hv]
    simp
  have ha := h.active v (mem_of_getElem? hv)
  refine .bind_ok (remove_eq_ok.mpr ⟨hv,rfl⟩) (.bind_ok hm (.bind_ok VecMap.remove_if_contains ?_))
  have ht : (if committee.contains v.iotaAddress = true then sub s.totalStake v.totalStake
      else .ok s.totalStake : Tx Nat).Satisfies (fun _ => s.totalStake < cost committee v)
      fun total => cost committee v ≤ s.totalStake ∧ total = s.totalStake - cost committee v := by
    unfold cost sub
    split
    · split
      · exact ⟨‹_›,rfl⟩
      · exact Nat.lt_of_not_le ‹_›
    · exact ⟨Nat.zero_le _,rfl⟩
  refine ht.bind ?_
  rintro _ ⟨hle,rfl⟩
  refine (cleanReportRecordsLeavingValidator_satisfies records v.iotaAddress).bind fun r hr => ?_
  refine .bind_ok (deactivate_ok ha newEpoch) (.bind_ok hi ?_)
  exact ⟨hle,rfl,hr⟩

/-- The stakes of the committee members among the leaving validators are in the total stake. -/
def Fits (committee : List Nat) (leaves : Validator → Bool) (t : ValidatorSet) : Prop :=
  ((t.activeValidators.filter leaves).map (cost committee)).sum ≤ t.totalStake

/-- The stakes do not fit, or an epoch counter of the validators at risk, which are at most `bound`,
is at the end of its range. -/
def Blocked (committee : List Nat) (leaves : Validator → Bool) (t : ValidatorSet) (bound : Nat) :
    Prop :=
  Fits committee leaves t → 2 ^ 64 ≤ bound+1

/-- A set and its report records after the validators `gone` have left `t`. -/
structure Departing (pools : Nat) (committee : List Nat) (leaves : Validator → Bool)
    (t : ValidatorSet) (records : ReportRecords) (gone : List Validator)
    (r : ValidatorSet × ReportRecords) : Prop where
  placed : WellPlaced pools r.1
  removals : r.1.pendingRemovals = []
  pending : r.1.pendingActiveValidators = []
  perm : t.activeValidators.Perm (gone ++ r.1.activeValidators)
  leaving : ∀ v ∈ gone, leaves v = true
  stake : r.1.totalStake + (gone.map (cost committee)).sum = t.totalStake
  named : ∀ x, Named r.2 x → Named records x ∧ x ∉ gone.map iotaAddress

variable {leaves : Validator → Bool} {gone : List Validator} {r : ValidatorSet × ReportRecords}
  {bound : Nat}

theorem not_fits (hp : (gone ++ s.activeValidators).Perm t.activeValidators)
    (hl : ∀ v ∈ gone, leaves v = true)
    (h : t.totalStake < (gone.map (cost committee)).sum) : ¬ Fits committee leaves t := by
  have hf : gone.filter leaves = gone := filter_eq_self.mpr hl
  have hs := ((hp.filter leaves).map (cost committee)).sum_eq
  rw [filter_append,hf,map_append,sum_append] at hs
  unfold Fits
  omega

theorem Departing.depart (h : Departing pools committee leaves t records gone r)
    (hv : r.1.activeValidators[i]? = some v) (hlv : leaves v = true) :
    (r.1.removeActiveValidator i r.2 committee newEpoch).Satisfies
      (fun _ => Blocked committee leaves t bound) fun r' =>
        Departing pools committee leaves t records (v :: gone) r' ∧
        r'.1 = r.1.retire i v committee newEpoch := by
  have hp : (v :: gone ++ r.1.activeValidators.eraseIdx i).Perm t.activeValidators := by
    refine List.Perm.trans ?_ h.perm.symm
    exact perm_middle.symm.trans ((perm_eraseIdx hv).symm.append_left gone)
  have hl : ∀ w ∈ v :: gone, leaves w = true := by
    intro w hw
    rcases mem_cons.mp hw with rfl | hw
    · exact hlv
    · exact h.leaving w hw
  have hs := h.stake
  have hr := removeActiveValidator_satisfies h.placed hv r.2 committee newEpoch
  cases hrn : r.1.removeActiveValidator i r.2 committee newEpoch with
  | error e =>
    refine fun hf => absurd hf (not_fits (s := r.1.retire i v committee newEpoch) hp hl ?_)
    have := hr.of_error hrn
    rw [map_cons,sum_cons]
    omega
  | ok r' =>
    obtain ⟨s',records'⟩ := r'
    obtain ⟨hle,rfl,hn⟩ := hr.of_ok hrn
    refine ⟨⟨h.placed.retire h.removals hv,h.removals,h.pending,hp.symm,hl,?_,?_⟩,rfl⟩
    · simp only [ValidatorSet.retire,map_cons,sum_cons]
      omega
    intro x hx
    obtain ⟨hx,hne⟩ := hn x hx
    obtain ⟨hx,hnt⟩ := h.named x hx
    exact ⟨hx,by simp [hne,hnt]⟩

theorem insertRemoval_perm (cur : Nat) (l : List Nat) : (insertRemoval cur l).Perm (cur :: l) := by
  induction l with
  | nil => exact .refl _
  | cons index rest ih =>
    rw [insertRemoval]
    split
    · exact .refl _
    · exact (ih.cons index).trans (.swap cur index rest)

theorem insertRemoval_sorted {cur : Nat} {l : List Nat} (h : l.Pairwise (· ≤ ·)) :
    (insertRemoval cur l).Pairwise (· ≤ ·) := by
  induction l with
  | nil => exact pairwise_singleton _ _
  | cons index rest ih =>
    obtain ⟨hi,hr⟩ := pairwise_cons.mp h
    rw [insertRemoval]
    split
    · next hlt =>
      refine pairwise_cons.mpr ⟨fun j hj => ?_,h⟩
      rcases mem_cons.mp hj with rfl | hj
      · exact hlt.le
      · exact hlt.le.trans (hi j hj)
    · next hge =>
      refine pairwise_cons.mpr ⟨fun j hj => ?_,ih hr⟩
      rcases mem_cons.mp ((insertRemoval_perm cur rest).mem_iff.mp hj) with rfl | hj
      · exact Nat.le_of_not_lt hge
      · exact hi j hj

theorem sortRemovalList_spec (l : List Nat) :
    (sortRemovalList l).Perm l ∧ (sortRemovalList l).Pairwise (· ≤ ·) := by
  have hf : ∀ (l sorted : List Nat), sorted.Pairwise (· ≤ ·) →
      (l.foldl (fun sorted cur => insertRemoval cur sorted) sorted).Perm (sorted ++ l) ∧
      (l.foldl (fun sorted cur => insertRemoval cur sorted) sorted).Pairwise (· ≤ ·) := by
    intro l
    induction l with
    | nil => exact fun sorted h => ⟨by simp,h⟩
    | cons cur rest ih =>
      intro sorted h
      obtain ⟨hp,hs⟩ := ih (insertRemoval cur sorted) (insertRemoval_sorted h)
      refine ⟨hp.trans ?_,hs⟩
      exact ((insertRemoval_perm cur sorted).append_right rest).trans perm_middle.symm
  exact hf l [] .nil

theorem sortRemovalList_reverse {l : List Nat} (h : l.Nodup) :
    (sortRemovalList l).reverse.Pairwise (· > ·) := by
  obtain ⟨hp,hs⟩ := sortRemovalList_spec l
  rw [pairwise_reverse]
  exact (hs.and (hp.nodup_iff.mpr h)).imp fun ⟨hle,hne⟩ => lt_of_le_of_ne hle hne

theorem eraseIdx_eq_filter {l : List Validator} (hn : (l.map iotaAddress).Nodup)
    (hv : l[i]? = some v) : l.eraseIdx i = l.filter fun w => w.iotaAddress ≠ v.iotaAddress := by
  induction l generalizing i with
  | nil => cases hv
  | cons w l ih =>
    rw [map_cons,nodup_cons] at hn
    have hne : ∀ x ∈ l, x.iotaAddress ≠ w.iotaAddress :=
      fun x hx heq => hn.1 (heq ▸ mem_map_of_mem hx)
    cases i with
    | zero =>
      cases hv
      rw [eraseIdx_cons_zero,filter_cons_of_neg (by simp)]
      exact (filter_eq_self.mpr fun x hx => by simpa using hne x hx).symm
    | succ i =>
      have hm : v ∈ l := mem_of_getElem? hv
      rw [eraseIdx_cons_succ,filter_cons_of_pos (by simpa using (hne v hm).symm),ih hn.2 hv]

def addressesAt (validators : List Validator) (indices : List Nat) : List Nat :=
  indices.filterMap fun i => (validators[i]?).map iotaAddress

theorem mem_addressesAt {validators : List Validator} {indices : List Nat} {a : Nat} :
    a ∈ addressesAt validators indices ↔
      ∃ i ∈ indices, ∃ v, validators[i]? = some v ∧ v.iotaAddress = a := by
  simp [addressesAt,mem_filterMap]

theorem addressesAt_congr {l l' : List Validator}
    (h : l'.map iotaAddress = l.map iotaAddress) (indices : List Nat) :
    addressesAt l' indices = addressesAt l indices := by
  refine filterMap_congr fun i _ => ?_
  rw [← List.getElem?_map,h,List.getElem?_map]

/-- The set and the records with the removals `rest` still to be made. -/
structure Removing (pools : Nat) (committee : List Nat) (leaves : Validator → Bool)
    (t : ValidatorSet) (records : ReportRecords) (rest : List Nat) (gone : List Validator)
    (r : ValidatorSet × ReportRecords) : Prop where
  departing : Departing pools committee leaves t records gone r
  active : r.1.activeValidators =
    t.activeValidators.filter fun v => v.iotaAddress ∉ gone.map iotaAddress
  order : rest.Pairwise (· > ·)
  ahead : ∀ i ∈ rest, i < t.activeValidators.length ∧
    r.1.activeValidators[i]? = t.activeValidators[i]?
  addresses : ∀ a, a ∈ gone.map iotaAddress ∨ a ∈ addressesAt t.activeValidators rest ↔
    a ∈ addressesAt t.activeValidators t.pendingRemovals
  atRisk : ∀ a, a ∉ gone.map iotaAddress →
    r.1.atRiskValidators.find? a = t.atRiskValidators.find? a
  atRisk_subset : ∀ e ∈ r.1.atRiskValidators.contents, e ∈ t.atRiskValidators.contents

theorem Removing.step {rest : List Nat}
    (h : Removing pools committee leaves t records (i :: rest) gone r)
    (hlv : ∀ v ∈ t.activeValidators,
      v.iotaAddress ∈ addressesAt t.activeValidators t.pendingRemovals → leaves v = true) :
    (r.1.removeActiveValidator i r.2 committee newEpoch).Satisfies
      (fun _ => Blocked committee leaves t bound) fun r' =>
        ∃ gone, Removing pools committee leaves t records rest gone r' := by
  obtain ⟨hb,ho⟩ := pairwise_cons.mp h.order
  obtain ⟨hi,hs⟩ := h.ahead i mem_cons_self
  obtain ⟨v,hv⟩ : ∃ v, t.activeValidators[i]? = some v := ⟨_,List.getElem?_eq_getElem hi⟩
  have hc : ∀ a, a ∈ addressesAt t.activeValidators (i :: rest) ↔
      a = v.iotaAddress ∨ a ∈ addressesAt t.activeValidators rest := by
    simp [mem_addressesAt,hv,eq_comm]
  have hl : v.iotaAddress ∈ addressesAt t.activeValidators t.pendingRemovals :=
    (h.addresses _).mp (.inr ((hc _).mpr (.inl rfl)))
  have hrv : r.1.activeValidators[i]? = some v := hs.trans hv
  refine (h.departing.depart hrv (hlv v (mem_of_getElem? hv) hl)).mono ?_
  rintro ⟨_,records'⟩ ⟨hd,rfl⟩
  have hds : (r.1.activeValidators.map iotaAddress).Nodup := by
    have := h.departing.placed.distinct
    rw [h.departing.pending,append_nil] at this
    exact this
  refine ⟨v :: gone,hd,?_,ho,fun j hj => ?_,fun a => ?_,fun a ha => ?_,
    fun e he => h.atRisk_subset e (VecMap.mem_erase.mp he).1⟩
  · change r.1.activeValidators.eraseIdx i = _
    rw [eraseIdx_eq_filter hds hrv,h.active,filter_filter]
    refine filter_congr fun w _ => ?_
    simp
  · obtain ⟨hln,hah⟩ := h.ahead j (.tail _ hj)
    refine ⟨hln,?_⟩
    rw [← hah]
    exact List.getElem?_eraseIdx_of_lt (hb j hj)
  · rw [← h.addresses,hc,map_cons,mem_cons]
    tauto
  · rw [map_cons,mem_cons,not_or] at ha
    exact (VecMap.find?_erase_of_ne ha.1).trans (h.atRisk a ha.2)

theorem processPendingRemovals_satisfies (h : WellPlaced pools t)
    (hp : t.pendingActiveValidators = [])
    (hlv : ∀ v ∈ t.activeValidators,
      v.iotaAddress ∈ addressesAt t.activeValidators t.pendingRemovals → leaves v = true) :
    (t.processPendingRemovals records committee newEpoch).Satisfies
      (fun _ => Blocked committee leaves t bound) fun r =>
        ∃ gone, Removing pools committee leaves t records [] gone r := by
  obtain ⟨hn,hl⟩ := h.removals
  have hm : ∀ i, i ∈ (sortRemovalList t.pendingRemovals).reverse ↔ i ∈ t.pendingRemovals := by
    intro i
    rw [mem_reverse,(sortRemovalList_spec _).1.mem_iff]
  refine foldlM_satisfies
    (fun rest r => ∃ gone, Removing pools committee leaves t records rest gone r) ?_ ?_
  · rintro i rest r ⟨gone,hr⟩
    exact hr.step hlv
  refine ⟨[],⟨⟨h.once,h.mapped,h.distinct,h.candidate,h.inactive,h.pending,h.active,
    nodup_nil,forall_mem_nil _⟩,rfl,hp,.refl _,forall_mem_nil _,rfl,
    fun x hx => ⟨hx,not_mem_nil⟩⟩,?_,
    sortRemovalList_reverse hn,fun i hi => ⟨hl i ((hm i).mp hi),rfl⟩,fun a => ?_,
    fun _ _ => rfl,fun _ he => he⟩
  · simp
  · simp only [map_nil,not_mem_nil,false_or,mem_addressesAt,hm]

/-- The validator leaves because of its stake: it is very low, or it has been low for too long. -/
def lowStakeLeaves (parameters : SystemParameters) (atRisk : VecMap Nat Nat) (v : Validator) : Bool :=
  v.totalStake < parameters.validatorLowStakeThreshold &&
    (v.totalStake < parameters.validatorVeryLowStakeThreshold ||
      parameters.validatorLowStakeGracePeriod < (atRisk.find? v.iotaAddress).getD 0 + 1)

theorem recordAtRisk_satisfies {a : Nat} (ha : ∀ n, s.atRiskValidators.find? a = some n → n ≤ bound)
    (h : ∀ e ∈ s.atRiskValidators.contents, e.2 ≤ bound+1) :
    (s.recordAtRisk a).Satisfies (fun _ => Blocked committee leaves t bound) fun r =>
      ∃ atRiskValidators,
        r = ({ s with atRiskValidators },(s.atRiskValidators.find? a).getD 0 + 1) ∧
        (∀ x, x ≠ a → atRiskValidators.find? x = s.atRiskValidators.find? x) ∧
        ∀ e ∈ atRiskValidators.contents, e.2 ≤ bound+1 := by
  by_cases hm : a ∈ s.atRiskValidators.keys
  · obtain ⟨n,hn⟩ := VecMap.mem_keys.mp hm
    have hle : n ≤ bound := ha n (VecMap.find?_eq_some.mpr hn)
    rw [recordAtRisk,if_pos (VecMap.contains_iff.mpr hm),VecMap.find?_eq_some.mpr hn]
    refine .bind_ok (VecMap.get_eq_ok.mpr hn) ?_
    unfold add
    split
    · refine ⟨s.atRiskValidators.replace a (n+1),rfl,
        fun x => VecMap.find?_replace_of_ne,fun e he => ?_⟩
      rcases VecMap.mem_replace.mp he with ⟨he,-⟩ | ⟨-,heq,-⟩
      · exact h e he
      · omega
    · exact fun _ => by omega
  · rw [recordAtRisk,if_neg (fun hc => hm (VecMap.contains_iff.mp hc)),VecMap.insert,
      dif_neg hm,VecMap.find?_eq_none.mpr hm]
    refine ⟨⟨s.atRiskValidators.contents ++ [(a,1)],VecMap.nodup_append hm⟩,rfl,fun x hx => ?_,
      fun e he => ?_⟩
    · exact VecMap.find?_insert_of_ne rfl hx
    rcases mem_append.mp he with he | he
    · exact h e he
    · cases mem_singleton.mp he
      exact Nat.le_add_left 1 bound

theorem Departing.withAtRisk (h : Departing pools committee leaves t records gone r)
    (atRiskValidators : VecMap Nat Nat) :
    Departing pools committee leaves t records gone ({ r.1 with atRiskValidators },r.2) :=
  ⟨⟨h.placed.once,h.placed.mapped,h.placed.distinct,h.placed.candidate,h.placed.inactive,
    h.placed.pending,h.placed.active,h.placed.removals⟩,h.removals,h.pending,h.perm,h.leaving,
    h.stake,h.named⟩

/-- What one round of the loop over the active validators does. -/
structure Checked (pools : Nat) (committee : List Nat) (leaves : Validator → Bool)
    (t : ValidatorSet) (records : ReportRecords) (gone : List Validator) (i : Nat) (v : Validator)
    (bound : Nat) (r r' : ValidatorSet × ReportRecords) : Prop where
  departing : Departing pools committee leaves t records
    (if leaves v then v :: gone else gone) r'
  active : r'.1.activeValidators =
    if leaves v then r.1.activeValidators.eraseIdx i else r.1.activeValidators
  atRisk : ∀ a, a ≠ v.iotaAddress → r'.1.atRiskValidators.find? a = r.1.atRiskValidators.find? a
  bound : ∀ e ∈ r'.1.atRiskValidators.contents, e.2 ≤ bound+1

theorem Departing.leave (h : Departing pools committee leaves t records gone r)
    (hv : r.1.activeValidators[i]? = some v) (hl : leaves v = true)
    (hb : ∀ e ∈ r.1.atRiskValidators.contents, e.2 ≤ bound+1) :
    (r.1.removeActiveValidator i r.2 committee newEpoch).Satisfies
      (fun _ => Blocked committee leaves t bound)
      (Checked pools committee leaves t records gone i v bound r) := by
  refine (h.depart hv hl).mono ?_
  rintro ⟨_,records'⟩ ⟨hd,rfl⟩
  refine ⟨by rwa [if_pos hl],by rw [if_pos hl]; rfl,fun a ha => ?_,fun e he => ?_⟩
  · exact VecMap.find?_erase_of_ne ha
  · exact hb e (VecMap.mem_erase.mp he).1

variable {parameters : SystemParameters}

theorem processLowStake_satisfies
    (h : Departing pools committee leaves t records gone r) (hv : r.1.activeValidators[i]? = some v)
    (hl : leaves v = lowStakeLeaves parameters r.1.atRiskValidators v)
    (hr : ∀ n, r.1.atRiskValidators.find? v.iotaAddress = some n → n ≤ bound)
    (hb : ∀ e ∈ r.1.atRiskValidators.contents, e.2 ≤ bound+1) :
    (r.1.processLowStake parameters committee newEpoch r.2 i).Satisfies
      (fun _ => Blocked committee leaves t bound)
      (Checked pools committee leaves t records gone i v bound r) := by
  refine .bind_ok (get_eq_ok.mpr hv) ?_
  have hst {atRiskValidators : VecMap Nat Nat} (hf : leaves v = false)
      (hs : ∀ a, a ≠ v.iotaAddress → atRiskValidators.find? a = r.1.atRiskValidators.find? a)
      (hb : ∀ e ∈ atRiskValidators.contents, e.2 ≤ bound+1) :
      Checked pools committee leaves t records gone i v bound r
        ({ r.1 with atRiskValidators },r.2) := by
    refine ⟨?_,?_,hs,hb⟩
    · rw [hf]
      exact h.withAtRisk _
    · rw [hf]
      rfl
  simp only [lowStakeLeaves] at hl
  dsimp only
  split
  · next hlw =>
    refine .bind_ok VecMap.remove_if_contains (hst ?_ (fun a => VecMap.find?_erase_of_ne)
      fun e he => hb e (VecMap.mem_erase.mp he).1)
    rw [hl,decide_eq_false (Nat.not_lt.mpr hlw),Bool.false_and]
  · next hlw =>
    rw [decide_eq_true (Nat.lt_of_not_le hlw),Bool.true_and] at hl
    split
    · next hvr =>
      rw [decide_eq_false (Nat.not_lt.mpr hvr),Bool.false_or] at hl
      refine (recordAtRisk_satisfies hr hb).bind ?_
      rintro _ ⟨atRiskValidators,rfl,hs,hb'⟩
      split
      · next hg =>
        refine ((h.withAtRisk atRiskValidators).leave hv (hl.trans (decide_eq_true hg))
          hb').mono fun r' hr' => ?_
        exact ⟨hr'.departing,hr'.active,fun a ha => (hr'.atRisk a ha).trans (hs a ha),hr'.bound⟩
      · next hg => exact hst (hl.trans (decide_eq_false hg)) hs hb'
    · next hvr =>
      rw [decide_eq_true (Nat.lt_of_not_le hvr),Bool.true_or] at hl
      exact h.leave hv hl hb

/-- The set and the records while the first `k` of the validators `l` are still to be checked. -/
structure Checking (pools : Nat) (committee : List Nat) (leaves : Validator → Bool)
    (t : ValidatorSet) (records : ReportRecords) (l : List Validator) (bound k : Nat)
    (r : ValidatorSet × ReportRecords) : Prop where
  departing : ∃ gone, Departing pools committee leaves t records gone r
  length : k ≤ l.length
  active : r.1.activeValidators = l.take k ++ (l.drop k).filter fun v => !leaves v
  ahead : ∀ v ∈ l.take k,
    r.1.atRiskValidators.find? v.iotaAddress = t.atRiskValidators.find? v.iotaAddress
  bound : ∀ e ∈ r.1.atRiskValidators.contents, e.2 ≤ bound+1

theorem Checking.step {l : List Validator} {k : Nat}
    (h : Checking pools committee leaves t records l bound (k+1) r)
    (hnd : (l.map iotaAddress).Nodup)
    (hlv : ∀ v ∈ l, leaves v = lowStakeLeaves parameters t.atRiskValidators v)
    (hr : ∀ e ∈ t.atRiskValidators.contents, e.2 ≤ bound) :
    (r.1.processLowStake parameters committee newEpoch r.2 k).Satisfies
      (fun _ => Blocked committee leaves t bound)
      (Checking pools committee leaves t records l bound k) := by
  obtain ⟨gone,hdp⟩ := h.departing
  obtain ⟨v,hv⟩ : ∃ v, l[k]? = some v := ⟨_,List.getElem?_eq_getElem h.length⟩
  obtain ⟨hk,hg⟩ := List.getElem?_eq_some_iff.mp hv
  have ht : l.take (k+1) = l.take k ++ [v] := by
    rw [take_add_one,hv]
    rfl
  have hd : l.drop k = v :: l.drop (k+1) := by
    rw [drop_eq_getElem_cons hk,hg]
  have hl : (l.take k).length = k := length_take_of_le hk.le
  have ha : r.1.activeValidators =
      l.take k ++ v :: (l.drop (k+1)).filter fun v => !leaves v := by
    rw [h.active,ht,append_assoc]
    rfl
  have hrv : r.1.activeValidators[k]? = some v := by
    rw [ha,List.getElem?_append_right hl.le,hl,Nat.sub_self]
    rfl
  have hvr := h.ahead v (by simp [ht])
  have hm : v ∈ l := mem_of_getElem? hv
  have hlw : leaves v = lowStakeLeaves parameters r.1.atRiskValidators v := by
    rw [hlv v hm,lowStakeLeaves,lowStakeLeaves,hvr]
  have hc : ∀ n, r.1.atRiskValidators.find? v.iotaAddress = some n → n ≤ bound := by
    intro n hn
    rw [hvr] at hn
    exact hr _ (VecMap.find?_eq_some.mp hn)
  refine (processLowStake_satisfies hdp hrv hlw hc h.bound).mono fun r' hr' =>
    ⟨⟨_,hr'.departing⟩,hk.le,?_,fun w hw => ?_,hr'.bound⟩
  · rw [hr'.active,ha,hd]
    cases hv : leaves v with
    | true =>
      rw [if_pos rfl,eraseIdx_append_of_length_le hl.le,hl,Nat.sub_self]
      simp [hv]
    | false => simp [hv]
  have hne : w.iotaAddress ≠ v.iotaAddress := by
    have hs : ((l.take k ++ v :: l.drop (k+1)).map iotaAddress).Nodup := by
      rwa [← hd,take_append_drop]
    rw [map_append,map_cons,nodup_append] at hs
    exact hs.2.2 _ (mem_map_of_mem hw) _ mem_cons_self
  rw [hr'.atRisk _ hne]
  exact h.ahead w (by simp [ht,hw])

theorem updateAndProcessLowStakeDepartures_satisfies
    (h : Removing pools committee leaves t records [] gone r)
    (hl : ∀ v ∈ r.1.activeValidators,
      leaves v = lowStakeLeaves parameters t.atRiskValidators v)
    (hrs : ∀ e ∈ t.atRiskValidators.contents, e.2 ≤ bound) :
    (r.1.updateAndProcessLowStakeDepartures parameters r.2 committee newEpoch).Satisfies
      (fun _ => Blocked committee leaves t bound)
      (Checking pools committee leaves t records r.1.activeValidators bound 0) := by
  have hnd : (r.1.activeValidators.map iotaAddress).Nodup := by
    have := h.departing.placed.distinct
    rwa [h.departing.pending,append_nil] at this
  have hs : Checking pools committee leaves t records r.1.activeValidators bound
      r.1.activeValidators.length r := by
    refine ⟨⟨gone,h.departing⟩,Nat.le_refl _,by simp,fun v hv => ?_,fun e he => ?_⟩
    · rw [take_length,h.active,mem_filter] at hv
      exact h.atRisk _ (by simpa using hv.2)
    · exact (hrs e (h.atRisk_subset e he)).trans (Nat.le_succ _)
  refine (foldlM_satisfies (fun rest r' => ∃ k, rest = (List.range k).reverse ∧
    Checking pools committee leaves t records r.1.activeValidators bound k r') ?_
    ⟨_,rfl,hs⟩).mono ?_
  · rintro i rest r' ⟨k,hr,hr'⟩
    cases k with
    | zero => simp at hr
    | succ k =>
      rw [range_succ,reverse_append] at hr
      obtain ⟨rfl,rfl⟩ := List.cons.inj hr
      exact (hr'.step hnd hl hrs).mono fun _ hn => ⟨i,rfl,hn⟩
  rintro r' ⟨k,hr,hr'⟩
  cases k with
  | zero => exact hr'
  | succ k => simp [range_succ] at hr

/-- The set after the pending validators have joined, those who asked last first. -/
def join (t : ValidatorSet) (newEpoch : Nat) : ValidatorSet :=
  { t with
    activeValidators := t.activeValidators ++
      t.pendingActiveValidators.reverse.map fun v => v.activated newEpoch
    pendingActiveValidators := [] }

@[simp] theorem join_pendingRemovals : (t.join newEpoch).pendingRemovals = t.pendingRemovals := rfl

theorem processPendingValidators_ok (h : ∀ v ∈ t.pendingActiveValidators, v.IsNew) :
    t.processPendingValidators newEpoch = .ok (t.join newEpoch) := by
  have hf : ∀ (l active : List Validator), (∀ v ∈ l, v.IsNew) →
      l.foldlM (fun active validator => do
        let validator ← validator.activate newEpoch
        .ok (active ++ [validator])) active =
      (.ok (active ++ l.map fun v => v.activated newEpoch) : Tx (List Validator)) := by
    intro l
    induction l with
    | nil => exact fun active _ => by simp; rfl
    | cons v l ih =>
      intro active hn
      rw [foldlM_cons,(hn v mem_cons_self).activate,Except.ok_bind,Except.ok_bind,
        ih _ fun w hw => hn w (.tail _ hw),map_cons,append_assoc]
      rfl
  rw [processPendingValidators,hf _ _ fun v hv => h v (mem_reverse.mp hv)]
  rfl

theorem WellPlaced.join (h : WellPlaced pools t) : WellPlaced pools (t.join newEpoch) := by
  have hk : ((t.join newEpoch).entries.map Entry.key).Perm (t.entries.map Entry.key) := by
    simp only [ValidatorSet.join,entries,entriesOf,map_append,map_map,map_nil,
      nil_append,append_assoc]
    refine List.Perm.append_left _ (List.Perm.append_right _ ?_)
    exact (reverse_perm _).map (Entry.key ∘ entry .pending)
  have ha : ((t.join newEpoch).activeValidators.map iotaAddress).Perm
      ((t.activeValidators ++ t.pendingActiveValidators).map iotaAddress) := by
    simp only [ValidatorSet.join,map_append,map_map]
    exact List.Perm.append_left _ ((reverse_perm _).map iotaAddress)
  refine ⟨?_,fun poolId address => ?_,?_,h.candidate,h.inactive,forall_mem_nil _,
    fun v hv => ?_,h.removals.1,fun i hi => ?_⟩
  · have hid := hk.map Prod.fst
    rw [map_map,map_map] at hid
    exact hid.trans h.once
  · rw [show (t.join newEpoch).stakingPoolMappings = t.stakingPoolMappings from rfl,h.mapped]
    exact ⟨.of_keys hk.symm,.of_keys hk⟩
  · rw [show (t.join newEpoch).pendingActiveValidators = [] from rfl,append_nil]
    exact ha.nodup_iff.mpr h.distinct
  · rcases mem_append.mp hv with hv | hv
    · exact h.active v hv
    · obtain ⟨w,hw,rfl⟩ := mem_map.mp hv
      exact (h.pending w (mem_reverse.mp hw)).deactivation
  have := h.removals.2 i hi
  simp only [ValidatorSet.join,length_append]
  omega

/-- The validator leaves at the next epoch change: it asked for it, or its stake is low. -/
def leavesNext (parameters : SystemParameters) (t : ValidatorSet) (v : Validator) : Bool :=
  (addressesAt t.activeValidators t.pendingRemovals).contains v.iotaAddress ||
    lowStakeLeaves parameters t.atRiskValidators v

theorem addressesAt_join (h : WellPlaced pools t) :
    addressesAt (t.join newEpoch).activeValidators t.pendingRemovals =
      addressesAt t.activeValidators t.pendingRemovals := by
  refine filterMap_congr fun i hi => ?_
  rw [ValidatorSet.join,List.getElem?_append_left (h.removals.2 i hi)]

theorem changeMembers_satisfies (parameters : SystemParameters) (records : ReportRecords)
    (committee : List Nat) (newEpoch : Nat) (h : WellPlaced pools t)
    (hrs : ∀ e ∈ t.atRiskValidators.contents, e.2 ≤ bound) :
    (t.changeMembers parameters records committee newEpoch).Satisfies
      (fun _ => Blocked committee (leavesNext parameters t) (t.join newEpoch) bound) fun r =>
      (∃ gone, Departing pools committee (leavesNext parameters t) (t.join newEpoch) records gone r) ∧
      r.1.activeValidators =
        (t.join newEpoch).activeValidators.filter (fun v => !leavesNext parameters t v) ∧
      ∀ e ∈ r.1.atRiskValidators.contents, e.2 ≤ bound+1 := by
  refine .bind_ok (processPendingValidators_ok h.pending) ?_
  have hj : WellPlaced pools (t.join newEpoch) := h.join
  have had : ∀ v ∈ (t.join newEpoch).activeValidators,
      v.iotaAddress ∈ addressesAt (t.join newEpoch).activeValidators
        (t.join newEpoch).pendingRemovals → leavesNext parameters t v = true := by
    intro v _ hv
    rw [join_pendingRemovals,addressesAt_join h] at hv
    simp [leavesNext,hv]
  refine (processPendingRemovals_satisfies hj rfl had).bind ?_
  rintro ⟨s,records'⟩ ⟨gone,hr⟩
  have hl : ∀ a, a ∈ gone.map iotaAddress ↔
      a ∈ addressesAt t.activeValidators t.pendingRemovals := by
    intro a
    have := hr.addresses a
    rw [join_pendingRemovals,addressesAt_join h] at this
    simpa [addressesAt] using this
  have hlv : ∀ v ∈ s.activeValidators,
      leavesNext parameters t v = lowStakeLeaves parameters t.atRiskValidators v := by
    intro v hv
    rw [hr.active,mem_filter,decide_eq_true_eq,hl] at hv
    simp [leavesNext,hv.2]
  refine (updateAndProcessLowStakeDepartures_satisfies hr hlv hrs).mono fun r' hr' =>
    ⟨hr'.departing,?_,hr'.bound⟩
  have ha := hr'.active
  rw [take_zero,nil_append,drop_zero,hr.active,filter_filter] at ha
  rw [ha]
  refine filter_congr fun v _ => ?_
  simp only [hl,leavesNext]
  by_cases hv : v.iotaAddress ∈ addressesAt t.activeValidators t.pendingRemovals <;> simp [hv]

theorem changeMembers_ok_iff (h : WellPlaced pools t)
    (hlt : bound+1 < 2 ^ 64) (hrs : ∀ e ∈ t.atRiskValidators.contents, e.2 ≤ bound) :
    (∃ r, t.changeMembers parameters records committee newEpoch = .ok r) ↔
      Fits committee (leavesNext parameters t) (t.join newEpoch) := by
  have hc := changeMembers_satisfies parameters records committee newEpoch h hrs
  constructor
  · rintro ⟨r,hr⟩
    obtain ⟨⟨gone,hd⟩,ha,-⟩ := hc.of_ok hr
    have hp := hd.perm.filter (leavesNext parameters t)
    rw [ha,filter_append,filter_eq_self.mpr hd.leaving,filter_filter] at hp
    simp only [Bool.and_not_self,filter_false,append_nil] at hp
    have hsm := (hp.map (cost committee)).sum_eq
    have hs := hd.stake
    unfold Fits
    omega
  · intro hf
    cases hrn : t.changeMembers parameters records committee newEpoch with
    | ok r => exact ⟨r,rfl⟩
    | error e => exact absurd (hc.of_error hrn hf) (Nat.not_le.mpr hlt)

end ValidatorSet
end Iota.System
