import Iota.System.ValidatorSet.Frame

/-! A validator with its staking pool is a candidate, pending, active or inactive, and moves from
one place to another. The entries of a set list every pool with the place and the address of its
validator. -/
namespace Iota.System
open Except List Move

inductive Place
  | candidate
  | pending
  | active
  | inactive
deriving DecidableEq, Repr

structure Entry where
  poolId : Nat
  place : Place
  address : Nat
deriving DecidableEq, Repr

def Live (entries : List Entry) (poolId address : Nat) : Prop :=
  ∃ e ∈ entries, e.place ≠ .inactive ∧ e.poolId = poolId ∧ e.address = address

/-- The mappings send the live pools to the addresses of their validators. -/
def Mapped (mappings : Std.ExtTreeMap Nat Nat) (entries : List Entry) : Prop :=
  ∀ poolId address : Nat, mappings[poolId]? = some address ↔ Live entries poolId address

section Registry
variable {mappings : Std.ExtTreeMap Nat Nat} {entries entries' : List Entry} {p q : Place}
  {id a poolId address : Nat}

theorem Live.perm (hp : entries.Perm entries') (h : Live entries poolId address) :
    Live entries' poolId address := by
  obtain ⟨e,he,hr⟩ := h
  exact ⟨e,hp.mem_iff.mp he,hr⟩

theorem live_cons : Live (⟨id,p,a⟩ :: entries) poolId address ↔
    (p ≠ .inactive ∧ id = poolId ∧ a = address) ∨ Live entries poolId address := by
  simp [Live]

def Entry.key (e : Entry) : Nat × Nat × Bool := (e.poolId,e.address,e.place ≠ .inactive)

theorem Live.of_keys
    (h : (entries.map Entry.key).Perm (entries'.map Entry.key)) (hl : Live entries poolId address) :
    Live entries' poolId address := by
  obtain ⟨e,he,hp,rfl,rfl⟩ := hl
  obtain ⟨e',he',hk⟩ := mem_map.mp (h.mem_iff.mp (mem_map_of_mem he))
  simp only [Entry.key,Prod.mk.injEq,decide_eq_decide] at hk
  exact ⟨e',he',hk.2.2.mpr hp,hk.1,hk.2.1⟩

theorem Mapped.perm (h : Mapped mappings entries) (hp : entries.Perm entries') :
    Mapped mappings entries' := fun poolId address =>
  (h poolId address).trans ⟨.perm hp,.perm hp.symm⟩

theorem Mapped.relocate (h : Mapped mappings (⟨id,p,a⟩ :: entries)) (hp : p ≠ .inactive)
    (hq : q ≠ .inactive) : Mapped mappings (⟨id,q,a⟩ :: entries) := by
  intro poolId address
  rw [h,live_cons,live_cons]
  simp [hp,hq]

theorem Mapped.retire (h : Mapped mappings (⟨id,p,a⟩ :: entries))
    (hid : ∀ e ∈ entries, e.poolId ≠ id) :
    Mapped (mappings.erase id) (⟨id,.inactive,a⟩ :: entries) := by
  intro poolId address
  rw [live_cons,Std.ExtTreeMap.getElem?_erase_eq]
  simp only [ne_eq,not_true_eq_false,false_and,false_or]
  split
  · next heq =>
    constructor
    · exact nofun
    · rintro ⟨e,he,-,hp,-⟩
      exact absurd (hp.trans heq.symm) (hid e he)
  · next hne =>
    rw [h,live_cons]
    simp [hne]

theorem Mapped.create (h : Mapped mappings entries) (hid : ∀ e ∈ entries, e.poolId ≠ id)
    (hp : p ≠ .inactive) : Mapped (mappings.insert id a) (⟨id,p,a⟩ :: entries) := by
  intro poolId address
  rw [live_cons,Std.ExtTreeMap.getElem?_insert_eq]
  split
  · next heq =>
    constructor
    · intro hs
      exact .inl ⟨hp,heq,Option.some.inj hs⟩
    rintro (⟨-,-,rfl⟩ | ⟨e,he,-,hpl,-⟩)
    · rfl
    · exact absurd (hpl.trans heq.symm) (hid e he)
  · next hne =>
    rw [h]
    simp [hne]

end Registry
namespace Validator

def entry (place : Place) (v : Validator) : Entry := ⟨v.stakingPoolId,place,v.iotaAddress⟩

structure IsNew (v : Validator) : Prop where
  activation : v.stakingPool.activationEpoch = none
  deactivation : v.stakingPool.deactivationEpoch = none
  rates : v.stakingPool.exchangeRates = ∅

def activated (v : Validator) (epoch : Nat) : Validator :=
  { v with stakingPool := { v.stakingPool with
      exchangeRates := v.stakingPool.exchangeRates.insert epoch PoolTokenExchangeRate.initial
      activationEpoch := some epoch } }

def deactivated (v : Validator) (epoch : Nat) : Validator :=
  { v with stakingPool := { v.stakingPool with deactivationEpoch := some epoch } }

variable {v v' : Validator} {epoch : Nat}

theorem activate_eq_ok (h : v.activate epoch = .ok v') : v' = v.activated epoch := by
  unfold activate StakingPool.activateStakingPool StakingPool.addExchangeRate at h
  obtain ⟨_,hp,h⟩ := of_bind h
  simp only [bind_eq_ok] at hp
  obtain ⟨_,hr,_,-,_,-,hp⟩ := hp
  cases hp
  cases h
  split at hr
  · cases hr
  · cases hr
    rfl

theorem IsNew.activate (h : v.IsNew) (epoch : Nat) : v.activate epoch = .ok (v.activated epoch) := by
  obtain ⟨ha,hd,hr⟩ := h
  simp [Validator.activate,StakingPool.activateStakingPool,StakingPool.addExchangeRate,hr,
    StakingPool.isPreactive,StakingPool.isInactive,ha,hd,assert_ok,
    activated]

theorem deactivate_eq_ok (h : v.deactivate epoch = .ok v') : v' = v.deactivated epoch := by
  obtain ⟨_,hp,h⟩ := of_bind h
  obtain ⟨_,hp⟩ := ok_of_bind hp
  cases hp
  exact (ok.inj h).symm

theorem deactivate_ok (h : v.stakingPool.deactivationEpoch = none) (epoch : Nat) :
    v.deactivate epoch = .ok (v.deactivated epoch) := by
  simp [deactivate,StakingPool.deactivateStakingPool,StakingPool.isInactive,h,assert_ok,
    deactivated]

theorem isNew_of_profile (h : v'.profile = v.profile) (hv : v.IsNew) : v'.IsNew := by
  simp only [profile,standing,Prod.mk.injEq,Standing.mk.injEq] at h
  obtain ⟨⟨-,-,-,ha,hd⟩,hr⟩ := h
  exact ⟨ha.trans hv.activation,hd.trans hv.deactivation,hr.trans hv.rates⟩

end Validator

namespace ValidatorSet

def entriesOf (active pending : List Validator) (candidates inactive : Std.ExtTreeMap Nat Validator) :
    List Entry :=
  active.map (Validator.entry .active) ++ (pending.map (Validator.entry .pending) ++
    (candidates.toList.map (fun e => e.2.entry .candidate) ++
      inactive.toList.map fun e => e.2.entry .inactive))

def entries (s : ValidatorSet) : List Entry :=
  entriesOf s.activeValidators s.pendingActiveValidators s.validatorCandidates s.inactiveValidators

section Entries
variable {active active' pending pending' : List Validator} {v : Validator} {k : Nat}
  {candidates candidates' inactive inactive' : Std.ExtTreeMap Nat Validator}

theorem entriesOf_active (h : active.Perm (v :: active')) :
    (entriesOf active pending candidates inactive).Perm
      (v.entry .active :: entriesOf active' pending candidates inactive) :=
  (h.map _).append_right _

theorem entriesOf_pending (h : pending.Perm (v :: pending')) :
    (entriesOf active pending candidates inactive).Perm
      (v.entry .pending :: entriesOf active pending' candidates inactive) :=
  (((h.map _).append_right _).append_left _).trans perm_middle

theorem entriesOf_candidates (h : candidates.toList.Perm ((k,v) :: candidates'.toList)) :
    (entriesOf active pending candidates inactive).Perm
      (v.entry .candidate :: entriesOf active pending candidates' inactive) := by
  refine List.Perm.trans (.append_left _ ?_) perm_middle
  refine List.Perm.trans (.append_left _ ?_) perm_middle
  exact (h.map _).append_right _

theorem entriesOf_inactive (h : inactive.toList.Perm ((k,v) :: inactive'.toList)) :
    (entriesOf active pending candidates inactive).Perm
      (v.entry .inactive :: entriesOf active pending candidates inactive') := by
  refine List.Perm.trans (.append_left _ ?_) perm_middle
  refine List.Perm.trans (.append_left _ ?_) perm_middle
  refine List.Perm.trans (.append_left _ ?_) perm_middle
  exact h.map _

end Entries

/-- Every pool is in one place, the mappings and the keys of the tables agree with it, and the pools
have the status that belongs to their place. -/
structure WellPlaced (pools : Nat) (s : ValidatorSet) : Prop where
  once : (s.entries.map Entry.poolId).Perm (List.range pools)
  mapped : Mapped s.stakingPoolMappings s.entries
  distinct : ((s.activeValidators ++ s.pendingActiveValidators).map Validator.iotaAddress).Nodup
  candidate (a : Nat) (v : Validator) : s.validatorCandidates[a]? = some v →
    v.iotaAddress = a ∧ v.IsNew
  inactive (id : Nat) (v : Validator) : s.inactiveValidators[id]? = some v → v.stakingPoolId = id
  pending : ∀ v ∈ s.pendingActiveValidators, v.IsNew
  active : ∀ v ∈ s.activeValidators, v.stakingPool.deactivationEpoch = none
  removals : s.pendingRemovals.Nodup ∧ ∀ i ∈ s.pendingRemovals, i < s.activeValidators.length

variable {s s' : ValidatorSet} {pools : Nat}

theorem SameView.entries (h : SameView Validator.seat s s') : s'.entries = s.entries := by
  have hv (place : Place) :
      SameView (Validator.entry place) s s' := h.comp fun r => (⟨r.2.2.1,place,r.1⟩ : Entry)
  unfold ValidatorSet.entries entriesOf
  rw [(hv .active).active,(hv .pending).pending,
    Std.ExtTreeMap.toList_map_eq (hv .candidate).candidates,
    Std.ExtTreeMap.toList_map_eq (hv .inactive).inactive]

theorem exists_of_map_eq {β : Type} {g : Validator → β} {x y : Option Validator} {v : Validator}
    (h : x.map g = y.map g) (hx : x = some v) : ∃ w, y = some w ∧ g v = g w := by
  rw [hx,Option.map_some] at h
  obtain ⟨w,hw,hg⟩ := Option.map_eq_some_iff.mp h.symm
  exact ⟨w,hw,hg.symm⟩

theorem mem_of_map_eq {β : Type} {g : Validator → β} {l l' : List Validator} {v : Validator}
    (h : l'.map g = l.map g) (hv : v ∈ l') : ∃ w ∈ l, g v = g w := by
  have hm : g v ∈ l.map g := h ▸ mem_map_of_mem hv
  obtain ⟨w,hw,hg⟩ := mem_map.mp hm
  exact ⟨w,hw,hg.symm⟩

theorem WellPlaced.of_sameView (h : WellPlaced pools s) (hvw : SameView Validator.seat s s') :
    WellPlaced pools s' := by
  have hn {v w : Validator} (hs : v.seat = w.seat) (hw : w.IsNew) : v.IsNew := by
    simp only [Validator.seat,Prod.mk.injEq] at hs
    obtain ⟨-,-,-,hac,hd,hr⟩ := hs
    exact ⟨hac.trans hw.activation,hd.trans hw.deactivation,hr.trans hw.rates⟩
  constructor
  · rw [hvw.entries]
    exact h.once
  · rw [hvw.entries,hvw.mappings]
    exact h.mapped
  · have ha : SameView Validator.iotaAddress s s' := hvw.comp Prod.fst
    rw [map_append,ha.active,ha.pending,← map_append]
    exact h.distinct
  · intro a v hv
    obtain ⟨w,hw,hs⟩ := exists_of_map_eq (hvw.candidates a) hv
    obtain ⟨ha,hw⟩ := h.candidate a w hw
    exact ⟨(congrArg Prod.fst hs).trans ha,hn hs hw⟩
  · intro id v hv
    obtain ⟨w,hw,hs⟩ := exists_of_map_eq (hvw.inactive id) hv
    exact (congrArg (fun r => r.2.2.1) hs).trans (h.inactive id w hw)
  · intro v hv
    obtain ⟨w,hw,hs⟩ := mem_of_map_eq hvw.pending hv
    exact hn hs (h.pending w hw)
  · intro v hv
    obtain ⟨w,hw,hs⟩ := mem_of_map_eq hvw.active hv
    exact (congrArg (fun r => r.2.2.2.2.1) hs).trans (h.active w hw)
  have hl := congrArg List.length hvw.active
  rw [length_map,length_map] at hl
  rw [hvw.removals,hl]
  exact h.removals

theorem once_of_move {entries entries' rest : List Entry} {e e' : Entry}
    (h : (entries.map Entry.poolId).Perm (List.range pools)) (hp : entries.Perm (e :: rest))
    (hp' : entries'.Perm (e' :: rest)) (hid : e'.poolId = e.poolId) :
    (entries'.map Entry.poolId).Perm (List.range pools) := by
  refine List.Perm.trans ?_ h
  refine (hp'.map _).trans (List.Perm.trans ?_ (hp.map _).symm)
  rw [map_cons,map_cons,hid]

theorem ne_of_once {entries rest : List Entry} {e : Entry}
    (h : (entries.map Entry.poolId).Perm (List.range pools)) (hp : entries.Perm (e :: rest)) :
    ∀ x ∈ rest, x.poolId ≠ e.poolId := by
  have hn : ((e :: rest).map Entry.poolId).Nodup :=
    ((hp.map _).symm.trans h).nodup_iff.mpr nodup_range
  rw [map_cons,nodup_cons] at hn
  intro x hx heq
  exact hn.1 (heq ▸ mem_map_of_mem hx)

variable {v : Validator} {sender epoch : Nat}

theorem Table.add_eq_ok {ν : Type} {table table' : Std.ExtTreeMap Nat ν} {key : Nat} {value : ν}
    (h : Table.add table key value = .ok table') :
    table[key]? = none ∧ table' = table.insert key value := by
  unfold Table.add at h
  split at h
  · cases h
  · next hn =>
    refine ⟨?_,(ok.inj h).symm⟩
    simpa using hn

theorem Table.remove_eq_ok {ν : Type} {table table' : Std.ExtTreeMap Nat ν} {key : Nat} {value : ν}
    (h : Table.remove table key = .ok (value,table')) :
    table[key]? = some value ∧ table' = table.erase key := by
  unfold Table.remove at h
  split at h
  · next hs =>
    cases h
    exact ⟨hs,rfl⟩
  · cases h

theorem not_mem_of_not_duplicate {validators : List Validator}
    (h : isDuplicateValidator validators v = false) :
    v.iotaAddress ∉ validators.map Validator.iotaAddress := by
  intro hm
  obtain ⟨w,hw,ha⟩ := mem_map.mp hm
  have hp : 0 < countDuplicates validators v := by
    refine countP_pos_iff.mpr ⟨w,hw,?_⟩
    have heq : w.metadata.iotaAddress = v.metadata.iotaAddress := ha
    simp [Validator.isDuplicate,ValidatorMetadata.isDuplicate,heq]
  simp [isDuplicateValidator] at h
  omega

theorem requestAddValidatorCandidate_cases (hr : s.requestAddValidatorCandidate v = .ok s') :
    s.validatorCandidates[v.iotaAddress]? = none ∧
      s' = { s with
        stakingPoolMappings := s.stakingPoolMappings.insert v.stakingPoolId v.iotaAddress
        validatorCandidates := s.validatorCandidates.insert v.iotaAddress v } := by
  iterate 3 obtain ⟨_,hr⟩ := ok_of_bind hr
  obtain ⟨_,hm,hr⟩ := of_bind hr
  obtain ⟨_,hc,hr⟩ := of_bind hr
  obtain ⟨-,rfl⟩ := Table.add_eq_ok hm
  obtain ⟨hn,rfl⟩ := Table.add_eq_ok hc
  exact ⟨hn,(ok.inj hr).symm⟩

theorem WellPlaced.requestAddValidatorCandidate (h : WellPlaced pools s) (hv : v.IsNew)
    (hid : v.stakingPoolId = pools)
    (hr : s.requestAddValidatorCandidate v = .ok s') : WellPlaced (pools+1) s' := by
  obtain ⟨hn,hs'⟩ := requestAddValidatorCandidate_cases hr
  have hen : s'.entries.Perm (v.entry .candidate :: s.entries) := by
    rw [hs']
    exact entriesOf_candidates (Std.ExtTreeMap.toList_insert_perm hn)
  have hnw : ∀ e ∈ s.entries, e.poolId ≠ v.stakingPoolId := by
    intro e he heq
    have := mem_range.mp (h.once.mem_iff.mp (mem_map_of_mem he))
    omega
  subst hs'
  refine ⟨?_,?_,h.distinct,fun a w hw => ?_,h.inactive,h.pending,h.active,h.removals⟩
  · refine (hen.map _).trans ?_
    rw [map_cons,range_succ]
    refine List.Perm.trans ?_ perm_append_comm
    rw [show (v.entry .candidate).poolId = pools from hid]
    exact h.once.cons pools
  · exact (h.mapped.create hnw (by decide)).perm hen.symm
  rw [Std.ExtTreeMap.getElem?_insert_eq] at hw
  split at hw
  · next ha =>
    cases hw
    exact ⟨ha,hv⟩
  · exact h.candidate a w hw

theorem requestRemoveValidatorCandidate_cases
    (hr : s.requestRemoveValidatorCandidate sender epoch = .ok s') :
    ∃ v, s.validatorCandidates[sender]? = some v ∧
      s.inactiveValidators[v.stakingPoolId]? = none ∧
      s' = { s with
        validatorCandidates := s.validatorCandidates.erase sender
        stakingPoolMappings := s.stakingPoolMappings.erase v.stakingPoolId
        inactiveValidators :=
          s.inactiveValidators.insert v.stakingPoolId (v.deactivated epoch) } := by
  obtain ⟨_,hr⟩ := ok_of_bind hr
  obtain ⟨⟨v,_⟩,hc,hr⟩ := of_bind hr
  obtain ⟨_,hr⟩ := ok_of_bind hr
  obtain ⟨⟨_,_⟩,hm,hr⟩ := of_bind hr
  obtain ⟨_,hd,hr⟩ := of_bind hr
  obtain ⟨_,hi,hr⟩ := of_bind hr
  obtain ⟨hv,rfl⟩ := Table.remove_eq_ok hc
  obtain ⟨-,rfl⟩ := Table.remove_eq_ok hm
  obtain rfl := Validator.deactivate_eq_ok hd
  obtain ⟨hn,rfl⟩ := Table.add_eq_ok hi
  exact ⟨v,hv,hn,(ok.inj hr).symm⟩

theorem WellPlaced.requestRemoveValidatorCandidate (h : WellPlaced pools s)
    (hr : s.requestRemoveValidatorCandidate sender epoch = .ok s') : WellPlaced pools s' := by
  obtain ⟨v,hv,hn,hs'⟩ := requestRemoveValidatorCandidate_cases hr
  have hb : s.entries.Perm (v.entry .candidate :: entriesOf s.activeValidators
      s.pendingActiveValidators (s.validatorCandidates.erase sender) s.inactiveValidators) :=
    entriesOf_candidates (Std.ExtTreeMap.toList_perm_cons_erase hv)
  have ha : s'.entries.Perm ((v.deactivated epoch).entry .inactive ::
      entriesOf s.activeValidators s.pendingActiveValidators (s.validatorCandidates.erase sender)
        s.inactiveValidators) := by
    rw [hs']
    exact entriesOf_inactive (Std.ExtTreeMap.toList_insert_perm hn)
  subst hs'
  refine ⟨once_of_move h.once hb ha rfl,?_,h.distinct,fun a w hw => ?_,
    fun id w hw => ?_,h.pending,h.active,h.removals⟩
  · exact ((h.mapped.perm hb).retire (ne_of_once h.once hb)).perm ha.symm
  · rw [Std.ExtTreeMap.getElem?_erase_eq] at hw
    split at hw
    · cases hw
    · exact h.candidate a w hw
  rw [Std.ExtTreeMap.getElem?_insert_eq] at hw
  split at hw
  · next heq =>
    cases hw
    exact heq
  · exact h.inactive id w hw

theorem requestAddValidator_cases {minJoiningStake : Nat}
    (hr : s.requestAddValidator minJoiningStake sender = .ok s') :
    ∃ v validatorCandidates, s.validatorCandidates[sender]? = some v ∧
      (validatorCandidates = s.validatorCandidates.erase sender ∧
        isDuplicateValidator s.activeValidators v = false ∧
        isDuplicateValidator s.pendingActiveValidators v = false) ∧
      s' = { s with
        validatorCandidates
        pendingActiveValidators := s.pendingActiveValidators ++ [v] } := by
  obtain ⟨_,hr⟩ := ok_of_bind hr
  obtain ⟨⟨v,_⟩,hc,hr⟩ := of_bind hr
  obtain ⟨_,hd,hr⟩ := of_bind hr
  iterate 3 obtain ⟨_,hr⟩ := ok_of_bind hr
  obtain ⟨hv,rfl⟩ := Table.remove_eq_ok hc
  exact ⟨v,_,hv,⟨rfl,assert_eq_ok.mp hd⟩,(ok.inj hr).symm⟩

theorem WellPlaced.requestAddValidator (h : WellPlaced pools s) {minJoiningStake : Nat}
    (hr : s.requestAddValidator minJoiningStake sender = .ok s') : WellPlaced pools s' := by
  obtain ⟨v,_,hv,⟨rfl,hac,hp⟩,hs'⟩ := requestAddValidator_cases hr
  have hbf : s.entries.Perm (v.entry .candidate :: entriesOf s.activeValidators
      s.pendingActiveValidators (s.validatorCandidates.erase sender) s.inactiveValidators) :=
    entriesOf_candidates (Std.ExtTreeMap.toList_perm_cons_erase hv)
  have haf : s'.entries.Perm (v.entry .pending :: entriesOf s.activeValidators
      s.pendingActiveValidators (s.validatorCandidates.erase sender) s.inactiveValidators) := by
    rw [hs']
    exact entriesOf_pending perm_append_comm
  subst hs'
  refine ⟨once_of_move h.once hbf haf rfl,?_,?_,fun a w hw => ?_,h.inactive,
    fun w hw => ?_,h.active,h.removals⟩
  · exact ((h.mapped.perm hbf).relocate (by decide) (by decide)).perm haf.symm
  · rw [← append_assoc,map_append,nodup_append]
    refine ⟨h.distinct,nodup_singleton _,?_⟩
    rintro a ha _ hb rfl
    obtain rfl : a = v.iotaAddress := by simpa using hb
    rw [map_append,mem_append] at ha
    exact ha.elim (not_mem_of_not_duplicate hac) (not_mem_of_not_duplicate hp)
  · rw [Std.ExtTreeMap.getElem?_erase_eq] at hw
    split at hw
    · cases hw
    · exact h.candidate a w hw
  rcases mem_append.mp hw with hw | hw
  · exact h.pending w hw
  · cases mem_singleton.mp hw
    exact (h.candidate sender _ hv).2

theorem requestRemoveValidator_cases (hr : s.requestRemoveValidator sender = .ok s') :
    ∃ i v, s.activeValidators[i]? = some v ∧ v.iotaAddress = sender ∧ i ∉ s.pendingRemovals ∧
      s' = { s with pendingRemovals := s.pendingRemovals ++ [i] } := by
  unfold ValidatorSet.requestRemoveValidator at hr
  split at hr
  · cases hr
  · next i hi =>
    obtain ⟨v,hv,ha⟩ := findValidator_eq_some hi
    obtain ⟨_,hn,hr⟩ := of_bind hr
    exact ⟨i,v,hv,ha,assert_eq_ok.mp hn,(ok.inj hr).symm⟩

theorem WellPlaced.requestRemoveValidator (h : WellPlaced pools s)
    (hr : s.requestRemoveValidator sender = .ok s') : WellPlaced pools s' := by
  obtain ⟨i,v,hv,-,hn,rfl⟩ := requestRemoveValidator_cases hr
  refine ⟨h.once,h.mapped,h.distinct,h.candidate,h.inactive,h.pending,h.active,?_,?_⟩
  · rw [nodup_append]
    refine ⟨h.removals.1,nodup_singleton i,?_⟩
    rintro a ha _ hb rfl
    exact hn (mem_singleton.mp hb ▸ ha)
  intro j hj
  rcases mem_append.mp hj with hj | hj
  · exact h.removals.2 j hj
  · cases mem_singleton.mp hj
    exact (List.getElem?_eq_some_iff.mp hv).1

end ValidatorSet
end Iota.System
