import Iota.System.Validator

/-! The Move module `voting_power`: the power of a committee member is its share of the stake,
capped, and the power that the cap leaves over goes to the members below it. -/
namespace Iota.System.VotingPower
open Except List Move

structure VotingPowerInfo where
  validatorIndex : Nat
  votingPower : Nat
  stake : Nat
deriving DecidableEq, Repr

def totalVotingPower : Nat := 10000

def quorumThreshold : Nat := 6667

def maxVotingPower : Nat := 1000

/-- The elements of `v` at the indices `ix`, as in the `take_*` macros. -/
def take {α : Type} (v : List α) (ix : List Nat) : Tx (List α) := ix.mapM (get v)

def totalCommitteeStake (validators : List Validator) (committeeMembers : List Nat) : Tx Nat := do
  committeeMembers.foldlM (fun stake i => do
    let validator ← get validators i
    add stake validator.totalStake) 0

def insert (newInfo : VotingPowerInfo) : List VotingPowerInfo → List VotingPowerInfo
  | [] => [newInfo]
  | info :: rest =>
    if newInfo.stake < info.stake then info :: insert newInfo rest else newInfo :: info :: rest

def initStep (validators : List Validator) (totalStake threshold : Nat)
    (acc : List VotingPowerInfo × Nat) (i : Nat) : Tx (List VotingPowerInfo × Nat) := do
  let validator ← get validators i
  let stake := validator.totalStake
  let adjustedStake ← div (stake * totalVotingPower) totalStake
  let adjustedStake ← castU64 adjustedStake
  let votingPower := min adjustedStake threshold
  let totalPower ← add acc.2 votingPower
  .ok (insert ⟨i,votingPower,stake⟩ acc.1,totalPower)

def initVotingPowerInfo (committeeMembers : List Nat) (validators : List Validator)
    (threshold : Nat) : Tx (List VotingPowerInfo × Nat) := do
  let totalStake ← totalCommitteeStake validators committeeMembers
  let (result,totalPower) ←
    committeeMembers.foldlM (initStep validators totalStake threshold) ([],0)
  let remainingPower ← sub totalVotingPower totalPower
  .ok (result,remainingPower)

/-- Distribute the remaining power over the members from the front, up to the threshold. The
argument is the part of the list that the loop has not reached. -/
def adjustVotingPower (threshold : Nat) :
    List VotingPowerInfo → Nat → Tx (List VotingPowerInfo)
  | infoList, 0 => .ok infoList
  | [], _+1 => .error (.code .totalPowerMismatch)
  | v :: rest, remaining+1 => do
    let planned ← divideAndRoundUp (remaining+1) (rest.length+1)
    let sum ← add v.votingPower planned
    let target := min threshold sum
    let room ← sub target v.votingPower
    let actual := min (remaining+1) room
    let votingPower ← add v.votingPower actual
    assert (votingPower ≤ threshold) Error.votingPowerOverThreshold
    let remainingPower ← sub (remaining+1) actual
    let adjusted ← adjustVotingPower threshold rest remainingPower
    .ok ({ v with votingPower } :: adjusted)

/-- Reset all powers, then set those of the list, which is taken apart from its back. -/
def updateVotingPower (validators : List Validator) (infoList : List VotingPowerInfo) :
    Tx (List Validator) :=
  infoList.reverse.foldlM (fun vs info =>
    modify vs info.validatorIndex fun v => .ok (v.setVotingPower info.votingPower))
    (validators.map fun v => v.setVotingPower 0)

def checkPair (a b : Validator) : Tx Unit := do
  (if b.totalStake < a.totalStake then
    assert (b.votingPower ≤ a.votingPower) Error.relativePowerMismatch else .ok ())
  (if a.totalStake < b.totalStake then
    assert (a.votingPower ≤ b.votingPower) Error.relativePowerMismatch else .ok ())

def checkPairs : List Validator → Tx Unit
  | [] => .ok ()
  | a :: rest => do
    rest.forM (checkPair a)
    checkPairs rest

def checkInvariants (committeeMembers : List Nat) (validators : List Validator) : Tx Unit := do
  let members ← take validators committeeMembers
  let total ← members.foldlM (fun total v => do
    assert (0 < v.votingPower) Error.invalidVotingPower
    add total v.votingPower) 0
  assert (total = totalVotingPower) Error.totalPowerMismatch
  checkPairs members

def setVotingPower (committeeMembers : List Nat) (activeValidators : List Validator) :
    Tx (List Validator) := do
  let share ← divideAndRoundUp totalVotingPower committeeMembers.length
  let threshold := min totalVotingPower (max maxVotingPower share)
  let (infoList,remainingPower) ←
    initVotingPowerInfo committeeMembers activeValidators threshold
  let infoList ← adjustVotingPower threshold infoList remainingPower
  let activeValidators ← updateVotingPower activeValidators infoList
  checkInvariants committeeMembers activeValidators
  .ok activeValidators

/-! ### The shares -/

theorem divideAndRoundUp_eq (a b : Nat) (hb : b ≠ 0) :
    (divideAndRoundUp a b : Tx Nat) = .ok (a ⌈/⌉ b) := by
  have hp : 0 < b := Nat.pos_of_ne_zero hb
  unfold divideAndRoundUp
  rw [if_neg hb]
  have hdm := Nat.div_add_mod a b
  split
  · next h0 =>
    congr 1
    apply le_antisymm
    · by_contra hlt
      have hle : a ≤ b * (a ⌈/⌉ b) := (ceilDiv_le_iff_le_mul hp).mp le_rfl
      have := Nat.mul_lt_mul_of_pos_left (Nat.lt_of_not_le hlt) hp
      omega
    · exact (ceilDiv_le_iff_le_mul hp).mpr (by omega)
  · next h0 =>
    congr 1
    apply le_antisymm
    · by_contra hlt
      have hle : a ≤ b * (a ⌈/⌉ b) := (ceilDiv_le_iff_le_mul hp).mp le_rfl
      have := Nat.mul_le_mul_left b (Nat.le_of_lt_succ (Nat.lt_of_not_le hlt))
      omega
    refine (ceilDiv_le_iff_le_mul hp).mpr ?_
    rw [Nat.mul_add]
    have := Nat.mod_lt a hp
    omega

def stakeAt (validators : List Validator) (i : Nat) : Nat :=
  (validators[i]?.map Validator.totalStake).getD 0

def powerAt (validators : List Validator) (i : Nat) : Nat :=
  (validators[i]?.map Validator.votingPower).getD 0

def committeeStake (validators : List Validator) (committeeMembers : List Nat) : Nat :=
  (committeeMembers.map (stakeAt validators)).sum

variable {validators : List Validator} {members : List Nat} {threshold : Nat}

theorem totalCommitteeStake_eq (hr : ∀ i ∈ members, i < validators.length)
    (hf : committeeStake validators members < 2 ^ 64) :
    totalCommitteeStake validators members = .ok (committeeStake validators members) := by
  rw [← Nat.zero_add (committeeStake validators members)] at hf ⊢
  refine foldlM_add (fun i hi stake => ?_) 0 hf
  have hi := hr i hi
  have hg : (get validators i : Tx Validator) = .ok validators[i] :=
    get_eq_ok.mpr (List.getElem?_eq_getElem hi)
  rw [hg,ok_bind]
  simp [stakeAt,hi]

theorem insert_perm (info : VotingPowerInfo) (l : List VotingPowerInfo) :
    (insert info l).Perm (info :: l) := by
  induction l with
  | nil => exact .refl _
  | cons x rest ih =>
    unfold insert
    split
    · exact (ih.cons x).trans (.swap _ _ _)
    · exact .refl _

def Sorted (l : List VotingPowerInfo) : Prop := l.Pairwise fun a b => b.stake ≤ a.stake

theorem insert_sorted {info : VotingPowerInfo} {l : List VotingPowerInfo} (h : Sorted l) :
    Sorted (insert info l) := by
  induction l with
  | nil => exact pairwise_singleton _ _
  | cons x rest ih =>
    obtain ⟨hx,hr⟩ := pairwise_cons.mp h
    unfold insert
    split
    · next hlt =>
      refine pairwise_cons.mpr ⟨fun y hy => ?_,ih hr⟩
      rcases mem_cons.mp ((insert_perm info rest).mem_iff.mp hy) with rfl | hy
      · exact Nat.le_of_lt hlt
      · exact hx y hy
    · next hge =>
      refine pairwise_cons.mpr ⟨fun y hy => ?_,h⟩
      rcases mem_cons.mp hy with rfl | hy
      · exact Nat.le_of_not_lt hge
      · exact (hx y hy).trans (Nat.le_of_not_lt hge)

/-- The entry of a member before the remaining power is distributed. -/
def initialInfo (validators : List Validator) (totalStake threshold i : Nat) : VotingPowerInfo :=
  ⟨i,min (stakeAt validators i * totalVotingPower / totalStake) threshold,stakeAt validators i⟩

def powerSum (l : List VotingPowerInfo) : Nat := (l.map VotingPowerInfo.votingPower).sum

variable (validators threshold) in
theorem powerSum_initialInfo_le (total : Nat) (l : List Nat) :
    total * powerSum (l.map (initialInfo validators total threshold)) ≤
      committeeStake validators l * totalVotingPower := by
  induction l with
  | nil => simp [powerSum]
  | cons i rest ih =>
    have hc : powerSum ((i :: rest).map (initialInfo validators total threshold)) =
        min (stakeAt validators i * totalVotingPower / total) threshold +
          powerSum (rest.map (initialInfo validators total threshold)) := by
      simp [powerSum,initialInfo]
    have hs : committeeStake validators (i :: rest) =
        stakeAt validators i + committeeStake validators rest := by simp [committeeStake]
    have hd : total * (stakeAt validators i * totalVotingPower / total) ≤
        stakeAt validators i * totalVotingPower := Nat.mul_div_le _ _
    have hm := Nat.mul_le_mul_left total
      (Nat.min_le_left (stakeAt validators i * totalVotingPower / total) threshold)
    rw [hc,hs,Nat.mul_add,Nat.add_mul]
    omega

theorem initStep_eq {total i : Nat} {acc : List VotingPowerInfo × Nat}
    (hi : i < validators.length) (ht : total ≠ 0)
    (hc : stakeAt validators i * totalVotingPower / total < 2 ^ 64)
    (ha : acc.2 + (initialInfo validators total threshold i).votingPower < 2 ^ 64) :
    initStep validators total threshold acc i =
      .ok (insert (initialInfo validators total threshold i) acc.1,
        acc.2 + (initialInfo validators total threshold i).votingPower) := by
  have hg : (get validators i : Tx Validator) = .ok validators[i] :=
    get_eq_ok.mpr (List.getElem?_eq_getElem hi)
  have hs : validators[i].totalStake = stakeAt validators i := by simp [stakeAt,hi]
  have hd : (div (stakeAt validators i * totalVotingPower) total : Tx Nat) = .ok _ :=
    div_eq_ok.mpr ⟨ht,rfl⟩
  have hc' : (castU64 (stakeAt validators i * totalVotingPower / total) : Tx Nat) = .ok _ :=
    castU64_eq_ok.mpr ⟨hc,rfl⟩
  have ha' : (add acc.2 (min (stakeAt validators i * totalVotingPower / total) threshold) :
      Tx Nat) = .ok _ := add_eq_ok.mpr ⟨ha,rfl⟩
  simp only [initStep,hg,ok_bind,hs,hd,hc',ha']
  rfl

variable (threshold) in
theorem initLoop_spec {total : Nat} (l : List Nat) (acc : List VotingPowerInfo × Nat)
    (hr : ∀ i ∈ l, i < validators.length) (ht : total ≠ 0)
    (hs : ∀ i ∈ l, stakeAt validators i ≤ total) (hsr : Sorted acc.1)
    (hf : acc.2 + powerSum (l.map (initialInfo validators total threshold)) < 2 ^ 64) :
    ∃ infos, l.foldlM (initStep validators total threshold) acc =
        .ok (infos,acc.2 + powerSum (l.map (initialInfo validators total threshold))) ∧
      infos.Perm (l.map (initialInfo validators total threshold) ++ acc.1) ∧ Sorted infos := by
  induction l generalizing acc with
  | nil => exact ⟨acc.1,rfl,.refl _,hsr⟩
  | cons i rest ih =>
    have hc : powerSum ((i :: rest).map (initialInfo validators total threshold)) =
        (initialInfo validators total threshold i).votingPower +
          powerSum (rest.map (initialInfo validators total threshold)) := by
      simp [powerSum]
    rw [hc] at hf
    have hcs : stakeAt validators i * totalVotingPower / total < 2 ^ 64 := by
      have hle : stakeAt validators i * totalVotingPower ≤ total * totalVotingPower :=
        Nat.mul_le_mul_right _ (hs i mem_cons_self)
      have := Nat.div_le_of_le_mul hle
      have : totalVotingPower < 2 ^ 64 := by decide
      omega
    rw [foldlM_cons,initStep_eq (hr i mem_cons_self) ht hcs (by omega),ok_bind]
    obtain ⟨infos,hrn,hp,hi⟩ :=
      ih (insert (initialInfo validators total threshold i) acc.1,
          acc.2 + (initialInfo validators total threshold i).votingPower)
        (fun j hj => hr j (.tail _ hj))
        (fun j hj => hs j (.tail _ hj)) (insert_sorted hsr)
        (by simpa only [Nat.add_assoc] using hf)
    refine ⟨infos,by rw [hrn,hc,Nat.add_assoc],hp.trans ?_,hi⟩
    exact ((insert_perm _ _).append_left _).trans perm_middle

/-! ### The distribution of the remaining power -/

/-- What the members can still take before they reach the threshold. -/
def room (threshold : Nat) (l : List VotingPowerInfo) : Nat :=
  (l.map fun v => threshold - v.votingPower).sum

/-- Descending order of power, all of it within the threshold. -/
structure Capped (threshold : Nat) (l : List VotingPowerInfo) : Prop where
  sorted : l.Pairwise fun a b => b.votingPower ≤ a.votingPower
  le : ∀ v ∈ l, v.votingPower ≤ threshold

variable {rest : List VotingPowerInfo} {v : VotingPowerInfo}

theorem Capped.tail (h : Capped threshold (v :: rest)) : Capped threshold rest :=
  ⟨(pairwise_cons.mp h.sorted).2,fun w hw => h.le w (.tail _ hw)⟩

theorem Capped.mul_length_le_room {n : Nat}
    (h : Capped threshold (v :: rest)) (hn : n ≤ threshold - v.votingPower) :
    rest.length * n ≤ room threshold rest := by
  have hle : ∀ w ∈ rest, n ≤ threshold - w.votingPower := fun w hw => by
    have := (pairwise_cons.mp h.sorted).1 w hw
    omega
  clear h hn
  induction rest with
  | nil => simp
  | cons w rest ih =>
    have hw := hle w mem_cons_self
    have := ih fun x hx => hle x (.tail _ hx)
    simp only [length_cons,room,map_cons,sum_cons,Nat.add_mul] at *
    omega

structure Raised (l l' : List VotingPowerInfo) : Prop where
  same : List.Forall₂ (fun v v' => v'.validatorIndex = v.validatorIndex ∧ v'.stake = v.stake ∧
    v.votingPower ≤ v'.votingPower) l l'

theorem Raised.refl (l : List VotingPowerInfo) : Raised l l :=
  ⟨forall₂_same.mpr fun _ _ => ⟨rfl,rfl,le_rfl⟩⟩

variable {l l' : List VotingPowerInfo}

theorem Raised.map_index (h : Raised l l') :
    l'.map VotingPowerInfo.validatorIndex = l.map VotingPowerInfo.validatorIndex := by
  obtain ⟨h⟩ := h
  induction h with
  | nil => rfl
  | cons hv _ ih => rw [map_cons,map_cons,hv.1,ih]

theorem Raised.map_stake (h : Raised l l') :
    l'.map VotingPowerInfo.stake = l.map VotingPowerInfo.stake := by
  obtain ⟨h⟩ := h
  induction h with
  | nil => rfl
  | cons hv _ ih => rw [map_cons,map_cons,hv.2.1,ih]

theorem Raised.exists_of_mem (h : Raised l l') {v' : VotingPowerInfo}
    (hv' : v' ∈ l') : ∃ v ∈ l, v'.validatorIndex = v.validatorIndex ∧ v'.stake = v.stake ∧
      v.votingPower ≤ v'.votingPower := by
  obtain ⟨h⟩ := h
  induction h with
  | nil => cases hv'
  | cons hv _ ih =>
    rcases mem_cons.mp hv' with rfl | hv'
    · exact ⟨_,mem_cons_self,hv⟩
    · obtain ⟨v,hm,hv⟩ := ih hv'
      exact ⟨v,mem_cons_of_mem _ hm,hv⟩

theorem adjustVotingPower_cons {remaining planned actual : Nat} (hle : v.votingPower ≤ threshold)
    (ht : threshold < 2 ^ 63) (hre : remaining < 2 ^ 63) (hps : 0 < remaining)
    (hp : planned = remaining ⌈/⌉ (rest.length+1))
    (ha : actual = min (threshold - v.votingPower) planned) :
    adjustVotingPower threshold (v :: rest) remaining =
      (adjustVotingPower threshold rest (remaining - actual) >>= fun adjusted =>
        .ok ({ v with votingPower := v.votingPower + actual } :: adjusted)) := by
  obtain ⟨r,rfl⟩ : ∃ r, remaining = r+1 := ⟨remaining - 1,by omega⟩
  have hrn : (divideAndRoundUp (r+1) (rest.length+1) : Tx Nat) = .ok planned := by
    rw [hp]
    exact divideAndRoundUp_eq _ _ (Nat.succ_ne_zero _)
  have hplannedLe : planned ≤ r+1 := by
    rw [hp]
    exact (ceilDiv_le_iff_le_mul (Nat.succ_pos _)).mpr (Nat.le_mul_of_pos_left _ (Nat.succ_pos _))
  have hs : (add v.votingPower planned : Tx Nat) = .ok (v.votingPower + planned) :=
    add_eq_ok.mpr ⟨by omega,rfl⟩
  have hrm : (sub (min threshold (v.votingPower + planned)) v.votingPower : Tx Nat) =
      .ok actual := sub_eq_ok.mpr ⟨by omega,by omega⟩
  have hm : min (r+1) actual = actual := by omega
  have hn : (add v.votingPower actual : Tx Nat) = .ok (v.votingPower + actual) :=
    add_eq_ok.mpr ⟨by omega,rfl⟩
  have hc : (assert (v.votingPower + actual ≤ threshold) Error.votingPowerOverThreshold :
      Tx Unit) = .ok () := assert_eq_ok.mpr (by omega)
  have hr : (sub (r+1) actual : Tx Nat) = .ok (r + 1 - actual) := sub_eq_ok.mpr ⟨by omega,rfl⟩
  rw [adjustVotingPower]
  simp only [hrn,ok_bind,hs,hrm,hm,hn,hc,hr]

/-- What the distribution does to a list in descending order of power: nobody gets more than an
even share of the remaining power, and the order stays. -/
structure Adjusted (threshold remaining : Nat) (l l' : List VotingPowerInfo) : Prop where
  raised : Raised l l'
  capped : Capped threshold l'
  sum : powerSum l' = powerSum l + remaining
  even : ∀ bound, (∀ v ∈ l, v.votingPower ≤ bound) →
    ∀ v ∈ l', v.votingPower ≤ bound + remaining ⌈/⌉ l.length

theorem adjustVotingPower_spec {l : List VotingPowerInfo} {remaining : Nat}
    (hth : threshold < 2 ^ 63) (hrm : remaining < 2 ^ 63)
    (hc : Capped threshold l) (hr : remaining ≤ room threshold l) :
    ∃ l', adjustVotingPower threshold l remaining = .ok l' ∧
      Adjusted threshold remaining l l' := by
  induction l generalizing remaining with
  | nil =>
    obtain rfl : remaining = 0 := by simpa [room] using hr
    exact ⟨[],rfl,.refl _,hc,rfl,fun _ _ => forall_mem_nil _⟩
  | cons v rest ih =>
    rcases Nat.eq_zero_or_pos remaining with rfl | hps
    · refine ⟨v :: rest,by simp [adjustVotingPower],.refl _,hc,rfl,fun b hb w hw => ?_⟩
      exact (hb w hw).trans (Nat.le_add_right _ _)
    obtain ⟨planned,hp⟩ : ∃ p, p = remaining ⌈/⌉ (rest.length+1) := ⟨_,rfl⟩
    obtain ⟨actual,hac⟩ : ∃ a, a = min (threshold - v.votingPower) planned := ⟨_,rfl⟩
    have hv : v.votingPower ≤ threshold := hc.le v mem_cons_self
    have hm : remaining ≤ (rest.length+1) * planned := by
      rw [hp]
      exact (ceilDiv_le_iff_le_mul (Nat.succ_pos _)).mp le_rfl
    have hs : (rest.length+1) * planned = rest.length * planned + planned := by ring
    have hroomCons : room threshold (v :: rest) =
        threshold - v.votingPower + room threshold rest := by simp [room]
    -- Either the member reaches the threshold, or the later ones have room for their share.
    have hrestRoom : remaining - actual ≤ room threshold rest := by
      rcases Nat.lt_or_ge (threshold - v.votingPower) planned with hlt | hge
      · omega
      · have := hc.mul_length_le_room hge
        omega
    obtain ⟨l',hrn,ha⟩ := ih (by omega) hc.tail hrestRoom
    rw [adjustVotingPower_cons hv hth hrm hps hp hac,hrn]
    have ht : ∀ bound, (∀ w ∈ rest, w.votingPower ≤ bound) → planned ≤ threshold - v.votingPower →
        ∀ w ∈ l', w.votingPower ≤ bound + planned := by
      intro bound hb hge w hw
      have hne : 0 < rest.length := by
        have := ha.raised.same.length_eq
        have := length_pos_of_mem hw
        omega
      have hcl : (remaining - actual) ⌈/⌉ rest.length ≤ planned :=
        (ceilDiv_le_iff_le_mul hne).mpr (by omega)
      have := ha.even bound hb w hw
      omega
    refine ⟨_,rfl,⟨.cons ⟨rfl,rfl,Nat.le_add_right _ _⟩ ha.raised.same⟩,⟨?_,?_⟩,?_,?_⟩
    · refine pairwise_cons.mpr ⟨fun w hw => ?_,ha.capped.sorted⟩
      rcases Nat.lt_or_ge (threshold - v.votingPower) planned with hlt | hge
      · have := ha.capped.le w hw
        simp only
        omega
      have := ht v.votingPower (pairwise_cons.mp hc.sorted).1 hge w hw
      simp only
      omega
    · intro w hw
      rcases mem_cons.mp hw with rfl | hw
      · simp only
        omega
      · exact ha.capped.le w hw
    · have hle : actual ≤ remaining := by
        have : planned ≤ remaining := by
          rw [hp]
          exact (ceilDiv_le_iff_le_mul (Nat.succ_pos _)).mpr
            (Nat.le_mul_of_pos_left _ (Nat.succ_pos _))
        omega
      have := ha.sum
      simp only [powerSum,map_cons,sum_cons] at *
      omega
    · intro bound hb w hw
      rw [length_cons,← hp]
      have hvb := hb v mem_cons_self
      rcases mem_cons.mp hw with rfl | hw
      · simp only
        omega
      rcases Nat.lt_or_ge (threshold - v.votingPower) planned with hlt | hge
      · have := ha.capped.le w hw
        omega
      · exact ht bound (fun x hx => hb x (.tail _ hx)) hge w hw

/-! ### Writing the powers back and checking them -/

theorem setPowers_spec (l : List VotingPowerInfo) (vs : List Validator)
    (hr : ∀ info ∈ l, info.validatorIndex < vs.length)
    (hn : (l.map VotingPowerInfo.validatorIndex).Nodup) :
    ∃ vs', l.foldlM (fun vs info => modify vs info.validatorIndex fun v =>
        .ok (v.setVotingPower info.votingPower)) vs = (.ok vs' : Tx (List Validator)) ∧
      vs'.length = vs.length ∧
      (∀ i, i ∉ l.map VotingPowerInfo.validatorIndex → vs'[i]? = vs[i]?) ∧
      ∀ info ∈ l, vs'[info.validatorIndex]? =
        vs[info.validatorIndex]?.map fun v => v.setVotingPower info.votingPower := by
  induction l generalizing vs with
  | nil => exact ⟨vs,rfl,rfl,fun _ _ => rfl,forall_mem_nil _⟩
  | cons info rest ih =>
    have hi : info.validatorIndex < vs.length := hr info mem_cons_self
    obtain ⟨hfr,hrs⟩ := nodup_cons.mp hn
    obtain ⟨v,hv⟩ : ∃ v, vs[info.validatorIndex]? = some v := ⟨_,List.getElem?_eq_getElem hi⟩
    have hs : (modify vs info.validatorIndex fun v =>
        .ok (v.setVotingPower info.votingPower) : Tx (List Validator)) =
        .ok (vs.set info.validatorIndex (v.setVotingPower info.votingPower)) := by
      have hg : (get vs info.validatorIndex : Tx Validator) = .ok v := get_eq_ok.mpr hv
      simp only [Move.modify,hg,ok_bind]
      exact set_eq_ok.mpr ⟨hi,rfl⟩
    obtain ⟨vs',hrn,hl,ho,hst⟩ :=
      ih (vs.set info.validatorIndex (v.setVotingPower info.votingPower))
        (fun x hx => by simpa using hr x (.tail _ hx)) hrs
    rw [foldlM_cons,hs,ok_bind]
    refine ⟨vs',hrn,by simpa using hl,fun i hf => ?_,fun x hx => ?_⟩
    · have hne : i ≠ info.validatorIndex := fun h => hf (h ▸ mem_cons_self)
      have hf := fun h => hf (.tail _ h)
      rw [ho i hf,List.getElem?_set_ne (Ne.symm hne)]
    rcases mem_cons.mp hx with rfl | hx
    · rw [ho _ hfr,List.getElem?_set_self hi,hv]
      rfl
    · have hne : info.validatorIndex ≠ x.validatorIndex := fun h =>
        hfr (h ▸ mem_map_of_mem hx)
      rw [hst x hx,List.getElem?_set_ne hne]

theorem updateVotingPower_spec {infos : List VotingPowerInfo}
    (hr : ∀ info ∈ infos, info.validatorIndex < validators.length)
    (hn : (infos.map VotingPowerInfo.validatorIndex).Nodup) :
    ∃ vs, updateVotingPower validators infos = .ok vs ∧ vs.length = validators.length ∧
      (∀ i, stakeAt vs i = stakeAt validators i) ∧
      (∀ i, i ∉ infos.map VotingPowerInfo.validatorIndex → powerAt vs i = 0) ∧
      ∀ info ∈ infos, powerAt vs info.validatorIndex = info.votingPower := by
  obtain ⟨vs,hrn,hl,ho,hs⟩ :=
    setPowers_spec infos.reverse (validators.map fun v => v.setVotingPower 0)
      (fun info h => by simpa using hr info (mem_reverse.mp h))
      (by rw [map_reverse]; exact nodup_reverse.mpr hn)
  have hat : ∀ i, i ∉ infos.map VotingPowerInfo.validatorIndex →
      vs[i]? = validators[i]?.map fun v => v.setVotingPower 0 := fun i hi => by
    rw [ho i (by simpa using hi),List.getElem?_map]
  have hin : ∀ info ∈ infos, vs[info.validatorIndex]? =
      validators[info.validatorIndex]?.map fun v => v.setVotingPower info.votingPower := by
    intro info h
    rw [hs info (mem_reverse.mpr h),List.getElem?_map,Option.map_map]
    rfl
  refine ⟨vs,hrn,by simpa using hl,fun i => ?_,fun i hi => ?_,fun info h => ?_⟩
  · by_cases hi : i ∈ infos.map VotingPowerInfo.validatorIndex
    · obtain ⟨info,h,rfl⟩ := mem_map.mp hi
      rw [stakeAt,hin info h,Option.map_map]
      rfl
    · rw [stakeAt,hat i hi,Option.map_map]
      rfl
  · rw [powerAt,hat i hi,Option.map_map]
    cases validators[i]? <;> rfl
  · rw [powerAt,hin info h,List.getElem?_eq_getElem (hr info h)]
    rfl

theorem take_spec {α : Type} (v : List α) (ix : List Nat) (hr : ∀ i ∈ ix, i < v.length) :
    ∃ xs, take v ix = .ok xs ∧ List.Forall₂ (fun i x => v[i]? = some x) ix xs := by
  refine exists_mapM_forall₂ fun i hi => ?_
  have hg := List.getElem?_eq_getElem (hr i hi)
  exact ⟨_,get_eq_ok.mpr hg,hg⟩

theorem powerAt_of_take {taken : List Validator} (h : take validators members = .ok taken) :
    taken.map Validator.votingPower = members.map (powerAt validators) :=
  map_eq_of_mapM (fun i v hv => by simp [powerAt,get_eq_ok.mp hv]) h

theorem checkPairs_eq_ok {ms : List Validator}
    (h : ∀ a ∈ ms, ∀ b ∈ ms, b.totalStake < a.totalStake → b.votingPower ≤ a.votingPower) :
    checkPairs ms = .ok () := by
  have hp : ∀ a ∈ ms, ∀ b ∈ ms, checkPair a b = .ok () := by
    intro a ha b hb
    have hab : (if b.totalStake < a.totalStake then
        assert (b.votingPower ≤ a.votingPower) Error.relativePowerMismatch else .ok () :
        Tx Unit) = .ok () := by
      split
      · exact assert_eq_ok.mpr (h a ha b hb ‹_›)
      · rfl
    have hba : (if a.totalStake < b.totalStake then
        assert (a.votingPower ≤ b.votingPower) Error.relativePowerMismatch else .ok () :
        Tx Unit) = .ok () := by
      split
      · exact assert_eq_ok.mpr (h b hb a ha ‹_›)
      · rfl
    rw [checkPair,hab,ok_bind,hba]
  clear h
  induction ms with
  | nil => rfl
  | cons a rest ih =>
    have hf : rest.forM (checkPair a) = .ok () := by
      have hal : ∀ b ∈ rest, checkPair a b = .ok () := fun b hb =>
        hp a mem_cons_self b (.tail _ hb)
      clear ih hp
      induction rest with
      | nil => rfl
      | cons b rest ih =>
        change (checkPair a b >>= fun _ => rest.forM (checkPair a)) = _
        rw [hal b mem_cons_self,ok_bind]
        exact ih fun c hc => hal c (.tail _ hc)
    rw [checkPairs,hf,ok_bind]
    exact ih fun b hb c hc => hp b (.tail _ hb) c (.tail _ hc)

theorem sumPowers_eq_ok {ms : List Validator} (hp : ∀ v ∈ ms, 0 < v.votingPower) (acc : Nat)
    (hf : acc + (ms.map Validator.votingPower).sum < 2 ^ 64) :
    ms.foldlM (fun total v => do
      assert (0 < v.votingPower) Error.invalidVotingPower
      add total v.votingPower) acc =
      (.ok (acc + (ms.map Validator.votingPower).sum) : Tx Nat) :=
  foldlM_add (fun v hv _ => by rw [assert_ok (hp v hv)]; rfl) acc hf

theorem checkInvariants_eq_ok (hr : ∀ i ∈ members, i < validators.length)
    (hps : ∀ i ∈ members, 0 < powerAt validators i)
    (hs : (members.map (powerAt validators)).sum = totalVotingPower)
    (hmn : ∀ i ∈ members, ∀ j ∈ members, stakeAt validators j < stakeAt validators i →
      powerAt validators j ≤ powerAt validators i) :
    checkInvariants members validators = .ok () := by
  obtain ⟨ms,ht,hms⟩ := take_spec validators members hr
  have hp := powerAt_of_take ht
  have hm : ∀ v ∈ ms, ∃ i ∈ members, validators[i]? = some v := by
    clear ht hr hps hs hmn hp
    induction hms with
    | nil => exact forall_mem_nil _
    | cons hv _ ih =>
      intro w hw
      rcases mem_cons.mp hw with rfl | hw
      · exact ⟨_,mem_cons_self,hv⟩
      · obtain ⟨i,hi,hw⟩ := ih w hw
        exact ⟨i,mem_cons_of_mem _ hi,hw⟩
  have hposMs : ∀ v ∈ ms, 0 < v.votingPower := by
    intro v hv
    obtain ⟨i,hi,hat⟩ := hm v hv
    simpa [powerAt,hat] using hps i hi
  have htt := sumPowers_eq_ok hposMs 0 (by rw [hp,hs]; decide)
  have hpr : checkPairs ms = .ok () := by
    refine checkPairs_eq_ok fun a ha b hb hlt => ?_
    obtain ⟨i,hi,hati⟩ := hm a ha
    obtain ⟨j,hj,haj⟩ := hm b hb
    have := hmn i hi j hj (by simpa [stakeAt,hati,haj] using hlt)
    simpa [powerAt,hati,haj] using this
  rw [checkInvariants,ht,ok_bind,htt,ok_bind,Nat.zero_add,hp,hs]
  have : (assert (totalVotingPower = totalVotingPower) Error.totalPowerMismatch : Tx Unit) =
      .ok () := assert_eq_ok.mpr rfl
  rw [this,ok_bind,hpr]

/-! ### The assignment -/

theorem stakeAt_le_committeeStake {i : Nat} (hi : i ∈ members) :
    stakeAt validators i ≤ committeeStake validators members :=
  single_le_sum (fun _ _ => Nat.zero_le _) _ (mem_map_of_mem hi)

theorem room_add_powerSum {l : List VotingPowerInfo} (h : ∀ v ∈ l, v.votingPower ≤ threshold) :
    room threshold l + powerSum l = l.length * threshold := by
  induction l with
  | nil => simp [room,powerSum]
  | cons v rest ih =>
    have hv := h v mem_cons_self
    have := ih fun w hw => h w (.tail _ hw)
    simp only [room,powerSum,map_cons,sum_cons,length_cons,Nat.add_mul] at *
    omega

/-- Entries that are sorted by stake and start from their capped shares. -/
structure Initial (validators : List Validator) (members : List Nat) (threshold : Nat)
    (infos : List VotingPowerInfo) : Prop where
  perm : infos.Perm
    (members.map (initialInfo validators (committeeStake validators members) threshold))
  sorted : Sorted infos

theorem Initial.capped {infos : List VotingPowerInfo}
    (h : Initial validators members threshold infos) : Capped threshold infos := by
  have hp : ∀ info ∈ infos, info.votingPower =
      min (info.stake * totalVotingPower / committeeStake validators members) threshold := by
    intro info hi
    obtain ⟨i,-,rfl⟩ := mem_map.mp (h.perm.mem_iff.mp hi)
    rfl
  refine ⟨h.sorted.imp_of_mem fun {a b} ha hb hle => ?_,fun v hv => ?_⟩
  · rw [hp a ha,hp b hb]
    have := Nat.div_le_div_right (c := committeeStake validators members)
      (Nat.mul_le_mul_right totalVotingPower hle)
    omega
  · rw [hp v hv]
    exact Nat.min_le_right _ _

variable (threshold) in
theorem initVotingPowerInfo_spec (hr : ∀ i ∈ members, i < validators.length)
    (hps : 0 < committeeStake validators members)
    (hf : committeeStake validators members < 2 ^ 64) :
    ∃ infos remaining, initVotingPowerInfo members validators threshold = .ok (infos,remaining) ∧
      Initial validators members threshold infos ∧
      powerSum infos + remaining = totalVotingPower := by
  obtain ⟨total,ht⟩ : ∃ t, t = committeeStake validators members := ⟨_,rfl⟩
  rw [← ht] at hps hf
  have hle : powerSum (members.map (initialInfo validators total threshold)) ≤
      totalVotingPower := by
    have := powerSum_initialInfo_le validators threshold total members
    rw [← ht] at this
    exact Nat.le_of_mul_le_mul_left this hps
  have hpw : totalVotingPower < 2 ^ 64 := by decide
  obtain ⟨infos,hrn,hp,hsr⟩ := initLoop_spec threshold members ([],0) hr
    (Nat.pos_iff_ne_zero.mp hps)
    (fun i hi => ht ▸ stakeAt_le_committeeStake hi) List.Pairwise.nil
    (by rw [Nat.zero_add]; exact Nat.lt_of_le_of_lt hle hpw)
  rw [append_nil] at hp
  rw [Nat.zero_add] at hrn
  have hs : powerSum infos = powerSum (members.map (initialInfo validators total threshold)) :=
    (hp.map VotingPowerInfo.votingPower).sum_eq
  have hsb : (sub totalVotingPower (powerSum infos) : Tx Nat) =
      .ok (totalVotingPower - powerSum infos) := sub_eq_ok.mpr ⟨hs ▸ hle,rfl⟩
  have hst : totalCommitteeStake validators members = .ok total := by
    rw [ht]
    exact totalCommitteeStake_eq hr (ht ▸ hf)
  refine ⟨infos,totalVotingPower - powerSum infos,?_,⟨ht ▸ hp,hsr⟩,by omega⟩
  simp only [initVotingPowerInfo,hst,ok_bind,hrn,← hs,hsb]

theorem Adjusted.mono {infos infos' : List VotingPowerInfo} {remaining : Nat}
    (h : Adjusted threshold remaining infos infos') (hsr : Sorted infos) :
    ∀ a ∈ infos', ∀ b ∈ infos', b.stake < a.stake → b.votingPower ≤ a.votingPower := by
  have hs : infos'.Pairwise fun a b => b.stake ≤ a.stake := by
    have hm : (infos'.map VotingPowerInfo.stake).Pairwise fun a b => b ≤ a := by
      rw [h.raised.map_stake]
      exact pairwise_map.mpr hsr
    exact pairwise_map.mp hm
  have hbt := hs.and h.capped.sorted
  clear h hs
  induction hbt with
  | nil => nofun
  | cons hh _ ih =>
    intro a ha b hb hlt
    rcases mem_cons.mp ha with rfl | ha' <;> rcases mem_cons.mp hb with rfl | hb'
    · exact le_rfl
    · exact (hh b hb').2
    · exact absurd (hh a ha').1 (Nat.not_le.mpr hlt)
    · exact ih a ha' b hb' hlt

/-- Powers for a committee: they sum to the total, are positive and capped and follow the stake. -/
structure Assigned (members : List Nat) (validators vs : List Validator) : Prop where
  length : vs.length = validators.length
  stake : ∀ i, stakeAt vs i = stakeAt validators i
  sum : (members.map (powerAt vs)).sum = totalVotingPower
  pos : ∀ i ∈ members, 1 ≤ powerAt vs i
  le : ∀ i ∈ members, powerAt vs i ≤ max maxVotingPower (totalVotingPower ⌈/⌉ members.length)
  mono : ∀ i ∈ members, ∀ j ∈ members, stakeAt validators j < stakeAt validators i →
    powerAt vs j ≤ powerAt vs i
  outside : ∀ i, i ∉ members → powerAt vs i = 0

/-- A committee of distinct validators with a positive total stake that fits into `u64`, each of
them with at least a ten-thousandth of it. -/
structure ValidCommittee (members : List Nat) (validators : List Validator) : Prop where
  nonempty : members ≠ []
  distinct : members.Nodup
  range : ∀ i ∈ members, i < validators.length
  pos : 0 < committeeStake validators members
  fits : committeeStake validators members < 2 ^ 64
  share : ∀ i ∈ members,
    committeeStake validators members ≤ stakeAt validators i * totalVotingPower

theorem setVotingPower_assigned (h : ValidCommittee members validators) :
    ∃ vs, setVotingPower members validators = .ok vs ∧ Assigned members validators vs := by
  have hl : 0 < members.length := length_pos_iff.mpr h.nonempty
  obtain ⟨share,hs⟩ : ∃ s, s = totalVotingPower ⌈/⌉ members.length := ⟨_,rfl⟩
  obtain ⟨threshold,ht⟩ : ∃ t, t = min totalVotingPower (max maxVotingPower share) := ⟨_,rfl⟩
  have hml : totalVotingPower ≤ members.length * share := by
    rw [hs]
    exact (ceilDiv_le_iff_le_mul hl).mp le_rfl
  have hshareLe : share ≤ totalVotingPower := by
    rw [hs]
    exact (ceilDiv_le_iff_le_mul hl).mpr (Nat.le_mul_of_pos_left _ hl)
  have hmx : maxVotingPower ≤ totalVotingPower := by decide
  have hon : 1 ≤ maxVotingPower := by decide
  have hc : threshold = max maxVotingPower share := by omega
  have hsm : totalVotingPower < 2 ^ 63 := by decide
  obtain ⟨infos,remaining,hinit,hit,hsu⟩ := initVotingPowerInfo_spec threshold h.range h.pos h.fits
  have hln : infos.length = members.length := by simpa using hit.perm.length_eq
  have hr : remaining ≤ room threshold infos := by
    have := room_add_powerSum hit.capped.le
    have := Nat.mul_le_mul_left members.length (show share ≤ threshold by omega)
    rw [hln] at *
    omega
  obtain ⟨infos',hru,had⟩ := adjustVotingPower_spec (by omega) (by omega) hit.capped hr
  have hid : (infos'.map VotingPowerInfo.validatorIndex).Perm members := by
    rw [had.raised.map_index]
    have := hit.perm.map VotingPowerInfo.validatorIndex
    rwa [map_map,show VotingPowerInfo.validatorIndex ∘ initialInfo validators
      (committeeStake validators members) threshold = id from rfl,List.map_id] at this
  obtain ⟨vs,hu,hvs,hsk,ho,hin⟩ := updateVotingPower_spec
    (fun info hif => h.range _ (hid.mem_iff.mp (mem_map_of_mem hif)))
    (hid.nodup_iff.mpr h.distinct)
  have he : ∀ i ∈ members, ∃ info ∈ infos', info.validatorIndex = i ∧
      info.stake = stakeAt validators i ∧ 1 ≤ info.votingPower := by
    intro i hi
    obtain ⟨info',hi',rfl⟩ := mem_map.mp (hid.mem_iff.mpr hi)
    obtain ⟨info,hif,hix,hst,hle⟩ := had.raised.exists_of_mem hi'
    obtain ⟨j,hj,rfl⟩ := mem_map.mp (hit.perm.mem_iff.mp hif)
    refine ⟨info',hi',rfl,by rw [hst,hix]; rfl,le_trans ?_ hle⟩
    have := (Nat.one_le_div_iff h.pos).mpr (h.share j hj)
    simp only [initialInfo]
    omega
  have has : Assigned members validators vs := by
    refine ⟨hvs,hsk,?_,fun i hi => ?_,fun i hi => ?_,fun i hi j hj hlt => ?_,
      fun i hi => ho i fun hm => hi (hid.mem_iff.mp hm)⟩
    · have hpw : (infos'.map VotingPowerInfo.validatorIndex).map (powerAt vs) =
          infos'.map VotingPowerInfo.votingPower := by
        rw [map_map]
        exact map_congr_left hin
      rw [← (hid.map (powerAt vs)).sum_eq,hpw]
      have := had.sum
      unfold powerSum at *
      omega
    · obtain ⟨info,hif,rfl,-,hp⟩ := he i hi
      rw [hin info hif]
      exact hp
    · obtain ⟨info,hif,rfl,-⟩ := he i hi
      rw [hin info hif,← hs,← hc]
      exact had.capped.le info hif
    obtain ⟨a,ha,rfl,hsa,-⟩ := he i hi
    obtain ⟨b,hb,rfl,hsb,-⟩ := he j hj
    rw [hin a ha,hin b hb]
    exact had.mono hit.sorted a ha b hb (by omega)
  have hch : checkInvariants members vs = .ok () :=
    checkInvariants_eq_ok (fun i hi => hvs ▸ h.range i hi) has.pos has.sum
      fun i hi j hj hlt => has.mono i hi j hj (by rwa [hsk,hsk] at hlt)
  have hrn : (divideAndRoundUp totalVotingPower members.length : Tx Nat) = .ok share := by
    rw [hs]
    exact divideAndRoundUp_eq _ _ (by omega)
  refine ⟨vs,?_,has⟩
  simp only [setVotingPower,hrn,ok_bind,← ht,hinit,hru,hu,hch]

/-- Three members of whom the largest is far above the cap. -/
theorem setVotingPower_assigned_capped :
    ∃ vs, setVotingPower [2,0,1] ((List.range 4).map fun n => Validator.numbered n (9 ^ n)) =
        .ok vs ∧ Assigned [2,0,1] ((List.range 4).map fun n => Validator.numbered n (9 ^ n)) vs :=
  setVotingPower_assigned ⟨by decide,by decide,by decide,by decide,by decide,by decide⟩

/-- A committee without any stake: every share is zero over zero. -/
theorem setVotingPower_zero_stake :
    let validators := [Validator.numbered 0 0]
    [0] ≠ [] ∧ [0].Nodup ∧ (∀ i ∈ [0], i < validators.length) ∧
      (∀ i ∈ [0], committeeStake validators [0] ≤ stakeAt validators i * totalVotingPower) ∧
      setVotingPower [0] validators = .error .divisionByZero := by
  refine ⟨by decide,by decide,by decide,by decide,by rfl⟩

end Iota.System.VotingPower
