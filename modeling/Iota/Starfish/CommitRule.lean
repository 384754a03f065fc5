import Iota.Starfish.Dag

/-! Which leaders are committed or skipped in a set of headers, with direct decisions from quorums
one and two rounds above the leader and indirect ones from a committed anchor. A round has at most
one decision, whatever parts of the set the decisions were made on. -/
namespace Iota.Starfish
open Universe VerifiedBlockHeader
variable {ctx : Context} (U : Universe ctx) (lead : Nat → Nat)

/-- The ancestors of `c` that have `b` among their own ancestors, by author. -/
def voters (c b : VerifiedBlockHeader) : Finset Nat :=
  ((c.ancestors.filter fun r => (U.get r).any fun v => b.reference ∈ v.ancestors).map
    BlockRef.author).toFinset

def Certifies (c b : VerifiedBlockHeader) : Prop := ctx.committee.IsQuorum (voters U c b)

def Blames (v : VerifiedBlockHeader) (leader : Nat) : Prop := ∀ a ∈ v.ancestors, a.author ≠ leader

instance (c b : VerifiedBlockHeader) : Decidable (Certifies U c b) :=
  inferInstanceAs (Decidable (ctx.committee.IsQuorum _))

instance (v : VerifiedBlockHeader) (leader : Nat) : Decidable (Blames v leader) :=
  inferInstanceAs (Decidable (∀ a ∈ v.ancestors, a.author ≠ leader))

/-- A quorum of authors has a header of round `r` that satisfies `p`. -/
def QuorumAt (r : Nat) (p : VerifiedBlockHeader → Prop) : Prop :=
  ∃ q, ctx.committee.IsQuorum q ∧ ∀ a ∈ q, ∃ h ∈ U, h.author = a ∧ h.round = r ∧ p h

/-- `b` is a block of the leader slot of round `r` with its causal history present. -/
structure LeaderBlock (r : Nat) (b : VerifiedBlockHeader) : Prop where
  mem : b ∈ U
  slot_eq : b.slot = ⟨r,lead r⟩
  complete : U.Complete b

/-- The decision on the leader of a round: the committed block, or none for a skip. -/
inductive Decided : Nat → Option VerifiedBlockHeader → Prop
  | directCommit {r b} : LeaderBlock U lead r b → QuorumAt U (r+2) (Certifies U · b) →
      Decided r (some b)
  | directSkip {r} : QuorumAt U (r+1) (Blames · (lead r)) → Decided r none
  | indirectCommit {r n anchor c b} : r + waveLength ≤ n → Decided n (some anchor) →
      (∀ m, r + waveLength ≤ m → m < n → Decided m none) → LeaderBlock U lead r b →
      U.Reaches anchor c → c.round = r+2 → Certifies U c b → Decided r (some b)
  | indirectSkip {r n anchor} : r + waveLength ≤ n → Decided n (some anchor) →
      (∀ m, r + waveLength ≤ m → m < n → Decided m none) →
      (∀ c b, LeaderBlock U lead r b → U.Reaches anchor c → c.round = r+2 → ¬Certifies U c b) →
      Decided r none

variable {U lead} {r : Nat}

theorem Decided.leaderBlock {b : VerifiedBlockHeader} (h : Decided U lead r (some b)) :
    LeaderBlock U lead r b := by
  cases h with
  | directCommit hb _ => exact hb
  | indirectCommit _ _ _ hb _ _ _ => exact hb

variable {c b : VerifiedBlockHeader}

theorem mem_voters {a : Nat} :
    a ∈ voters U c b ↔ ∃ v, U.Parent c v ∧ v.author = a ∧ b.reference ∈ v.ancestors := by
  simp only [voters,List.mem_toFinset,List.mem_map,List.mem_filter]
  constructor
  · rintro ⟨r,⟨hr,hv⟩,rfl⟩
    obtain ⟨v,hg,hm⟩ : ∃ v, U.get r = some v ∧ b.reference ∈ v.ancestors := by
      simpa [Option.any_eq_true] using hv
    have hvr := U.reference_eq hg
    exact ⟨v,⟨mem_of_get hg,by rwa [hvr]⟩,congrArg BlockRef.author hvr,hm⟩
  rintro ⟨v,⟨hv,hr⟩,rfl,hb⟩
  refine ⟨v.reference,⟨hr,?_⟩,rfl⟩
  rw [mem_def.mp hv]
  simpa using hb

theorem vote_round {c b v : VerifiedBlockHeader} (hc : c ∈ U) (hcr : c.round = b.round+2)
    (hv : U.Parent c v) (hb : b.reference ∈ v.ancestors) : v.round = b.round+1 := by
  have h1 := hv.round_lt hc
  have h2 := ancestor_round_lt hv.1 hb
  rw [reference_round] at h2
  omega

theorem Certifies.round_le (hc : c ∈ U) (h : Certifies U c b) : b.round+2 ≤ c.round := by
  obtain ⟨a,ha⟩ := Committee.IsQuorum.nonempty h
  obtain ⟨v,hv,-,hb⟩ := mem_voters.mp ha
  have h1 := hv.round_lt hc
  have h2 := ancestor_round_lt hv.1 hb
  rw [reference_round] at h2
  omega

section Agreement
variable {byzantine : Finset Nat} (hbound : ctx.committee.FaultBound byzantine)
  (hunique : U.HonestUnique byzantine)

include hbound hunique

theorem certified_unique {c c' b b' : VerifiedBlockHeader} (hb : b ∈ U) (hb' : b' ∈ U)
    (hs : b.slot = b'.slot) (hc : c ∈ U) (hc' : c' ∈ U) (hcr : c.round = b.round+2)
    (hcr' : c'.round = b'.round+2) (hct : Certifies U c b) (hct' : Certifies U c' b') : b = b' := by
  obtain ⟨a,ha,ha',hh⟩ := Committee.IsQuorum.exists_honest_inter hct hct' hbound
  obtain ⟨v,hv,hva,hvb⟩ := mem_voters.mp ha
  obtain ⟨v',hv',hva',hvb'⟩ := mem_voters.mp ha'
  have hr : b.round = b'.round := congrArg Slot.round hs
  have hat : b.author = b'.author := congrArg Slot.authority hs
  have hvr := vote_round hc hcr hv hvb
  have hvr' := vote_round hc' hcr' hv' hvb'
  -- the common honest voter has one block of the voting round
  have hvv : v = v' := by
    refine hunique v hv.1 v' hv'.1 (by rwa [hva]) ?_
    unfold slot
    rw [hva,hva',hvr,hvr',hr]
  subst hvv
  exact eq_of_reference_eq hb hb' (ancestor_eq_of_author_eq hv.1 hvb hvb' hat)

theorem not_quorum_blame (hc : c ∈ U) (hcr : c.round = b.round+2)
    (hct : Certifies U c b) : ¬QuorumAt U (b.round+1) (Blames · b.author) := by
  rintro ⟨q,hq,hb⟩
  obtain ⟨a,ha,haq,hh⟩ := Committee.IsQuorum.exists_honest_inter hct hq hbound
  obtain ⟨v,hv,hva,hvb⟩ := mem_voters.mp ha
  obtain ⟨v',hv',hva',hvr',hbl⟩ := hb a haq
  have hvr := vote_round hc hcr hv hvb
  have hvv : v = v' := by
    refine hunique v hv.1 v' hv' (by rwa [hva]) ?_
    unfold slot
    rw [hva,hva',hvr,hvr']
  subst hvv
  exact hbl _ hvb rfl

/-- With a quorum of certificates for `b`, every complete header from the next round on has one of
them in its history. -/
theorem exists_certificate_in_history {b anchor : VerifiedBlockHeader}
    (hq : QuorumAt U (b.round+2) (Certifies U · b)) (ha : anchor ∈ U)
    (hcm : U.Complete anchor) (hr : b.round + waveLength ≤ anchor.round) :
    ∃ c, U.Reaches anchor c ∧ c.round = b.round+2 ∧ Certifies U c b := by
  obtain ⟨x,hx,hxr⟩ := hcm.exists_reaches_round ha hr
  have hxU : x ∈ U := hx.mem ha
  have hx0 : x.round ≠ genesisRound := by
    unfold waveLength at hxr
    unfold genesisRound
    omega
  obtain ⟨q,hqq,hce⟩ := hq
  obtain ⟨a,hap,haq,hh⟩ :=
    Committee.IsQuorum.exists_honest_inter (parentAuthors_isQuorum hxU hx0) hqq hbound
  simp only [parentAuthors,List.mem_toFinset,List.mem_map,List.mem_filter,
    decide_eq_true_eq] at hap
  obtain ⟨r,⟨hrx,hrr⟩,hra⟩ := hap
  obtain ⟨p,hp,hpr⟩ := (hcm.of_reaches hx).exists_parent hrx
  obtain ⟨c,hc,hca,hcr,hct⟩ := hce a haq
  have hpn : p.round = b.round+2 := by
    have h1 : p.round = x.round - 1 := by rw [← hrr,← hpr]; rfl
    unfold waveLength at hxr
    omega
  have hpt : p.author = a := by rw [← hra,← hpr]; rfl
  -- the honest parent is the certificate
  have hpc : p = c := by
    refine hunique p hp.1 c hc (by rwa [hpt]) ?_
    unfold slot
    rw [hpn,hpt,hcr,hca]
  subst hpc
  exact ⟨p,hx.tail hp,hcr,hct⟩

omit hunique in
theorem Decided.exists_certificate {b : VerifiedBlockHeader}
    (h : Decided U lead r (some b)) : ∃ c ∈ U, c.round = b.round+2 ∧ Certifies U c b := by
  have hbr : b.round = r := congrArg Slot.round h.leaderBlock.slot_eq
  cases h with
  | directCommit hb hq =>
    obtain ⟨q,hqq,hce⟩ := hq
    obtain ⟨a,ha,-⟩ := hqq.exists_honest hbound
    obtain ⟨c,hc,-,hcr,hct⟩ := hce a ha
    exact ⟨c,hc,by omega,hct⟩
  | indirectCommit _ han _ hb hr hcr hct =>
    exact ⟨_,hr.mem han.leaderBlock.mem,by omega,hct⟩

theorem Decided.commit_unique {b b' : VerifiedBlockHeader}
    (h : Decided U lead r (some b)) (h' : Decided U lead r (some b')) : b = b' := by
  obtain ⟨c,hc,hcr,hct⟩ := Decided.exists_certificate hbound h
  obtain ⟨c',hc',hcr',hct'⟩ := Decided.exists_certificate hbound h'
  have hs : b.slot = b'.slot := h.leaderBlock.slot_eq.trans h'.leaderBlock.slot_eq.symm
  exact certified_unique hbound hunique h.leaderBlock.mem h'.leaderBlock.mem hs hc hc' hcr hcr'
    hct hct'

theorem Decided.not_directSkip {b : VerifiedBlockHeader}
    (h : Decided U lead r (some b)) : ¬QuorumAt U (r+1) (Blames · (lead r)) := by
  obtain ⟨c,hc,hcr,hct⟩ := Decided.exists_certificate hbound h
  have hbr : b.round = r := congrArg Slot.round h.leaderBlock.slot_eq
  have hba : b.author = lead r := congrArg Slot.authority h.leaderBlock.slot_eq
  rw [← hba,← hbr]
  exact not_quorum_blame hbound hunique hc hcr hct

theorem directCommit_not_indirectSkip {r n : Nat} {b anchor : VerifiedBlockHeader}
    (hb : LeaderBlock U lead r b) (hq : QuorumAt U (r+2) (Certifies U · b))
    (hn : r + waveLength ≤ n) (ha : Decided U lead n (some anchor))
    (hnn : ∀ c b, LeaderBlock U lead r b → U.Reaches anchor c → c.round = r+2 →
      ¬Certifies U c b) : False := by
  have hbr : b.round = r := congrArg Slot.round hb.slot_eq
  have har : anchor.round = n := congrArg Slot.round ha.leaderBlock.slot_eq
  obtain ⟨c,hc,hcr,hct⟩ := exists_certificate_in_history hbound hunique (by rwa [hbr])
    ha.leaderBlock.mem ha.leaderBlock.complete (by rwa [hbr,har])
  exact hnn c b hb hc (by rw [hcr,hbr]) hct

/-- A round has one decision. The induction is on the first derivation: it ends at an anchor, and
two derivations of the same round have the same first committed anchor. -/
theorem Decided.agree {v v' : Option VerifiedBlockHeader} (h : Decided U lead r v)
    (h' : Decided U lead r v') : v = v' := by
  induction h generalizing v' with
  | @directCommit r b hb hq =>
    have hd : Decided U lead r (some b) := .directCommit hb hq
    cases v' with
    | some b' => exact congrArg some (Decided.commit_unique hbound hunique hd h')
    | none =>
      cases h' with
      | directSkip hbl => exact absurd hbl (Decided.not_directSkip hbound hunique hd)
      | indirectSkip hn ha hs hnn =>
        exact (directCommit_not_indirectSkip hbound hunique hb hq hn ha hnn).elim
  | @directSkip r hbl =>
    cases v' with
    | none => rfl
    | some b' => exact absurd hbl (Decided.not_directSkip hbound hunique h')
  | @indirectCommit r n anchor c b hn ha hs hb hc hcr hct iha ihs =>
    have hd : Decided U lead r (some b) := .indirectCommit hn ha hs hb hc hcr hct
    cases v' with
    | some b' => exact congrArg some (Decided.commit_unique hbound hunique hd h')
    | none =>
      cases h' with
      | directSkip hbl => exact absurd hbl (Decided.not_directSkip hbound hunique hd)
      | @indirectSkip _ n' anchor' hn' ha' hs' hnn =>
        rcases Nat.lt_trichotomy n n' with hlt | heq | hgt
        · exact absurd (iha (hs' n hn hlt)) (by simp)
        · subst heq
          obtain rfl : anchor = anchor' := Option.some.inj (iha ha')
          exact absurd hct (hnn c b hb hc hcr)
        · exact absurd (ihs n' hn' hgt ha') (by simp)
  | @indirectSkip r n anchor hn ha hs hnn iha ihs =>
    cases v' with
    | none => rfl
    | some b' =>
      cases h' with
      | directCommit hb' hq' =>
        exact (directCommit_not_indirectSkip hbound hunique hb' hq' hn ha hnn).elim
      | @indirectCommit _ n' anchor' c b hn' ha' hs' hb hc hcr hct =>
        rcases Nat.lt_trichotomy n n' with hlt | heq | hgt
        · exact absurd (iha (hs' n hn hlt)) (by simp)
        · subst heq
          obtain rfl : anchor = anchor' := Option.some.inj (iha ha')
          exact absurd hct (hnn c _ hb hc hcr)
        · exact absurd (ihs n' hn' hgt ha') (by simp)

end Agreement
end Iota.Starfish
