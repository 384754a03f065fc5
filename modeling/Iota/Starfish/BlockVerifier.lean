import Iota.Starfish.Context

/-! `SignedBlockVerifier::verify` on headers as they arrive from the network, with its panics, and
what an accepted header satisfies. -/
namespace Iota.Starfish
open List
variable {as : List BlockRef} {seen : Finset Nat}

inductive ConsensusError
  | wrongEpoch (expected actual : Nat)
  | unexpectedGenesisHeader
  | invalidAuthorityIndex (index : Nat) (max : Nat)
  | signatureVerificationFailure
  | tooManyAncestors (count limit : Nat)
  | insufficientParentStakes (parentStakes quorum : Nat)
  | invalidAncestorPosition (blockAuthority ancestorAuthority : Nat) (position : Nat)
  | invalidAncestorRound (ancestor block : Nat)
  | invalidGenesisAncestor (ancestor : BlockRef)
  | duplicatedAncestorsAuthority (author : Nat)
deriving DecidableEq, Repr

inductive VerifyFailure
  | error (e : ConsensusError)
  | panic (p : Panic)
deriving DecidableEq, Repr

def Context.genesisRefs (ctx : Context) : List BlockRef :=
  ctx.genesisHeaders.map VerifiedBlockHeader.reference

namespace BlockVerifier
variable (ctx : Context) (block : BlockHeader)

/-- The loop over the ancestors, from position `i` on. The validity check at its head reads the
author of the block, as in the source, so an ancestor's author is first used as an index into
`seen_ancestors`, which panics outside the committee. -/
def checkAncestors : Nat → List BlockRef → Finset Nat → Nat →
    Except VerifyFailure Nat
  | _, [], _, parentStakes => .ok parentStakes
  | i, a :: as, seen, parentStakes =>
    if ctx.committee.isValidIndex block.author = false then
      .error (.error (.invalidAuthorityIndex block.author ctx.committee.size))
    else if i = 0 ∧ a.author ≠ block.author ∨ 0 < i ∧ a.author = block.author then
      .error (.error (.invalidAncestorPosition block.author a.author i))
    else if block.round ≤ a.round then
      .error (.error (.invalidAncestorRound a.round block.round))
    else if a.round = genesisRound ∧ a ∉ ctx.genesisRefs then
      .error (.error (.invalidGenesisAncestor a))
    else if ctx.committee.size ≤ a.author then .error (.panic .authorityOutOfRange)
    else if a.author ∈ seen then .error (.error (.duplicatedAncestorsAuthority a.author))
    else checkAncestors (i+1) as (insert a.author seen)
      (if a.round = block.round - 1 then parentStakes + ctx.committee.stake a.author
        else parentStakes)

def checkParents (ancestors : List BlockRef) : Except VerifyFailure Unit :=
  if ctx.committee.size < ancestors.length then
    .error (.error (.tooManyAncestors ancestors.length ctx.committee.size))
  else if ancestors = [] then
    .error (.error (.insufficientParentStakes 0 ctx.committee.quorumThreshold))
  else
    match checkAncestors ctx block 0 ancestors ∅ 0 with
    | .error f => .error f
    | .ok parentStakes =>
      if ctx.committee.reachedQuorum parentStakes then .ok ()
      else .error (.error (.insufficientParentStakes parentStakes ctx.committee.quorumThreshold))

def verify (signed : SignedBlockHeader) : Except VerifyFailure Unit :=
  let block := signed.inner
  if block.epoch ≠ ctx.committee.epoch then
    .error (.error (.wrongEpoch ctx.committee.epoch block.epoch))
  else if block.round = 0 then .error (.error .unexpectedGenesisHeader)
  else if ctx.committee.isValidIndex block.author = false then
    .error (.error (.invalidAuthorityIndex block.author ctx.committee.size))
  else if ctx.verifySignature signed = false then .error (.error .signatureVerificationFailure)
  else
    match block.ancestors with
    | .error p => .error (.panic p)
    | .ok ancestors => checkParents ctx block ancestors

/-- The ancestor at position `i` passes the checks made before its author is used as an index. -/
structure AncestorPasses (i : Nat) (a : BlockRef) : Prop where
  position : i = 0 ↔ a.author = block.author
  round_lt : a.round < block.round
  genesis : a.round = genesisRound → a ∈ ctx.genesisRefs

/-- The ancestors, from position `i` on, pass the whole loop body when the authors of `seen` have
been met before. -/
structure Scanned (i : Nat) (as : List BlockRef) (seen : Finset Nat) : Prop where
  passes : ∀ j a, as[j]? = some a → AncestorPasses ctx block (i + j) a
  author_lt : ∀ a ∈ as, a.author < ctx.committee.size
  nodup : (as.map BlockRef.author).Nodup
  fresh : ∀ a ∈ as, a.author ∉ seen

def parentStake (as : List BlockRef) : Nat :=
  ((as.filter fun a => a.round = block.round - 1).map fun a => ctx.committee.stake a.author).sum

variable {ctx block}

theorem scanned_nil (i : Nat) (seen : Finset Nat) : Scanned ctx block i [] seen where
  passes j a h := by simp at h
  author_lt := by simp
  nodup := by simp
  fresh := by simp

variable {a : BlockRef} {i : Nat}

theorem scanned_cons {as : List BlockRef} {seen : Finset Nat} :
    Scanned ctx block i (a :: as) seen ↔ AncestorPasses ctx block i a ∧
      a.author < ctx.committee.size ∧ a.author ∉ seen ∧
      Scanned ctx block (i+1) as (insert a.author seen) := by
  constructor
  · rintro ⟨hp,hv,hn,hf⟩
    simp only [map_cons,nodup_cons,mem_map,not_exists,not_and] at hn
    refine ⟨by simpa using hp 0 a rfl,hv a (by simp),hf a (by simp),?_,?_,hn.2,?_⟩
    · intro j b hb
      have := hp (j+1) b (by simpa using hb)
      rwa [show i + 1 + j = i + (j+1) by omega]
    · exact fun b hb => hv b (.tail _ hb)
    intro b hb
    simp only [Finset.mem_insert,not_or]
    exact ⟨hn.1 b hb,hf b (.tail _ hb)⟩
  · rintro ⟨ha,hv,hs,⟨hp,hv',hn,hf⟩⟩
    refine ⟨?_,?_,?_,?_⟩
    · intro j b hb
      cases j with
      | zero =>
        obtain rfl : a = b := by simpa using hb
        exact ha
      | succ j =>
        have := hp j b (by simpa using hb)
        rwa [show i + 1 + j = i + (j+1) by omega] at this
    · rintro b hb
      rcases mem_cons.mp hb with rfl | hb
      exacts [hv,hv' b hb]
    · simp only [map_cons,nodup_cons,mem_map,not_exists,not_and]
      exact ⟨fun b hb heq => hf b hb (by simp [heq]),hn⟩
    rintro b hb
    rcases mem_cons.mp hb with rfl | hb
    · exact hs
    · exact fun hm => hf b hb (Finset.mem_insert_of_mem hm)

theorem checkAncestors_cons
    {stakes : Nat} (hv : block.author < ctx.committee.size) (ha : AncestorPasses ctx block i a) :
    checkAncestors ctx block i (a :: as) seen stakes =
      if ctx.committee.size ≤ a.author then .error (.panic .authorityOutOfRange)
      else if a.author ∈ seen then .error (.error (.duplicatedAncestorsAuthority a.author))
      else checkAncestors ctx block (i+1) as (insert a.author seen)
        (if a.round = block.round - 1 then stakes + ctx.committee.stake a.author else stakes) := by
  obtain ⟨hps,hr,hg⟩ := ha
  have hp : ¬(i = 0 ∧ a.author ≠ block.author ∨ 0 < i ∧ a.author = block.author) := by
    rintro (⟨h,hne⟩ | ⟨h,he⟩)
    · exact hne (hps.mp h)
    · exact h.ne' (hps.mpr he)
  rw [checkAncestors,if_neg (by simpa using hv),if_neg hp,if_neg (by omega),
    if_neg (fun h => h.2 (hg h.1))]

theorem checkAncestors_cons_error {stakes : Nat} (ha : ¬AncestorPasses ctx block i a) :
    ∃ e, checkAncestors ctx block i (a :: as) seen stakes = .error (.error e) := by
  by_cases hp : i = 0 ∧ a.author ≠ block.author ∨ 0 < i ∧ a.author = block.author
  · rw [checkAncestors,if_pos hp]
    split <;> exact ⟨_,rfl⟩
  by_cases hr : block.round ≤ a.round
  · rw [checkAncestors,if_neg hp,if_pos hr]
    split <;> exact ⟨_,rfl⟩
  by_cases hg : a.round = genesisRound ∧ a ∉ ctx.genesisRefs
  · rw [checkAncestors,if_neg hp,if_neg hr,if_pos hg]
    split <;> exact ⟨_,rfl⟩
  refine absurd ⟨⟨fun h => ?_,fun h => ?_⟩,by omega,fun h => ?_⟩ ha
  · exact not_not.mp fun hn => hp (.inl ⟨h,hn⟩)
  · exact not_not.mp fun hn => hp (.inr ⟨by omega,h⟩)
  · exact not_not.mp fun hn => hg ⟨h,hn⟩

theorem checkAncestors_ok_iff (hv : block.author < ctx.committee.size) {stakes s : Nat} :
    checkAncestors ctx block i as seen stakes = .ok s ↔
      Scanned ctx block i as seen ∧ s = stakes + parentStake ctx block as := by
  induction as generalizing i seen stakes with
  | nil =>
    simp only [checkAncestors,scanned_nil,parentStake,true_and]
    exact ⟨fun h => by simpa using (Except.ok.inj h).symm,fun h => by simp [h]⟩
  | cons a as ih =>
    by_cases ha : AncestorPasses ctx block i a
    · rw [checkAncestors_cons hv ha,scanned_cons]
      by_cases hl : ctx.committee.size ≤ a.author
      · simp [hl]
      by_cases hm : a.author ∈ seen
      · simp [hl,hm]
      rw [if_neg hl,if_neg hm,ih]
      have hs : (if a.round = block.round - 1 then stakes + ctx.committee.stake a.author
          else stakes) + parentStake ctx block as = stakes + parentStake ctx block (a :: as) := by
        unfold parentStake
        by_cases hr : a.round = block.round - 1 <;> simp [hr,add_assoc]
      rw [hs]
      simp [ha,hm,Nat.lt_of_not_le hl]
    · obtain ⟨e,he⟩ : ∃ e, checkAncestors ctx block i (a :: as) seen stakes = .error (.error e) :=
        checkAncestors_cons_error ha
      rw [he,scanned_cons]
      simp [ha]

theorem checkAncestors_panic_iff (hv : block.author < ctx.committee.size) {stakes : Nat} :
    (∃ p, checkAncestors ctx block i as seen stakes = .error (.panic p)) ↔
      ∃ pre a post, as = pre ++ a :: post ∧ Scanned ctx block i pre seen ∧
        AncestorPasses ctx block (i + pre.length) a ∧ ctx.committee.size ≤ a.author := by
  induction as generalizing i seen stakes with
  | nil => simp [checkAncestors]
  | cons a as ih =>
    by_cases ha : AncestorPasses ctx block i a
    · rw [checkAncestors_cons hv ha]
      by_cases hl : ctx.committee.size ≤ a.author
      · simp only [hl,if_true]
        refine ⟨fun _ => ⟨[],a,as,rfl,scanned_nil _ _,?_,hl⟩,fun _ => ⟨_,rfl⟩⟩
        simpa using ha
      -- a panic beyond `a` is one of the rest of the loop
      have hsp : (∃ pre b post, a :: as = pre ++ b :: post ∧ Scanned ctx block i pre seen ∧
            AncestorPasses ctx block (i + pre.length) b ∧ ctx.committee.size ≤ b.author) ↔
          a.author ∉ seen ∧ ∃ pre b post, as = pre ++ b :: post ∧
            Scanned ctx block (i+1) pre (insert a.author seen) ∧
            AncestorPasses ctx block (i + 1 + pre.length) b ∧ ctx.committee.size ≤ b.author := by
        constructor
        · rintro ⟨pre,b,post,heq,hs,hb,hlb⟩
          cases pre with
          | nil =>
            obtain rfl : a = b := by simpa using congrArg List.head? heq
            exact absurd hlb hl
          | cons x pre =>
            obtain ⟨rfl,rfl⟩ : a = x ∧ as = pre ++ b :: post := by simpa using heq
            have hs' := scanned_cons.mp hs
            exact ⟨hs'.2.2.1,pre,b,post,rfl,hs'.2.2.2,by
              rwa [length_cons,show i + (pre.length+1) = i + 1 + pre.length by omega] at hb,
              hlb⟩
        · rintro ⟨hm,pre,b,post,rfl,hs,hb,hlb⟩
          refine ⟨a :: pre,b,post,rfl,scanned_cons.mpr ⟨ha,by omega,hm,hs⟩,?_,hlb⟩
          rwa [length_cons,show i + (pre.length+1) = i + 1 + pre.length by omega]
      rw [hsp,if_neg hl]
      by_cases hm : a.author ∈ seen
      · simp [hm]
      · simp only [hm,if_false,not_false_eq_true,true_and]
        exact ih
    · obtain ⟨e,he⟩ : ∃ e, checkAncestors ctx block i (a :: as) seen stakes = .error (.error e) :=
        checkAncestors_cons_error ha
      rw [he]
      refine ⟨by simp,?_⟩
      rintro ⟨pre,b,post,heq,hs,hb,-⟩
      cases pre with
      | nil =>
        obtain rfl : a = b := by simpa using congrArg List.head? heq
        exact absurd (by simpa using hb) ha
      | cons x pre =>
        obtain ⟨rfl,-⟩ : a = x ∧ as = pre ++ b :: post := by simpa using heq
        exact absurd (scanned_cons.mp hs).1 ha

variable (ctx)

/-- The checks of a header made before its ancestors are read. -/
structure PassesHead (signed : SignedBlockHeader) : Prop where
  epoch_eq : signed.inner.epoch = ctx.committee.epoch
  round_ne_zero : signed.inner.round ≠ 0
  author_lt : signed.inner.author < ctx.committee.size
  signature : ctx.verifySignature signed = true

structure ValidHeader (signed : SignedBlockHeader) (ancestors : List BlockRef) : Prop
    extends PassesHead ctx signed where
  ancestors_eq : signed.inner.ancestors = .ok ancestors
  length_le : ancestors.length ≤ ctx.committee.size
  scanned : Scanned ctx signed.inner 0 ancestors ∅
  quorum : ctx.committee.quorumThreshold ≤ parentStake ctx signed.inner ancestors

variable {ctx} {signed : SignedBlockHeader}

theorem verify_of_passesHead (h : PassesHead ctx signed) :
    verify ctx signed = match signed.inner.ancestors with
      | .error p => .error (.panic p)
      | .ok ancestors => checkParents ctx signed.inner ancestors := by
  have hv : ctx.committee.isValidIndex signed.inner.author = true := by simpa using h.author_lt
  simp only [verify,h.epoch_eq,h.round_ne_zero,hv,h.signature,ne_eq,not_true_eq_false,
    Bool.true_eq_false,if_false]

theorem verify_of_not_passesHead (h : ¬PassesHead ctx signed) :
    ∃ e, verify ctx signed = .error (.error e) := by
  unfold verify
  by_cases he : signed.inner.epoch = ctx.committee.epoch
  swap
  · exact ⟨_,if_pos he⟩
  by_cases hr : signed.inner.round = 0
  · simp [he,hr]
  by_cases hv : ctx.committee.isValidIndex signed.inner.author = false
  · simp [he,hr,hv]
  by_cases hs : ctx.verifySignature signed = false
  · simp [he,hr,hv,hs]
  · exact absurd ⟨he,hr,by simpa using hv,by simpa using hs⟩ h

theorem checkParents_ok_iff (hv : block.author < ctx.committee.size) {as : List BlockRef} :
    checkParents ctx block as = .ok () ↔ as.length ≤ ctx.committee.size ∧
      Scanned ctx block 0 as ∅ ∧ ctx.committee.quorumThreshold ≤ parentStake ctx block as := by
  unfold checkParents
  by_cases hl : ctx.committee.size < as.length
  · simp [hl]
  by_cases hn : as = []
  · subst hn
    simp [parentStake,Committee.quorumThreshold]
  rw [if_neg hl,if_neg hn]
  simp only [Nat.le_of_not_lt hl,true_and]
  cases hc : checkAncestors ctx block 0 as ∅ 0 with
  | error f =>
    refine ⟨by simp,fun h => ?_⟩
    have hok : checkAncestors ctx block 0 as ∅ 0 = .ok (0 + parentStake ctx block as) :=
      (checkAncestors_ok_iff hv).mpr ⟨h.1,rfl⟩
    simp [hc] at hok
  | ok s =>
    obtain ⟨hs,rfl⟩ := (checkAncestors_ok_iff hv).mp hc
    simp only [Nat.zero_add,hs,true_and]
    by_cases hq : ctx.committee.quorumThreshold ≤ parentStake ctx block as <;>
      simp [Committee.reachedQuorum,hq]

theorem verify_ok_iff :
    verify ctx signed = .ok () ↔ ∃ ancestors, ValidHeader ctx signed ancestors := by
  by_cases h : PassesHead ctx signed
  · rw [verify_of_passesHead h]
    cases ha : signed.inner.ancestors with
    | error p => exact ⟨by simp,fun ⟨as,hv⟩ => by simp [hv.ancestors_eq] at ha⟩
    | ok as =>
      simp only [checkParents_ok_iff h.author_lt]
      constructor
      · exact fun ⟨hl,hs,hq⟩ => ⟨as,h,ha,hl,hs,hq⟩
      rintro ⟨as',hv⟩
      obtain rfl : as = as' := Except.ok.inj (ha.symm.trans hv.ancestors_eq)
      exact ⟨hv.length_le,hv.scanned,hv.quorum⟩
  · obtain ⟨e,he⟩ := verify_of_not_passesHead h
    exact ⟨by simp [he],fun ⟨_,hv⟩ => absurd hv.toPassesHead h⟩

theorem verify_panic_iff :
    (∃ p, verify ctx signed = .error (.panic p)) ↔ PassesHead ctx signed ∧
      ((∃ p, signed.inner.ancestors = .error p) ∨
        ∃ pre a post, signed.inner.ancestors = .ok (pre ++ a :: post) ∧
          (pre ++ a :: post).length ≤ ctx.committee.size ∧ Scanned ctx signed.inner 0 pre ∅ ∧
          AncestorPasses ctx signed.inner pre.length a ∧ ctx.committee.size ≤ a.author) := by
  by_cases h : PassesHead ctx signed
  swap
  · obtain ⟨e,he⟩ := verify_of_not_passesHead h
    simp [he,h]
  rw [verify_of_passesHead h]
  cases ha : signed.inner.ancestors with
  | error p => simp [h]
  | ok as =>
    have hpn : (∃ p, checkAncestors ctx signed.inner 0 as ∅ 0 = .error (.panic p)) ↔ _ :=
      checkAncestors_panic_iff h.author_lt
    simp only [Nat.zero_add] at hpn
    simp only [h,true_and,reduceCtorEq,exists_false,false_or,Except.ok.injEq]
    unfold checkParents
    by_cases hl : ctx.committee.size < as.length
    · rw [if_pos hl]
      refine ⟨by simp,?_⟩
      rintro ⟨pre,a,post,rfl,hle,-⟩
      omega
    by_cases hn : as = []
    · subst hn
      simp
    rw [if_neg hl,if_neg hn]
    have hm : (∃ p, (match checkAncestors ctx signed.inner 0 as ∅ 0 with
        | .error f => .error f
        | .ok s => if ctx.committee.reachedQuorum s then .ok ()
          else .error (.error (.insufficientParentStakes s ctx.committee.quorumThreshold)) :
            Except VerifyFailure Unit) = .error (.panic p)) ↔
        ∃ p, checkAncestors ctx signed.inner 0 as ∅ 0 = .error (.panic p) := by
      cases checkAncestors ctx signed.inner 0 as ∅ 0 with
      | error f => simp
      | ok s => by_cases hq : ctx.committee.reachedQuorum s <;> simp [hq]
    rw [hm,hpn]
    constructor
    · rintro ⟨pre,a,post,rfl,hs,hp,hc⟩
      exact ⟨pre,a,post,rfl,by omega,hs,hp,hc⟩
    · rintro ⟨pre,a,post,rfl,-,hs,hp,hc⟩
      exact ⟨pre,a,post,rfl,hs,hp,hc⟩

/-- What the verifier promises about a header: it returns, and a header it accepts has all its
references in the committee, ancestors by distinct authors with its own first, at lower rounds, a
quorum of parents, and both slices in range. -/
structure TotalAndSound (ctx : Context) (signed : SignedBlockHeader) : Prop where
  total : ∀ p, verify ctx signed ≠ .error (.panic p)
  sound : verify ctx signed = .ok () → ∃ ancestors acknowledgments,
    signed.inner.ancestors = .ok ancestors ∧
    signed.inner.acknowledgments = .ok acknowledgments ∧
    (∀ a ∈ ancestors ++ acknowledgments, ctx.committee.isValidIndex a.author) ∧
    (ancestors.map BlockRef.author).Nodup ∧
    ancestors.head?.map BlockRef.author = some signed.inner.author ∧
    (∀ a ∈ ancestors, a.round < signed.inner.round) ∧
    ctx.committee.reachedQuorum (parentStake ctx signed.inner ancestors)

/-- The headers the verifier handles as promised: the ancestor slice is in range, the loop reaches
no ancestor from outside the committee, and the acknowledgments of a header that passes every
check are in range and name committee members. -/
structure HandledSafely (ctx : Context) (signed : SignedBlockHeader) : Prop where
  ancestors_inRange : signed.inner.overlapEndIndex ≤ signed.inner.references.length
  reached_author_lt : ∀ pre a post, signed.inner.ancestors = .ok (pre ++ a :: post) →
    (pre ++ a :: post).length ≤ ctx.committee.size → Scanned ctx signed.inner 0 pre ∅ →
    AncestorPasses ctx signed.inner pre.length a → a.author < ctx.committee.size
  acknowledgments_inRange : ∀ ancestors, ValidHeader ctx signed ancestors →
    signed.inner.overlapStartIndex ≤ signed.inner.references.length
  acknowledgment_author_lt : ∀ ancestors, ValidHeader ctx signed ancestors →
    ∀ a ∈ signed.inner.references.drop signed.inner.overlapStartIndex,
      a.author < ctx.committee.size

theorem ValidHeader.ne_nil {as : List BlockRef} (h : ValidHeader ctx signed as) : as ≠ [] := by
  rintro rfl
  have := h.quorum
  simp [parentStake,Committee.quorumThreshold] at this

theorem ValidHeader.head_author {as : List BlockRef}
    (h : ValidHeader ctx signed as) : as.head?.map BlockRef.author = some signed.inner.author := by
  cases as with
  | nil => exact absurd rfl h.ne_nil
  | cons a as => simpa using (h.scanned.passes 0 a rfl).position.mp rfl

theorem ValidHeader.round_lt {as : List BlockRef} (h : ValidHeader ctx signed as) (ha : a ∈ as) :
    a.round < signed.inner.round := by
  obtain ⟨j,hj⟩ := mem_iff_getElem?.mp ha
  exact (h.scanned.passes j a hj).round_lt

/-- The verifier keeps its promise on a header exactly when, once the epoch, round, author and
signature checks pass, the header is one it handles safely. -/
theorem totalAndSound_iff (ctx : Context) (signed : SignedBlockHeader) :
    TotalAndSound ctx signed ↔ (PassesHead ctx signed → HandledSafely ctx signed) := by
  constructor
  · rintro ⟨ht,hsn⟩ hh
    have hpn : ¬∃ p, verify ctx signed = .error (.panic p) := fun ⟨p,hp⟩ => ht p hp
    rw [verify_panic_iff] at hpn
    push Not at hpn
    obtain ⟨hsl,hr⟩ := hpn hh
    have hac : ∀ as, ValidHeader ctx signed as →
        signed.inner.overlapStartIndex ≤ signed.inner.references.length ∧
        ∀ a ∈ signed.inner.references.drop signed.inner.overlapStartIndex,
          a.author < ctx.committee.size := by
      intro as hv
      obtain ⟨_,acks,-,hac,hvl,-⟩ := hsn (verify_ok_iff.mpr ⟨as,hv⟩)
      unfold BlockHeader.acknowledgments at hac
      split at hac
      · rename_i hle
        cases hac
        exact ⟨hle,fun a ha => by simpa using hvl a (mem_append_right _ ha)⟩
      · cases hac
    refine ⟨?_,?_,fun as hv => (hac as hv).1,fun as hv => (hac as hv).2⟩
    · by_contra hn
      exact hsl .sliceOutOfRange (if_neg hn)
    · exact hr
  · intro hsf
    refine ⟨fun p hp => ?_,fun hok => ?_⟩
    · obtain ⟨hh,⟨q,hq⟩ | ⟨pre,a,post,ha,hl,hs,hps,ho⟩⟩ := verify_panic_iff.mp ⟨p,hp⟩
      · rw [BlockHeader.ancestors,if_pos (hsf hh).ancestors_inRange] at hq
        cases hq
      · exact absurd ((hsf hh).reached_author_lt pre a post ha hl hs hps) (by omega)
    obtain ⟨as,hv⟩ := verify_ok_iff.mp hok
    have hsf := hsf hv.toPassesHead
    refine ⟨as,_,hv.ancestors_eq,if_pos (hsf.acknowledgments_inRange as hv),?_,
      hv.scanned.nodup,hv.head_author,fun a => hv.round_lt,by simpa using hv.quorum⟩
    intro a ha
    rw [Committee.isValidIndex_iff]
    rcases mem_append.mp ha with ha | ha
    · exact hv.scanned.author_lt a ha
    · exact hsf.acknowledgment_author_lt as hv a ha

section Counterexample

def soleCommittee : Committee := ⟨0,[1],by decide,by decide,by decide⟩

def soleContext : Context where
  epochStartTimestampMs := 0
  committee := soleCommittee
  protocolConfig := ⟨2,false,false,400,20,by decide⟩
  hash := fun _ => 0
  hashCommit := fun _ => 0
  verifySignature := fun _ => true
  electLeaderStakeBased := fun _ _ => 0
  shuffle := fun _ l => l
  choose := fun _ _ l => l.headD 0

def pairContext : Context :=
  { soleContext with committee := ⟨0,[3,1],by decide,by decide,by decide⟩ }

/-- A header of author zero with chosen round, references and indices. -/
def craftedHeader (round : Nat) (references : List BlockRef) (overlapStart overlapEnd : Nat) :
    SignedBlockHeader :=
  ⟨⟨0,round,0,0,references,overlapStart,overlapEnd,0,[]⟩,0⟩

/-- A short reference list with a large end index, and an ancestor from outside the committee,
make the verifier panic; headers whose acknowledgments are out of range, or name an authority
outside the committee, are accepted. -/
theorem verify_not_totalAndSound :
    verify soleContext (craftedHeader 1 [] 0 1) = .error (.panic .sliceOutOfRange) ∧
    verify pairContext (craftedHeader 2 [⟨1,0,0⟩,⟨1,9,0⟩] 2 2) =
      .error (.panic .authorityOutOfRange) ∧
    verify soleContext (craftedHeader 1 [⟨0,0,0⟩] 5 1) = .ok () ∧
    (craftedHeader 1 [⟨0,0,0⟩] 5 1).inner.acknowledgments = .error .sliceOutOfRange ∧
    verify soleContext (craftedHeader 1 [⟨0,0,0⟩,⟨0,9,0⟩] 1 1) = .ok () ∧
    (craftedHeader 1 [⟨0,0,0⟩,⟨0,9,0⟩] 1 1).inner.acknowledgments = .ok [⟨0,9,0⟩] ∧
    soleCommittee.isValidIndex 9 = false ∧
    ¬∀ ctx signed, TotalAndSound ctx signed := by
  refine ⟨rfl,rfl,rfl,rfl,rfl,rfl,rfl,fun h => ?_⟩
  exact (h soleContext (craftedHeader 1 [] 0 1)).total .sliceOutOfRange rfl

end Counterexample
end BlockVerifier
end Iota.Starfish
