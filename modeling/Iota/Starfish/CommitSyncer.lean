import Iota.Starfish.BlockVerifier

/-! `verify_commits` on the response of a peer: a chain of commits with votes for the last one. -/
namespace Iota.Starfish
open BlockVerifier Except List

/-- Serialization and the digests of serialized forms, third-party code. -/
structure Codec (Bytes : Type) where
  decodeCommit : Bytes → Option Commit
  decodeHeader : Bytes → Option SignedBlockHeader
  commitDigest : Bytes → Nat
  headerDigest : Bytes → Nat

inductive CommitSyncError
  | tooManyCommitsFromPeer (peer count limit : Nat)
  | malformedCommit
  | unexpectedStartCommit (peer start : Nat) (commit : Commit)
  | unexpectedCommitSequence (peer : Nat) (prevCommit currCommit : Commit)
  | noCommitReceived (peer : Nat)
  | malformedHeader
  | header (failure : VerifyFailure)
  | notEnoughCommitVotes (stake peer : Nat) (commit : Commit)
deriving DecidableEq

namespace CommitSyncer
variable (ctx : Context) {Bytes : Type} (codec : Codec Bytes) (peer : Nat)

/-- The commit after `last`, or the one at the start of the range. -/
def checkNext (start : Nat) (last : Option TrustedCommit) (commit : Commit) :
    Except CommitSyncError Unit :=
  match last with
  | none =>
    if commit.index ≠ start then .error (.unexpectedStartCommit peer start commit) else .ok ()
  | some last =>
    if commit.index ≠ last.index+1 ∨ commit.previousDigest ≠ last.digest then
      .error (.unexpectedCommitSequence peer last.toCommit commit)
    else .ok ()

def checkCommits (start : Nat) : Option TrustedCommit → List Bytes →
    Except CommitSyncError (List TrustedCommit)
  | _, [] => .ok []
  | last, serialized :: rest =>
    match codec.decodeCommit serialized with
    | none => .error .malformedCommit
    | some commit => do
      checkNext peer start last commit
      let trusted : TrustedCommit := ⟨commit,codec.commitDigest serialized⟩
      let others ← checkCommits start (some trusted) rest
      .ok (trusted :: others)

theorem inRange_of_verify {ctx : Context} {signed : SignedBlockHeader}
    (h : verify ctx signed = .ok ()) :
    signed.inner.overlapEndIndex ≤ signed.inner.references.length := by
  obtain ⟨ancestors,hv⟩ := verify_ok_iff.mp h
  have heq := hv.ancestors_eq
  unfold BlockHeader.ancestors at heq
  split at heq
  · next hle => exact hle
  · cases heq

/-- The voting headers are verified one after another; each vote for the last commit counts for the
author of its header. -/
def countVotes (endCommit : CommitRef) : StakeAggregator ctx.committee → List Bytes →
    Except CommitSyncError (StakeAggregator ctx.committee × List VerifiedBlockHeader)
  | agg, [] => .ok (agg,[])
  | agg, serialized :: rest =>
    match codec.decodeHeader serialized with
    | none => .error .malformedHeader
    | some signed =>
      match hv : verify ctx signed with
      | .error failure => .error (.header failure)
      | .ok () => do
        let agg := signed.inner.commitVotes.foldl
          (fun agg vote => if vote = endCommit then agg.add signed.inner.author else agg) agg
        let (agg,headers) ← countVotes endCommit agg rest
        .ok (agg,⟨signed,codec.headerDigest serialized,inRange_of_verify hv⟩ :: headers)

def verifyCommits (start : Nat) (commits votes : List Bytes) (maxCommits : Nat) :
    Except CommitSyncError (List TrustedCommit × List VerifiedBlockHeader) :=
  if maxCommits < commits.length then
    .error (.tooManyCommitsFromPeer peer commits.length maxCommits)
  else do
    let trusted ← checkCommits codec peer start none commits
    match trusted.getLast? with
    | none => .error (.noCommitReceived peer)
    | some endCommit =>
      let (agg,headers) ← countVotes ctx codec endCommit.reference .new votes
      if agg.reachedThreshold then .ok (trusted,headers)
      else .error (.notEnoughCommitVotes agg.stake peer endCommit.toCommit)

/-- The commits were decoded, start at `start` and name each the digest of the one before. -/
inductive Chained (codec : Codec Bytes) : Nat → List TrustedCommit → Prop
  | nil (start : Nat) : Chained codec start []
  | cons {start : Nat} {c : TrustedCommit} {rest : List TrustedCommit} {serialized : Bytes} :
      codec.decodeCommit serialized = some c.toCommit → c.digest = codec.commitDigest serialized →
      c.index = start → (∀ next ∈ rest.head?, next.previousDigest = c.digest) →
      Chained codec (start+1) rest → Chained codec start (c :: rest)

variable {ctx codec peer} {start : Nat}

theorem checkNext_ok {last : Option TrustedCommit} {commit : Commit}
    (h : checkNext peer start last commit = .ok ()) :
    commit.index = (last.map fun c => c.index+1).getD start ∧
      ∀ c ∈ last, commit.previousDigest = c.digest := by
  cases last with
  | none =>
    simp only [checkNext] at h
    split at h
    · cases h
    · next heq => exact ⟨not_not.mp heq,by simp⟩
  | some c =>
    simp only [checkNext] at h
    split at h
    · cases h
    · next heq =>
      push Not at heq
      exact ⟨heq.1,by simpa using heq.2⟩

theorem checkCommits_chained {last : Option TrustedCommit}
    {serialized : List Bytes} {commits : List TrustedCommit}
    (h : checkCommits codec peer start last serialized = .ok commits) :
    Chained codec ((last.map fun c => c.index+1).getD start) commits ∧
      ∀ c ∈ last, ∀ next ∈ commits.head?, next.previousDigest = c.digest := by
  induction serialized generalizing last commits with
  | nil =>
    cases h
    exact ⟨.nil _,by simp⟩
  | cons bytes rest ih =>
    unfold checkCommits at h
    cases hd : codec.decodeCommit bytes with
    | none => simp [hd] at h
    | some commit =>
      rw [hd] at h
      obtain ⟨_,hn,h⟩ := of_bind h
      obtain ⟨others,ho,h⟩ := of_bind h
      cases h
      obtain ⟨hi,hp⟩ := checkNext_ok hn
      obtain ⟨hch,hl⟩ := ih ho
      have hc' : Chained codec (commit.index+1) others := hch
      rw [← hi]
      refine ⟨.cons hd rfl rfl (hl _ rfl) hc',?_⟩
      intro c hc next hh
      cases hh
      exact hp c hc

def voters (endCommit : CommitRef) (headers : List VerifiedBlockHeader) : Finset Nat :=
  ((headers.filter fun h => endCommit ∈ h.commitVotes).map VerifiedBlockHeader.author).toFinset

theorem voters_cons (endCommit : CommitRef) (h : VerifiedBlockHeader)
    (headers : List VerifiedBlockHeader) : voters endCommit (h :: headers) =
      if endCommit ∈ h.commitVotes then insert h.author (voters endCommit headers)
      else voters endCommit headers := by
  unfold voters
  by_cases hm : endCommit ∈ h.commitVotes
  · simp [hm]
  · simp [hm]

variable {headers : List VerifiedBlockHeader}

theorem mem_voters {endCommit : CommitRef} {a : Nat} :
    a ∈ voters endCommit headers ↔
      ∃ h ∈ headers, endCommit ∈ h.commitVotes ∧ h.author = a := by
  simp [voters,and_assoc]

theorem votes_foldl_vote (agg : StakeAggregator ctx.committee) (author : Nat) (endCommit : CommitRef)
    (votes : List CommitRef) :
    (votes.foldl (fun agg vote => if vote = endCommit then agg.add author else agg) agg).votes =
      if endCommit ∈ votes then insert author agg.votes else agg.votes := by
  induction votes generalizing agg with
  | nil => rfl
  | cons vote votes ih =>
    rw [foldl_cons,ih]
    by_cases hv : vote = endCommit
    · subst hv
      by_cases hm : vote ∈ votes
      · simp [hm]
      · simp [hm]
    · simp [hv,Ne.symm hv]

theorem countVotes_ok {endCommit : CommitRef} {agg agg' : StakeAggregator ctx.committee}
    {serialized : List Bytes}
    (h : countVotes ctx codec endCommit agg serialized = .ok (agg',headers)) :
    agg'.votes = agg.votes ∪ voters endCommit headers ∧
      ∀ x ∈ headers, verify ctx x.signed = .ok () := by
  induction serialized generalizing agg headers with
  | nil =>
    cases h
    exact ⟨by simp [voters],by simp⟩
  | cons bytes rest ih =>
    unfold countVotes at h
    split at h
    · cases h
    split at h
    · cases h
    · next _ signed _ hv =>
      obtain ⟨⟨agg1,others⟩,hr,h⟩ := of_bind h
      cases h
      obtain ⟨hvt,hvr⟩ := ih hr
      refine ⟨?_,forall_mem_cons.mpr ⟨hv,hvr⟩⟩
      rw [hvt,votes_foldl_vote,voters_cons]
      by_cases hm : endCommit ∈ signed.inner.commitVotes
      · rw [if_pos hm]
        refine Eq.trans ?_ (congrArg (agg.votes ∪ ·) (if_pos hm).symm)
        rw [Finset.union_insert,Finset.insert_union]
        rfl
      · rw [if_neg hm]
        exact congrArg (agg.votes ∪ ·) (if_neg hm).symm

variable {commits : List TrustedCommit}

structure Verified (ctx : Context) (codec : Codec Bytes) (start : Nat)
    (commits : List TrustedCommit) (headers : List VerifiedBlockHeader) : Prop where
  chained : Chained codec start commits
  verified : ∀ h ∈ headers, verify ctx h.signed = .ok ()
  certified : ∃ endCommit, commits.getLast? = some endCommit ∧
    ctx.committee.IsQuorum (voters endCommit.reference headers)

theorem verifyCommits_ok {start maxCommits : Nat} {serialized votes : List Bytes}
    {commits : List TrustedCommit}
    (h : verifyCommits ctx codec peer start serialized votes maxCommits = .ok (commits,headers)) :
    Verified ctx codec start commits headers := by
  unfold verifyCommits at h
  split at h
  · cases h
  obtain ⟨trusted,hc,h⟩ := of_bind h
  cases hl : trusted.getLast? with
  | none => simp [hl] at h
  | some endCommit =>
    rw [hl] at h
    obtain ⟨⟨agg,others⟩,hvt,h⟩ := of_bind h
    dsimp only at h
    split at h
    · next ht =>
      cases h
      obtain ⟨hun,hv⟩ := countVotes_ok hvt
      rw [StakeAggregator.reachedThreshold_iff,hun] at ht
      exact ⟨(checkCommits_chained hc).1,hv,endCommit,hl,ht⟩
    · cases h

/-- An authority votes for the commits of one chain, which starts at index 1: one digest for each
index, and each commit names the digest of the one before. -/
structure VotesAlong (ctx : Context) (codec : Codec Bytes) (authority : Nat)
    (chain : Nat → Option Bytes) : Prop where
  zero : chain 0 = none
  linked : ∀ i serialized commit, 0 < i → chain (i+1) = some serialized →
    codec.decodeCommit serialized = some commit →
    ∃ previous, chain i = some previous ∧ commit.previousDigest = codec.commitDigest previous
  voted : ∀ signed, verify ctx signed = .ok () → signed.inner.author = authority →
    ∀ vote ∈ signed.inner.commitVotes,
      ∃ serialized, chain vote.index = some serialized ∧
        codec.commitDigest serialized = vote.digest

def OnChain (codec : Codec Bytes) (chain : Nat → Option Bytes) (c : TrustedCommit) : Prop :=
  ∃ serialized, chain c.index = some serialized ∧
    codec.decodeCommit serialized = some c.toCommit ∧ codec.commitDigest serialized = c.digest

variable {chain : Nat → Option Bytes} {c c' : TrustedCommit}

theorem OnChain.eq (h : OnChain codec chain c)
    (h' : OnChain codec chain c') (hi : c.index = c'.index) : c = c' := by
  obtain ⟨serialized,hc,hd,hdg⟩ := h
  obtain ⟨serialized',hc',hd',hdg'⟩ := h'
  rw [hi,hc'] at hc
  cases hc
  cases c
  cases c'
  simp_all

section Agreement
variable (hinjective : Function.Injective codec.commitDigest)

include hinjective

theorem Chained.onChain_of_voted
    {commits : List TrustedCommit} (hc : Chained codec start commits) {c : TrustedCommit}
    (hm : c ∈ commits) {serialized : Bytes} (hch : chain c.index = some serialized)
    (hd : codec.commitDigest serialized = c.digest) : OnChain codec chain c := by
  induction hc with
  | nil => cases hm
  | @cons start head rest bytes hdc hb _ _ _ ih =>
    rcases mem_cons.mp hm with rfl | hr
    · have heq : serialized = bytes := hinjective (hd.trans hb)
      subst heq
      exact ⟨serialized,hch,hdc,hd⟩
    · exact ih hr

theorem Chained.onChain {authority : Nat} (hv : VotesAlong ctx codec authority chain)
    (hc : Chained codec start commits) {endCommit : TrustedCommit}
    (hl : commits.getLast? = some endCommit) (he : OnChain codec chain endCommit) :
    ∀ c ∈ commits, 0 < c.index → OnChain codec chain c := by
  induction hc with
  | nil => cases hl
  | @cons start head rest bytes hd hb hi hln hr ih =>
    cases rest with
    | nil =>
      cases hl
      intro c hm _
      obtain rfl := mem_singleton.mp hm
      exact he
    | cons next rest =>
      have hn := ih (by rwa [List.getLast?_cons_cons] at hl)
      intro c hm hp
      rcases mem_cons.mp hm with rfl | hm
      · -- the next commit is on the chain, so the one it names is
        have hst : next.index = c.index+1 := by
          cases hr with
          | cons _ _ hi' _ _ => rw [hi',hi]
        obtain ⟨serialized,hch,hnextDecode,-⟩ := hn next mem_cons_self (by omega)
        rw [hst] at hch
        obtain ⟨previous,hpr,hdg⟩ := hv.linked _ _ _ hp hch hnextDecode
        have hs : codec.commitDigest previous = c.digest := hdg.symm.trans (hln next rfl)
        have heq : previous = bytes := hinjective (hs.trans hb)
        subst heq
        exact ⟨previous,hpr,hd,hs⟩
      · exact hn c hm hp

omit hinjective in
theorem Chained.exists_next
    (hc : Chained codec start commits) {c endCommit : TrustedCommit} (hm : c ∈ commits)
    (hl : commits.getLast? = some endCommit) (hne : c.index ≠ endCommit.index) :
    ∃ next ∈ commits, next.index = c.index+1 ∧ next.previousDigest = c.digest := by
  induction hc with
  | nil => cases hm
  | @cons start head rest bytes hd hb hi hln hr ih =>
    cases rest with
    | nil =>
      obtain rfl := Option.some.inj hl
      obtain rfl := mem_singleton.mp hm
      exact absurd rfl hne
    | cons next rest =>
      rcases mem_cons.mp hm with rfl | hm
      · have hs : next.index = c.index+1 := by
          cases hr with
          | cons _ _ hi' _ _ => rw [hi',hi]
        exact ⟨next,by simp,hs,hln next rfl⟩
      · obtain ⟨found,hf,hr⟩ := ih hm (by rwa [List.getLast?_cons_cons] at hl)
        exact ⟨found,mem_cons_of_mem _ hf,hr⟩

theorem Chained.eq_of_digest {start start' : Nat} {commits commits' : List TrustedCommit}
    (hc : Chained codec start commits) (hc' : Chained codec start' commits')
    (hm : c ∈ commits) (hm' : c' ∈ commits') (hdg : c.digest = c'.digest) : c = c' := by
  have hb : ∀ {start : Nat} {commits : List TrustedCommit}, Chained codec start commits →
      ∀ c ∈ commits, ∃ serialized, codec.decodeCommit serialized = some c.toCommit ∧
        c.digest = codec.commitDigest serialized := by
    intro start commits hc
    induction hc with
    | nil => simp
    | @cons _ _ _ serialized hdc hb _ _ _ ih =>
      exact forall_mem_cons.mpr ⟨⟨serialized,hdc,hb⟩,ih⟩
  obtain ⟨serialized,hdc,hd⟩ := hb hc c hm
  obtain ⟨serialized',hdc',hd'⟩ := hb hc' c' hm'
  have heq : serialized = serialized' := hinjective (hd.symm.trans (hdg.trans hd'))
  subst heq
  cases c
  cases c'
  simp_all

theorem Verified.endCommit_onChain (h : Verified ctx codec start commits headers)
    {authority : Nat} (hvs : VotesAlong ctx codec authority chain)
    {endCommit : TrustedCommit} (hl : commits.getLast? = some endCommit)
    (hvt : authority ∈ voters endCommit.reference headers) : OnChain codec chain endCommit := by
  obtain ⟨x,hx,hv,ha⟩ := mem_voters.mp hvt
  obtain ⟨serialized,hc,hd⟩ := hvs.voted x.signed (h.verified x hx) ha _ hv
  exact h.chained.onChain_of_voted hinjective (mem_of_getLast? hl) hc hd

theorem Verified.agree {byzantine : Finset Nat} (hf : ctx.committee.FaultBound byzantine)
    (hv : ∀ a ∉ byzantine, ∃ chain, VotesAlong ctx codec a chain) {start start' : Nat}
    {commits commits' : List TrustedCommit} {headers headers' : List VerifiedBlockHeader}
    (h : Verified ctx codec start commits headers)
    (h' : Verified ctx codec start' commits' headers') (hc : c ∈ commits)
    (hc' : c' ∈ commits') (hi : c.index = c'.index) : c = c' := by
  obtain ⟨endCommit,hl,hq⟩ := h.certified
  obtain ⟨endCommit',hl',hq'⟩ := h'.certified
  obtain ⟨a,ha,ha',hh⟩ := hq.exists_honest_inter hq' hf
  obtain ⟨chain,hch⟩ := hv a hh
  have hen := h.endCommit_onChain hinjective hch hl ha
  have he' := h'.endCommit_onChain hinjective hch hl' ha'
  have hal := h.chained.onChain hinjective hch hl hen
  have hal' := h'.chained.onChain hinjective hch hl' he'
  have hp : ∀ {e : TrustedCommit}, OnChain codec chain e → 0 < e.index := by
    rintro e ⟨serialized,he,-⟩
    refine Nat.pos_of_ne_zero fun h0 => ?_
    rw [h0,hch.zero] at he
    cases he
  rcases Nat.eq_zero_or_pos c.index with h0 | hcp
  · -- nothing is voted for at index 0, so both are followed by the same commit
    have hlt := hp hen
    have hlt' := hp he'
    obtain ⟨next,hn,hni,hnd⟩ := h.chained.exists_next hc hl (by omega)
    obtain ⟨next',hn',hni',hnd'⟩ := h'.chained.exists_next hc' hl' (by omega)
    have heq : next = next' := (hal next hn (by omega)).eq (hal' next' hn' (by omega)) (by omega)
    refine h.chained.eq_of_digest hinjective h'.chained hc hc' ?_
    rw [← hnd,← hnd',heq]
  · exact (hal c hc hcp).eq (hal' c' hc' (hi ▸ hcp)) hi

end Agreement

/-- An accepted response is a chain of commits from the start of the requested range, with votes of
a quorum for the last one. With digests that do not collide and honest authorities that each vote
along one chain, any two accepted responses agree on the commits they share. -/
theorem verifyCommits_sound (ctx : Context) {Bytes : Type} (codec : Codec Bytes) :
    (∀ peer start serialized votes maxCommits commits headers,
      verifyCommits ctx codec peer start serialized votes maxCommits = .ok (commits,headers) →
      Verified ctx codec start commits headers) ∧
    ∀ byzantine, ctx.committee.FaultBound byzantine → Function.Injective codec.commitDigest →
      (∀ a ∉ byzantine, ∃ chain, VotesAlong ctx codec a chain) →
      ∀ peer start serialized votes maxCommits commits headers peer' start' serialized' votes'
        maxCommits' commits' headers',
      verifyCommits ctx codec peer start serialized votes maxCommits = .ok (commits,headers) →
      verifyCommits ctx codec peer' start' serialized' votes' maxCommits' =
        .ok (commits',headers') →
      ∀ c ∈ commits, ∀ c' ∈ commits', c.index = c'.index → c = c' := by
  refine ⟨fun _ _ _ _ _ _ _ h => verifyCommits_ok h,?_⟩
  intro byzantine hf hinjective hv _ _ _ _ _ _ _ _ _ _ _ _ _ _ h h' c hc c'
  exact (verifyCommits_ok h).agree hinjective hf hv (verifyCommits_ok h') hc

section Counterexample
open BlockVerifier

/-- A header of the sole authority that votes for a commit of index 1 and one of index 2. -/
def votingHeader : SignedBlockHeader :=
  ⟨⟨0,1,0,0,[⟨0,0,0⟩],1,1,0,[⟨1,0⟩,⟨2,2⟩]⟩,0⟩

def votingContext : Context :=
  { soleContext with verifySignature := fun signed => signed = votingHeader }

/-- Two commits of index 1, and one of index 2 that names the second of them. -/
def forkedCommit : Nat → Option Commit
  | 0 => some ⟨1,0,0,⟨1,0,0⟩,[],[],[]⟩
  | 1 => some ⟨1,0,7,⟨1,0,0⟩,[],[],[]⟩
  | 2 => some ⟨2,1,9,⟨4,0,0⟩,[],[],[]⟩
  | _ => none

def forkedCodec : Codec Nat where
  decodeCommit := forkedCommit
  decodeHeader := fun serialized => if serialized = 3 then some votingHeader else none
  commitDigest := id
  headerDigest := id

/-- One digest for each index is not enough: votes for a commit of index 1 and for a commit of index
2 that names another one let two responses disagree at index 1. -/
theorem verifyCommits_disagree :
    votingContext.committee.FaultBound ∅ ∧ Function.Injective forkedCodec.commitDigest ∧
    (∀ a ∉ (∅ : Finset Nat), ∃ digest : Nat → Nat, ∀ signed, verify votingContext signed = .ok () →
      signed.inner.author = a → ∀ vote ∈ signed.inner.commitVotes, vote.digest = digest vote.index) ∧
    (∃ headers, verifyCommits votingContext forkedCodec 0 1 [0] [3] 5 =
      .ok ([⟨⟨1,0,0,⟨1,0,0⟩,[],[],[]⟩,0⟩],headers)) ∧
    ∃ headers, verifyCommits votingContext forkedCodec 0 1 [1,2] [3] 5 =
      .ok ([⟨⟨1,0,7,⟨1,0,0⟩,[],[],[]⟩,1⟩,⟨⟨2,1,9,⟨4,0,0⟩,[],[],[]⟩,2⟩],headers) := by
  refine ⟨by decide,fun _ _ h => h,fun a _ => ?_,⟨_,rfl⟩,⟨_,rfl⟩⟩
  refine ⟨fun index => if index = 1 then 0 else 2,fun signed hvr _ vote hvt => ?_⟩
  obtain ⟨ancestors,hv⟩ := verify_ok_iff.mp hvr
  have hs : signed = votingHeader := of_decide_eq_true hv.signature
  rw [hs] at hvt
  rcases mem_cons.mp hvt with rfl | hvt
  · rfl
  · obtain rfl := mem_singleton.mp hvt
    rfl

end Counterexample
end CommitSyncer
end Iota.Starfish
