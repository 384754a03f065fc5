import Iota.Starfish.CommitRule
import Iota.Starfish.Committer
import Iota.Starfish.DagState.Causal

/-! On a causally complete view the committers compute decisions of the commit rule, so two views
never disagree. -/
namespace Iota.Starfish
open BaseCommitter BlockVerifier DagState Except List Universe VerifiedBlockHeader
open Std (ExtTreeMap)
section Loops
variable {α σ : Type} {c : Committee} {author : α → Nat}
variable {test : σ → α → Except Panic (Bool × σ)} {passes : α → Bool} {inv : σ → Prop}
  {xs : List α}

/-- The counting loop returns whether the authors of the passing items are a quorum, as long as the
test is right from every state of the cache it can meet. -/
theorem quorumAmong_ok
    (ht : ∀ x ∈ xs, ∀ st, inv st → ∃ st', test st x = .ok (passes x,st') ∧ inv st')
    {agg : StakeAggregator c} (ha : ¬c.IsQuorum agg.votes) {st : σ} (hst : inv st) :
    ∃ st', quorumAmong c author test xs agg st =
      .ok (decide (c.IsQuorum (agg.votes ∪ ((xs.filter passes).map author).toFinset)),st') ∧
      inv st' := by
  induction xs generalizing agg st with
  | nil => exact ⟨st,by simp [quorumAmong,ha],hst⟩
  | cons x xs ih =>
    have hrs : ∀ y ∈ xs, ∀ st, inv st → ∃ st', test st y = .ok (passes y,st') ∧ inv st' :=
      fun y hy => ht y (.tail _ hy)
    obtain ⟨st1,hx,hst1⟩ := ht x mem_cons_self st hst
    cases hp : passes x with
    | false =>
      obtain ⟨st2,heq,hst2⟩ := ih hrs ha hst1
      refine ⟨st2,?_,hst2⟩
      simp only [quorumAmong,hx,hp,filter_cons]
      exact heq
    | true =>
      have hv : agg.votes ∪ (((x :: xs).filter passes).map author).toFinset =
          (agg.add (author x)).votes ∪ ((xs.filter passes).map author).toFinset := by
        simp [hp]
      rw [hv]
      by_cases hq : c.IsQuorum (agg.add (author x)).votes
      · refine ⟨st1,?_,hst1⟩
        have hr := (StakeAggregator.reachedThreshold_iff _).mpr hq
        have hal : c.IsQuorum ((agg.add (author x)).votes ∪
            ((xs.filter passes).map author).toFinset) := hq.mono Finset.subset_union_left
        simp only [quorumAmong,hx,hp,hal,hr,ok_bind,decide_true,if_true]
      obtain ⟨st2,heq,hst2⟩ := ih hrs hq hst1
      refine ⟨st2,?_,hst2⟩
      have hr : (agg.add (author x)).reachedThreshold = false := by
        rw [← Bool.not_eq_true,StakeAggregator.reachedThreshold_iff]
        exact hq
      rw [← heq]
      simp only [quorumAmong,hx,hp,hr,ok_bind,if_true,Bool.false_eq_true,if_false]

theorem quorumAmong_new_ok
    (ht : ∀ x ∈ xs, ∀ st, inv st → ∃ st', test st x = .ok (passes x,st') ∧ inv st')
    {st : σ} (hst : inv st) :
    ∃ st', quorumAmong c author test xs .new st =
      .ok (decide (c.IsQuorum ((xs.filter passes).map author).toFinset),st') ∧ inv st' := by
  have hn : ¬c.IsQuorum (StakeAggregator.new : StakeAggregator c).votes :=
    Committee.not_isQuorum_empty
  obtain ⟨st',heq,hst'⟩ := quorumAmong_ok ht hn hst
  refine ⟨st',heq.trans ?_,hst'⟩
  simp only [StakeAggregator.votes_new,Finset.empty_union]

theorem filterOk_ok {test : α → Except Panic Bool} {xs : List α}
    (hts : ∀ x ∈ xs, ∃ keep, test x = .ok keep) :
    ∃ l, filterOk test xs = .ok l ∧ l.Sublist xs ∧ ∀ x, x ∈ l ↔ x ∈ xs ∧ test x = .ok true := by
  induction xs with
  | nil => exact ⟨[],rfl,.slnil,by simp⟩
  | cons x xs ih =>
    obtain ⟨l,hl,hs,hm⟩ := ih fun y hy => hts y (.tail _ hy)
    obtain ⟨keep,hk⟩ := hts x mem_cons_self
    simp only [filterOk,hk,hl,ok_bind]
    cases keep with
    | false =>
      refine ⟨l,rfl,hs.cons x,fun y => ?_⟩
      rw [hm,mem_cons]
      constructor
      · exact fun h => ⟨.inr h.1,h.2⟩
      rintro ⟨rfl | hy,ht⟩
      · rw [hk] at ht
        cases ht
      · exact ⟨hy,ht⟩
    | true =>
      refine ⟨x :: l,rfl,hs.cons_cons x,fun y => ?_⟩
      rw [mem_cons,hm,mem_cons]
      constructor
      · rintro (rfl | h)
        · exact ⟨.inl rfl,hk⟩
        · exact ⟨.inr h.1,h.2⟩
      rintro ⟨rfl | hy,ht⟩
      · exact .inl rfl
      · exact .inr ⟨hy,ht⟩

end Loops

variable {r : Nat}
section Committer
variable {ctx : Context} {U : Universe ctx} {s : DagState ctx} (hv : View U s)

/-- Whether the header of a reference has `b` as an ancestor. -/
def votesFor (U : Universe ctx) (b : VerifiedBlockHeader) (r : BlockRef) : Bool :=
  (U.get r).any fun v => b.reference ∈ v.ancestors

def VotesCached (U : Universe ctx) (b : VerifiedBlockHeader)
    (allVotes : ExtTreeMap BlockRef Bool) : Prop :=
  ∀ r vote, allVotes[r]? = some vote → vote = votesFor U b r

theorem votesCached_empty {b : VerifiedBlockHeader} : VotesCached U b ∅ := by
  intro r vote h
  simp at h

theorem findSome_slot_iff {v : VerifiedBlockHeader} (hm : v ∈ U) (r : BlockRef) :
    v.ancestors.findSome? (fun a => if a.slot = r.slot then some a else none) = some r ↔
      r ∈ v.ancestors := by
  constructor
  · intro h
    obtain ⟨a,ha,hs⟩ := exists_of_findSome?_eq_some h
    split at hs
    · exact Option.some.inj hs ▸ ha
    · cases hs
  intro h
  cases hf : v.ancestors.findSome? (fun a => if a.slot = r.slot then some a else none) with
  | none =>
    have := List.findSome?_eq_none_iff.mp hf r h
    simp at this
  | some a =>
    obtain ⟨x,hx,hs⟩ := exists_of_findSome?_eq_some hf
    split at hs
    · next hsl =>
      cases hs
      rw [ancestor_eq_of_author_eq hm hx h (congrArg Slot.authority hsl)]
    · cases hs

include hv

theorem isVote_ok {b v : VerifiedBlockHeader} {r : BlockRef}
    (hr : s.getVerifiedBlockHeader r = some v) (hrn : v.round ≤ b.round+1) :
    s.isVote v b = .ok (decide (b.reference ∈ v.ancestors)) := by
  have hm := hv.mem hr
  have hl : ∀ a ∈ v.ancestors, a.round ≤ b.slot.round := by
    intro a ha
    have h1 := ancestor_round_lt hm ha
    have h2 : b.slot.round = b.round := rfl
    omega
  unfold isVote findSupportedBlock
  by_cases hlt : v.round < b.slot.round
  · have hno : b.reference ∉ v.ancestors := by
      intro hb
      have := ancestor_round_lt hm hb
      have h2 : b.slot.round = b.round := rfl
      rw [reference_round] at this
      omega
    rw [if_pos hlt,decide_eq_false hno]
    rfl
  rw [if_neg hlt,List.findSomeM?_eq_ok (g := fun a => if a.slot = b.slot then some a else none)]
  · simp only [← findSome_slot_iff hm b.reference]
    rfl
  intro a ha
  by_cases hs : a.slot = b.slot
  · rw [if_pos hs,if_pos hs]
  · rw [if_neg hs,if_neg hs,if_pos (hl a ha)]

variable {b c : VerifiedBlockHeader}

theorem isVoteCached_ok
    (hc : s.getVerifiedBlockHeader c.reference = some c) (hrn : c.round ≤ b.round+2) :
    ∀ r ∈ c.ancestors, ∀ allVotes, VotesCached U b allVotes →
      ∃ allVotes', s.isVoteCached b allVotes r = .ok (votesFor U b r,allVotes') ∧
        VotesCached U b allVotes' := by
  intro r hr allVotes hcc
  unfold isVoteCached
  cases hg : allVotes[r]? with
  | some vote =>
    rw [← hcc r vote hg]
    exact ⟨allVotes,rfl,hcc⟩
  | none =>
    obtain ⟨v,hrv⟩ := hv.closed hc r hr
    have hvr : v.round ≤ b.round+1 := by
      have h1 := ancestor_round_lt (hv.mem hc) hr
      have h2 : v.round = r.round := congrArg BlockRef.round (hv.reference_eq hrv)
      omega
    have hvt : votesFor U b r = decide (b.reference ∈ v.ancestors) := by
      simp [votesFor,hv.sound hrv]
    simp only [hrv,isVote_ok hv hrv hvr,← hvt]
    refine ⟨allVotes.insert r (votesFor U b r),rfl,fun r' vote h => ?_⟩
    rw [ExtTreeMap.getElem?_insert_eq] at h
    split at h
    · next he =>
      subst he
      exact (Option.some.inj h).symm
    · exact hcc r' vote h

variable {allVotes : ExtTreeMap BlockRef Bool}

theorem isCertificate_ok
    (hc : s.getVerifiedBlockHeader c.reference = some c) (hr : c.round ≤ b.round+2)
    (hcc : VotesCached U b allVotes) :
    ∃ allVotes', s.isCertificate b allVotes c = .ok (decide (Certifies U c b),allVotes') ∧
      VotesCached U b allVotes' := by
  exact quorumAmong_new_ok (isVoteCached_ok hv hc hr) hcc

theorem quorumAt_of_filter {round : Nat} {blocks : List VerifiedBlockHeader}
    (hm : ∀ h, h ∈ blocks ↔ s.getVerifiedBlockHeader h.reference = some h ∧ h.round = round)
    {passes : VerifiedBlockHeader → Bool} {p : VerifiedBlockHeader → Prop}
    (hp : ∀ h, passes h = true → p h)
    (hq : ctx.committee.IsQuorum
      ((blocks.filter passes).map author).toFinset) : QuorumAt U round p := by
  refine ⟨_,hq,fun a ha => ?_⟩
  simp only [mem_toFinset,mem_map,mem_filter] at ha
  obtain ⟨h,⟨hh,hps⟩,rfl⟩ := ha
  obtain ⟨hg,hr⟩ := (hm h).mp hh
  exact ⟨h,hv.mem hg,rfl,hr,hp h hps⟩

theorem enoughLeaderBlame_ok {round : Nat} (leader : Nat) (hls : s.lastCommitRound < round) :
    ∃ enough, s.enoughLeaderBlame round leader = .ok enough ∧
      (enough = true → QuorumAt U round (Blames · leader)) := by
  obtain ⟨blocks,hb,hm⟩ := hv.uncommittedAtRound hls
  have hl : ∃ st, quorumAmong ctx.committee author
      (fun (_ : Unit) b => .ok (isBlame leader b,())) blocks .new () = .ok (decide
        (ctx.committee.IsQuorum
          ((blocks.filter (isBlame leader)).map author).toFinset),st) ∧ True :=
    quorumAmong_new_ok (fun x _ st _ => ⟨st,rfl,trivial⟩) trivial
  obtain ⟨_,hl,-⟩ := hl
  simp only [enoughLeaderBlame,hb,ok_bind,hl]
  refine ⟨_,rfl,fun he => ?_⟩
  refine quorumAt_of_filter hv hm (fun h hbl => ?_) (of_decide_eq_true he)
  simpa [isBlame,Blames] using hbl

theorem enoughLeaderSupport_ok (b : VerifiedBlockHeader) (hls : s.lastCommitRound < b.round) :
    ∃ enough, s.enoughLeaderSupport (b.round+2) b = .ok enough ∧
      (enough = true → QuorumAt U (b.round+2) (Certifies U · b)) := by
  have hl' : s.lastCommitRound < b.round+2 := by omega
  obtain ⟨blocks,hb,hm⟩ := hv.uncommittedAtRound hl'
  have hcr : ∀ c ∈ blocks, ∀ allVotes, VotesCached U b allVotes →
      ∃ allVotes', s.isCertificate b allVotes c = .ok (decide (Certifies U c b),allVotes') ∧
        VotesCached U b allVotes' := by
    intro c hc allVotes hcc
    obtain ⟨hg,hr⟩ := (hm c).mp hc
    exact isCertificate_ok hv hg (by omega) hcc
  have hl : ∃ st, quorumAmong ctx.committee author (s.isCertificate b)
      blocks .new ∅ = .ok (decide (ctx.committee.IsQuorum ((blocks.filter fun c =>
        Certifies U c b).map author).toFinset),st) ∧ VotesCached U b st :=
    quorumAmong_new_ok hcr votesCached_empty
  obtain ⟨_,hl,-⟩ := hl
  simp only [enoughLeaderSupport,hb,ok_bind]
  split
  · exact ⟨false,rfl,fun h => absurd h (by simp)⟩
  rw [hl]
  refine ⟨_,rfl,fun he => ?_⟩
  exact quorumAt_of_filter hv hm (fun h => of_decide_eq_true) (of_decide_eq_true he)

theorem anyCertificate_ok {b : VerifiedBlockHeader} {l : List VerifiedBlockHeader}
    (hl : ∀ c ∈ l, s.getVerifiedBlockHeader c.reference = some c ∧ c.round ≤ b.round+2)
    (hcc : VotesCached U b allVotes) :
    s.anyCertificate b l allVotes = .ok (l.any fun c => Certifies U c b) := by
  induction l generalizing allVotes with
  | nil => rfl
  | cons c l ih =>
    obtain ⟨hg,hrn⟩ := hl c mem_cons_self
    obtain ⟨allVotes',heq,hc'⟩ := isCertificate_ok hv hg hrn hcc
    have hr := ih (fun x hx => hl x (.tail _ hx)) hc'
    simp only [anyCertificate,heq,hr,ok_bind,any_cons]
    by_cases hc : Certifies U c b
    · simp [hc]
    · simp [hc]

omit hv in
theorem Certifies.reaches (hb : b ∈ U) (h : Certifies U c b) : U.Reaches c b := by
  obtain ⟨a,ha⟩ := Committee.IsQuorum.nonempty h
  obtain ⟨v,hcv,-,hvb⟩ := mem_voters.mp ha
  exact (Relation.ReflTransGen.single hcv).tail ⟨hb,hvb⟩

theorem leaderBlock_of_held {lead : Nat → Nat} {b : VerifiedBlockHeader}
    (hb : s.getVerifiedBlockHeader b.reference = some b) (hs : b.slot = ⟨r,lead r⟩) :
    LeaderBlock U lead r b :=
  ⟨hv.mem hb,hs,hv.complete hb⟩

end Committer

/-- A status of the leader of round `r` that agrees with the commit rule; an undecided one says
nothing. -/
def StatusOk {ctx : Context} (U : Universe ctx) (s : DagState ctx) (lead : Nat → Nat) (r : Nat) :
    LeaderStatus → Prop
  | .commit b => s.getVerifiedBlockHeader b.reference = some b ∧ Decided U lead r (some b)
  | .skip slot => slot = ⟨r,lead r⟩ ∧ Decided U lead r none
  | .undecided slot => slot = ⟨r,lead r⟩

variable {leaders : List (LeaderStatus × Decision)} {n : Nat} {st : LeaderStatus}
section BaseCommitter
variable {ctx : Context} {U : Universe ctx} {s : DagState ctx} (hv : View U s)
  {lead : Nat → Nat} {byzantine : Finset Nat} (hbound : ctx.committee.FaultBound byzantine)
  (hunique : U.HonestUnique byzantine)

def committerOf (round : Nat) : BaseCommitter := ⟨0,round % waveLength⟩

theorem certifyingRound_committerOf (r : Nat) :
    (committerOf r).certifyingRound ((committerOf r).waveNumber r) = r+2 := by
  unfold certifyingRound waveNumber committerOf waveLength
  simp only
  omega

include hv hbound hunique

theorem filterOk_slot (hls : s.lastCommitRound < r) {test : VerifiedBlockHeader → Except Panic Bool}
    (hts : ∀ b, s.getVerifiedBlockHeader b.reference = some b → b.slot = ⟨r,lead r⟩ →
      ∃ keep, test b = .ok keep ∧ (keep = true → Decided U lead r (some b))) :
    (filterOk test (s.getUncommittedBlockHeadersAtSlot ⟨r,lead r⟩) = .ok [] ∧
      ∀ b, s.getVerifiedBlockHeader b.reference = some b → b.slot = ⟨r,lead r⟩ →
        test b ≠ .ok true) ∨
    ∃ b, filterOk test (s.getUncommittedBlockHeadersAtSlot ⟨r,lead r⟩) = .ok [b] ∧
      StatusOk U s lead r (.commit b) := by
  have hsl : ∀ {b}, b ∈ s.getUncommittedBlockHeadersAtSlot ⟨r,lead r⟩ ↔
      s.getVerifiedBlockHeader b.reference = some b ∧ b.slot = ⟨r,lead r⟩ :=
    hv.mem_uncommittedAtSlot hls
  have hok : ∀ b ∈ s.getUncommittedBlockHeadersAtSlot ⟨r,lead r⟩, ∃ keep, test b = .ok keep := by
    intro b hb
    obtain ⟨hg,hs⟩ := hsl.mp hb
    obtain ⟨keep,hk,-⟩ := hts b hg hs
    exact ⟨keep,hk⟩
  obtain ⟨l,hl,hsb,hm⟩ := filterOk_ok hok
  have hc : ∀ b ∈ l, StatusOk U s lead r (.commit b) := by
    intro b hb
    obtain ⟨hb,ht⟩ := (hm b).mp hb
    obtain ⟨hg,hs⟩ := hsl.mp hb
    obtain ⟨keep,hk,hd⟩ := hts b hg hs
    rw [ht] at hk
    exact ⟨hg,hd (ok.inj hk).symm⟩
  cases l with
  | nil =>
    refine .inl ⟨hl,fun b hg hs ht => ?_⟩
    exact not_mem_nil ((hm b).mpr ⟨hsl.mpr ⟨hg,hs⟩,ht⟩)
  | cons b rest =>
    cases rest with
    | nil => exact .inr ⟨b,hl,hc b mem_cons_self⟩
    | cons b' rest =>
      -- two passing blocks would both be committed, so they are equal; the list has no repetition
      have hb := hc b mem_cons_self
      have hb' := hc b' (.tail _ mem_cons_self)
      have heq := Decided.commit_unique hbound hunique hb.2 hb'.2
      have hn := (hv.nodup_uncommittedAtSlot ⟨r,lead r⟩).sublist hsb
      simp [heq] at hn

theorem tryDirectDecide_ok (lead : Nat → Nat) (hl : s.lastCommitRound < r) :
    ∃ st, (committerOf r).tryDirectDecide s ⟨r,lead r⟩ = .ok st ∧ StatusOk U s lead r st := by
  have hl' : s.lastCommitRound < r+1 := by omega
  obtain ⟨blamed,hbm,hbl⟩ := enoughLeaderBlame_ok hv (lead r) hl'
  simp only [tryDirectDecide,hbm,ok_bind,certifyingRound_committerOf]
  cases blamed with
  | true => exact ⟨.skip ⟨r,lead r⟩,rfl,rfl,.directSkip (hbl rfl)⟩
  | false =>
    have ht : ∀ b, s.getVerifiedBlockHeader b.reference = some b → b.slot = ⟨r,lead r⟩ →
        ∃ keep, s.enoughLeaderSupport (r+2) b = .ok keep ∧
          (keep = true → Decided U lead r (some b)) := by
      intro b hg hs
      have hbr : b.round = r := congrArg Slot.round hs
      obtain ⟨keep,hkp,hq⟩ := enoughLeaderSupport_ok hv b (by omega)
      rw [hbr] at hkp hq
      exact ⟨keep,hkp,fun hk => .directCommit (leaderBlock_of_held hv hg hs) (hq hk)⟩
    rcases filterOk_slot hv hbound hunique hl ht with ⟨hn,-⟩ | ⟨b,ho,hb⟩
    · exact ⟨.undecided ⟨r,lead r⟩,by simp [hn],rfl⟩
    · exact ⟨.commit b,by simp [ho],hb⟩

theorem decideLeaderFromAnchor_ok {r n : Nat} (hl : s.lastCommitRound < r)
    (hn : r + waveLength ≤ n) {anchor : VerifiedBlockHeader}
    (han : StatusOk U s lead n (.commit anchor))
    (hsk : ∀ m, r + waveLength ≤ m → m < n → Decided U lead m none) :
    ∃ st, (committerOf r).decideLeaderFromAnchor s anchor ⟨r,lead r⟩ = .ok st ∧
      StatusOk U s lead r st := by
  obtain ⟨hg,hd⟩ := han
  have har : anchor.round = n := congrArg Slot.round hd.leaderBlock.slot_eq
  have hrn : r+2 < anchor.round := by unfold waveLength at hn; omega
  obtain ⟨certs,hce,hh,hal⟩ := hv.ancestorsAtRound_ok hg hrn
  simp only [decideLeaderFromAnchor,certifyingRound_committerOf,hce,ok_bind]
  have ha : ∀ b : VerifiedBlockHeader, b.slot = ⟨r,lead r⟩ →
      s.anyCertificate b certs ∅ = .ok (certs.any fun c => Certifies U c b) := by
    intro b hs
    have hbr : b.round = r := congrArg Slot.round hs
    refine anyCertificate_ok hv (fun c hc => ?_) votesCached_empty
    obtain ⟨hc,-,hcr⟩ := hh c hc
    exact ⟨hc,by omega⟩
  have ht : ∀ b, s.getVerifiedBlockHeader b.reference = some b → b.slot = ⟨r,lead r⟩ →
      ∃ keep, s.anyCertificate b certs ∅ = .ok keep ∧
        (keep = true → Decided U lead r (some b)) := by
    intro b hb hs
    refine ⟨_,ha b hs,fun hk => ?_⟩
    obtain ⟨c,hc,hct⟩ := any_eq_true.mp hk
    obtain ⟨hcg,hr,hcr⟩ := hh c hc
    have hbr : b.round = r := congrArg Slot.round hs
    have hle := Certifies.round_le (hv.mem hcg) (of_decide_eq_true hct)
    exact .indirectCommit hn hd hsk (leaderBlock_of_held hv hb hs) hr (by omega)
      (of_decide_eq_true hct)
  rcases filterOk_slot hv hbound hunique hl ht with ⟨hnl,hno⟩ | ⟨b,ho,hb⟩
  · refine ⟨.skip ⟨r,lead r⟩,by simp [hnl],rfl,.indirectSkip hn hd hsk ?_⟩
    -- a leader block certified in the history of the anchor is itself in that history
    intro c b hb hr hcr hct
    have hbg := hv.get_of_reaches hg (hr.trans (hct.reaches hb.mem))
    refine hno b hbg hb.slot_eq ?_
    rw [ha b hb.slot_eq,any_eq_true.mpr ⟨c,hal c hr hcr,decide_eq_true hct⟩]
  · exact ⟨.commit b,by simp [ho],hb⟩

/-- Statuses of consecutive rounds from `n` on, all in agreement with the commit rule. -/
def ConsecutiveOk (U : Universe ctx) (s : DagState ctx) (lead : Nat → Nat) :
    Nat → List LeaderStatus → Prop
  | _, [] => True
  | n, st :: rest => StatusOk U s lead n st ∧ ConsecutiveOk U s lead (n+1) rest

omit hv hbound hunique in
theorem StatusOk.round_eq (h : StatusOk U s lead n st) : st.round = n := by
  cases st with
  | commit b => exact congrArg Slot.round h.2.leaderBlock.slot_eq
  | skip slot => exact congrArg Slot.round h.1
  | undecided slot => exact congrArg Slot.round h

theorem decideFromAnchors_ok (hls : s.lastCommitRound < r)
    {leaders : List LeaderStatus} (hl : ConsecutiveOk U s lead n leaders)
    (hs : ∀ m, r + waveLength ≤ m → m < n → Decided U lead m none) :
    ∃ st, (committerOf r).decideFromAnchors s ⟨r,lead r⟩
        (leaders.filter fun x => r + waveLength ≤ x.round) = .ok st ∧ StatusOk U s lead r st := by
  induction leaders generalizing n with
  | nil => exact ⟨.undecided ⟨r,lead r⟩,rfl,rfl⟩
  | cons st rest ih =>
    obtain ⟨hst,hr⟩ := hl
    by_cases hn : r + waveLength ≤ n
    · rw [filter_cons_of_pos (by simpa [hst.round_eq] using hn)]
      cases st with
      | commit anchor => exact decideLeaderFromAnchor_ok hv hbound hunique hls hn hst hs
      | skip slot =>
        refine ih hr fun m hm hmn => ?_
        rcases Nat.lt_or_ge m n with hlt | hge
        · exact hs m hm hlt
        · obtain rfl : m = n := by omega
          exact hst.2
      | undecided slot => exact ⟨.undecided ⟨r,lead r⟩,rfl,rfl⟩
    · rw [filter_cons_of_neg (by simpa [hst.round_eq] using hn)]
      exact ih hr fun m hm hmn => hs m hm (by omega)

theorem decideSlot_ok (hls : s.lastCommitRound < r)
    (hl : ConsecutiveOk U s lead (r+1) (leaders.map Prod.fst)) :
    ∃ st d, UniversalCommitter.decideSlot s (committerOf r) ⟨r,lead r⟩ leaders = .ok (st,d) ∧
      StatusOk U s lead r st := by
  obtain ⟨st,hst,hok⟩ := tryDirectDecide_ok hv hbound hunique lead hls
  simp only [UniversalCommitter.decideSlot,hst,ok_bind]
  by_cases hd : st.isDecided
  · exact ⟨st,.direct,by rw [if_pos hd],hok⟩
  have hs : ∀ m, r + waveLength ≤ m → m < r+1 → Decided U lead m none := by
    intro m hm hmr
    unfold waveLength at hm
    omega
  obtain ⟨st',hst',hok'⟩ := decideFromAnchors_ok hv hbound hunique hls hl hs
  refine ⟨st',.indirect,?_,hok'⟩
  rw [if_neg hd,tryIndirectDecide,hst']
  rfl

end BaseCommitter
section UniversalCommitter
open UniversalCommitter
variable {ctx : Context} (schedule : LeaderSchedule)

def scheduledLeader (ctx : Context) (r : Nat) : Nat :=
  match schedule.electLeader ctx r 0 with
  | .ok leader => leader
  | .error _ => 0

variable {schedule} {U : Universe ctx} {s : DagState ctx}

theorem electLeader_cases (ctx : Context) (schedule : LeaderSchedule) (r : Nat) :
    schedule.electLeader ctx r 0 = .ok (scheduledLeader schedule ctx r) ∨
      schedule.electLeader ctx r 0 = .error .noGoodNode := by
  have hs : ∀ leader, schedule.leaderSwapTable.swap ctx leader r 0 = .error .noGoodNode ∨
      ∃ swapped, schedule.leaderSwapTable.swap ctx leader r 0 = .ok swapped := by
    intro leader
    unfold LeaderSwapTable.swap
    by_cases hb : leader ∈ schedule.leaderSwapTable.badNodes
    · by_cases hg : schedule.leaderSwapTable.goodNodes = []
      · simp [hb,hg]
      · simp [hb,hg]
    · simp [hb]
  unfold scheduledLeader LeaderSchedule.electLeader
  rcases hs (ctx.electLeaderStakeBased r 0) with h | ⟨swapped,h⟩
  · simp [h]
  · simp [h]

theorem electLeader_committer (ctx : Context) (schedule : LeaderSchedule) {offset : Nat}
    (ho : offset < waveLength) (r : Nat) :
    (BaseCommitter.mk 0 offset).electLeader ctx schedule r =
      if offset = r % waveLength then
        (schedule.electLeader ctx r 0).map fun leader => some ⟨r,leader⟩
      else .ok none := by
  unfold electLeader leaderRound waveNumber waveLength
  unfold waveLength at ho
  by_cases h : offset = r % 3
  · rw [if_pos h,if_neg (by simp only; omega)]
  · rw [if_neg h,if_pos (by simp only; omega)]

theorem decideLeaders_round (lastDecided : Slot) (r : Nat) (rest : List (Nat × BaseCommitter))
    (leaders : List (LeaderStatus × Decision)) :
    decideLeaders schedule s lastDecided
        (committers.reverse.map (fun committer => (r,committer)) ++ rest) leaders =
      decideLeaders schedule s lastDecided ((r,committerOf r) :: rest) leaders := by
  have hcs : committers.reverse = [⟨0,2⟩,⟨0,1⟩,⟨0,0⟩] := rfl
  rw [hcs]
  have hlt : r % waveLength < 3 := Nat.mod_lt _ (by decide)
  have hs : ∀ offset tail, offset < waveLength → offset ≠ r % waveLength →
      ∀ leaders, decideLeaders schedule s lastDecided ((r,⟨0,offset⟩) :: tail) leaders =
        decideLeaders schedule s lastDecided tail leaders := by
    intro offset tail ho hne leaders
    simp only [decideLeaders,electLeader_committer ctx schedule ho r,if_neg hne,ok_bind]
  have hc : ∀ p tail tail', (∀ leaders, decideLeaders schedule s lastDecided tail leaders =
      decideLeaders schedule s lastDecided tail' leaders) → ∀ leaders,
      decideLeaders schedule s lastDecided (p :: tail) leaders =
        decideLeaders schedule s lastDecided (p :: tail') leaders := by
    intro p tail tail' h leaders
    simp only [decideLeaders,h]
  -- the committers before and after the one of the round's residue are skipped
  have hca : r % waveLength = 0 ∨ r % waveLength = 1 ∨ r % waveLength = 2 := by omega
  unfold committerOf
  simp only [map_cons,map_nil,cons_append,nil_append]
  rcases hca with h | h | h
  · rw [h,hs 2 _ (by decide) (by omega),hs 1 _ (by decide) (by omega)]
  · rw [h,hs 2 _ (by decide) (by omega)]
    exact hc _ _ _ (hs 0 _ (by decide) (by omega)) leaders
  rw [h]
  refine hc _ _ _ (fun leaders => ?_) leaders
  rw [hs 1 _ (by decide) (by omega),hs 0 _ (by decide) (by omega)]

theorem descending_succ (first k : Nat) :
    descending first (k+1) =
      committers.reverse.map (fun committer => (first + k,committer)) ++ descending first k := by
  rw [descending,List.range'_1_concat,reverse_append]
  rfl

variable {lastDecided : Slot} {rest : List (Nat × BaseCommitter)}

theorem decideLeaders_elected {decided : LeaderStatus × Decision}
    (he : schedule.electLeader ctx r 0 = .ok (scheduledLeader schedule ctx r))
    (hne : (⟨r,scheduledLeader schedule ctx r⟩ : Slot) ≠ lastDecided)
    (hd : decideSlot s (committerOf r) ⟨r,scheduledLeader schedule ctx r⟩ leaders =
      .ok decided) :
    decideLeaders schedule s lastDecided ((r,committerOf r) :: rest) leaders =
      decideLeaders schedule s lastDecided rest (decided :: leaders) := by
  have hm : r % waveLength < waveLength := Nat.mod_lt _ (by decide)
  have h := electLeader_committer ctx schedule hm r
  rw [if_pos rfl,he] at h
  rw [decideLeaders,committerOf,h]
  simp only [ok_map,ok_bind,if_neg hne]
  rw [← committerOf,hd]
  rfl

theorem decideLeaders_not_elected (he : schedule.electLeader ctx r 0 = .error .noGoodNode) :
    decideLeaders schedule s lastDecided ((r,committerOf r) :: rest) leaders =
      .error .noGoodNode := by
  have hm : r % waveLength < waveLength := Nat.mod_lt _ (by decide)
  have h := electLeader_committer ctx schedule hm r
  rw [if_pos rfl,he] at h
  rw [decideLeaders,committerOf,h]
  rfl

theorem tryDecide_eq_ok {d : List DecidedLeader} :
    tryDecide schedule s lastDecided = .ok d ↔ ∃ leaders,
      decideAll schedule s lastDecided = .ok leaders ∧
        decidedSequence (leaders.map Prod.fst) = d := by
  simp only [tryDecide,bind_eq_ok,Except.ok.injEq]

section Run
variable (hv : View U s) {byzantine : Finset Nat} (hbound : ctx.committee.FaultBound byzantine)
  (hunique : U.HonestUnique byzantine)

include hv hbound hunique

variable {lastDecided : Slot}

/-- The loop over `k` rounds from `first` down extends a list of statuses that agree with the commit
rule to such a list from `first` on. It fails only where the schedule has no leader. -/
theorem decideLeaders_ok (hls : s.lastCommitRound ≤ lastDecided.round)
    {first k : Nat} (hf : lastDecided.round < first)
    (hl : ConsecutiveOk U s (scheduledLeader schedule ctx) (first + k) (leaders.map Prod.fst)) :
    decideLeaders schedule s lastDecided (descending first k) leaders = .error .noGoodNode ∨
      ∃ out, decideLeaders schedule s lastDecided (descending first k) leaders = .ok out ∧
        ConsecutiveOk U s (scheduledLeader schedule ctx) first (out.map Prod.fst) := by
  induction k generalizing leaders with
  | zero => exact .inr ⟨leaders,rfl,hl⟩
  | succ k ih =>
    rw [descending_succ,decideLeaders_round]
    have hr : s.lastCommitRound < first + k := by omega
    have hel := electLeader_cases ctx schedule (first + k)
    cases hel with
    | inl hel =>
      obtain ⟨st,d,hst,hok⟩ := decideSlot_ok hv hbound hunique hr hl
      have hne : (⟨first + k,scheduledLeader schedule ctx (first + k)⟩ : Slot) ≠ lastDecided := by
        intro he
        have hrn : first + k = lastDecided.round := congrArg Slot.round he
        omega
      rw [decideLeaders_elected hel hne hst]
      exact ih ⟨hok,hl⟩
    | inr hel => exact .inl (decideLeaders_not_elected hel)

theorem decideAll_ok (schedule : LeaderSchedule) (hl : s.lastCommitRound ≤ lastDecided.round) :
    decideAll schedule s lastDecided = .error .noGoodNode ∨
      ∃ leaders, decideAll schedule s lastDecided = .ok leaders ∧
        ConsecutiveOk U s (scheduledLeader schedule ctx) (lastDecided.round+1)
          (leaders.map Prod.fst) :=
  decideLeaders_ok hv hbound hunique hl (Nat.lt_succ_self _) trivial

theorem consecutiveOk_of_decideAll (hl : s.lastCommitRound ≤ lastDecided.round)
    (h : decideAll schedule s lastDecided = .ok leaders) :
    ConsecutiveOk U s (scheduledLeader schedule ctx) (lastDecided.round+1)
      (leaders.map Prod.fst) := by
  rcases decideAll_ok hv hbound hunique schedule hl with her | ⟨leaders',hok,hc⟩
  · rw [her] at h
    cases h
  · rw [hok] at h
    exact ok.inj h ▸ hc

theorem panic_of_tryDecide (hl : s.lastCommitRound ≤ lastDecided.round)
    {p : Panic} (h : tryDecide schedule s lastDecided = .error p) : p = .noGoodNode := by
  unfold tryDecide at h
  rcases decideAll_ok hv hbound hunique schedule hl with her | ⟨leaders,hok,-⟩
  · rw [her] at h
    exact (error.inj h).symm
  · rw [hok] at h
    cases h

end Run
section Agreement
variable {s₁ s₂ : DagState ctx} {lead : Nat → Nat} {byzantine : Finset Nat}
  (hbound : ctx.committee.FaultBound byzantine) (hunique : U.HonestUnique byzantine)

theorem StatusOk.slot_eq {d : DecidedLeader}
    (h : StatusOk U s lead n st) (hd : st.intoDecidedLeader = some d) : d.slot = ⟨n,lead n⟩ := by
  cases st with
  | commit b =>
    cases hd
    exact h.2.leaderBlock.slot_eq
  | skip slot =>
    cases hd
    exact h.1
  | undecided slot => cases hd

theorem ConsecutiveOk.exists_statusOk {leaders : List LeaderStatus}
    (h : ConsecutiveOk U s lead n leaders) (hst : st ∈ leaders) : ∃ m, StatusOk U s lead m st := by
  induction leaders generalizing n with
  | nil => cases hst
  | cons x leaders ih =>
    cases hst with
    | head => exact ⟨n,h.1⟩
    | tail _ hst => exact ih h.2 hst

include hbound hunique

theorem StatusOk.agree {st1 st2 : LeaderStatus} {d1 d2 : DecidedLeader}
    (h1 : StatusOk U s₁ lead n st1) (h2 : StatusOk U s₂ lead n st2)
    (hd1 : st1.intoDecidedLeader = some d1) (hd2 : st2.intoDecidedLeader = some d2) : d1 = d2 := by
  cases st1 with
  | undecided slot => cases hd1
  | commit b =>
    cases hd1
    cases st2 with
    | undecided slot => cases hd2
    | commit b' =>
      cases hd2
      rw [Decided.commit_unique hbound hunique h1.2 h2.2]
    | skip slot => exact absurd (Decided.agree hbound hunique h1.2 h2.2) (by simp)
  | skip slot =>
    cases hd1
    cases st2 with
    | undecided slot => cases hd2
    | commit b' => exact absurd (Decided.agree hbound hunique h1.2 h2.2) (by simp)
    | skip slot' =>
      cases hd2
      rw [h1.1,h2.1]

theorem decidedSequence_comparable (hn : n ≠ genesisRound) {l1 l2 : List LeaderStatus}
    (h1 : ConsecutiveOk U s₁ lead n l1) (h2 : ConsecutiveOk U s₂ lead n l2) :
    decidedSequence l1 <+: decidedSequence l2 ∨ decidedSequence l2 <+: decidedSequence l1 := by
  induction l1 generalizing n l2 with
  | nil => exact .inl nil_prefix
  | cons st1 l1 ih =>
    cases l2 with
    | nil => exact .inr nil_prefix
    | cons st2 l2 =>
      obtain ⟨hst1,hl1⟩ := h1
      obtain ⟨hst2,hl2⟩ := h2
      simp only [decidedSequence,hst1.round_eq,hst2.round_eq,hn,if_false]
      cases hd1 : st1.intoDecidedLeader with
      | none => exact .inl nil_prefix
      | some d1 =>
        cases hd2 : st2.intoDecidedLeader with
        | none => exact .inr nil_prefix
        | some d2 =>
          rw [StatusOk.agree hbound hunique hst1 hst2 hd1 hd2]
          have hr := ih (Nat.succ_ne_zero n) hl1 hl2
          simpa [prefix_cons_inj] using hr

end Agreement

/-- On any two causally complete views of a set of valid headers with less than a third of the stake
faulty, under one schedule and from one last decided slot: no leader is decided differently, the
decided sequences are comparable, and the committer does not panic, except where the schedule itself
has no good node to elect. -/
theorem tryDecide_agreement {byzantine : Finset Nat}
    (hbound : ctx.committee.FaultBound byzantine) (hunique : U.HonestUnique byzantine)
    (schedule : LeaderSchedule) (lastDecided : Slot) {s₁ s₂ : DagState ctx}
    {own₁ own₂ cached₁ cached₂ : Nat} (hs₁ : CausallyReached U own₁ cached₁ s₁)
    (hs₂ : CausallyReached U own₂ cached₂ s₂) (hlast₁ : s₁.lastCommitRound ≤ lastDecided.round)
    (hlast₂ : s₂.lastCommitRound ≤ lastDecided.round) :
    (∀ p, tryDecide schedule s₁ lastDecided = .error p → p = .noGoodNode) ∧
    (∀ p, tryDecide schedule s₂ lastDecided = .error p → p = .noGoodNode) ∧
    (∀ l₁ l₂, decideAll schedule s₁ lastDecided = .ok l₁ →
      decideAll schedule s₂ lastDecided = .ok l₂ → ∀ x₁ ∈ l₁, ∀ x₂ ∈ l₂, ∀ d₁ d₂,
        x₁.1.intoDecidedLeader = some d₁ → x₂.1.intoDecidedLeader = some d₂ →
          d₁.slot = d₂.slot → d₁ = d₂) ∧
    ∀ d₁ d₂, tryDecide schedule s₁ lastDecided = .ok d₁ →
      tryDecide schedule s₂ lastDecided = .ok d₂ → d₁ <+: d₂ ∨ d₂ <+: d₁ := by
  have hv1 := hs₁.inv.view
  have hv2 := hs₂.inv.view
  refine ⟨fun p => panic_of_tryDecide hv1 hbound hunique hlast₁,
    fun p => panic_of_tryDecide hv2 hbound hunique hlast₂,?_,?_⟩
  · intro l₁ l₂ hl1 hl2 x₁ hx1 x₂ hx2 d₁ d₂ hd1 hd2 hs
    have hc1 := consecutiveOk_of_decideAll hv1 hbound hunique hlast₁ hl1
    have hc2 := consecutiveOk_of_decideAll hv2 hbound hunique hlast₂ hl2
    obtain ⟨m1,hst1⟩ := hc1.exists_statusOk (mem_map_of_mem hx1)
    obtain ⟨m2,hst2⟩ := hc2.exists_statusOk (mem_map_of_mem hx2)
    have hm : m1 = m2 := by
      have h := (hst1.slot_eq hd1).symm.trans (hs.trans (hst2.slot_eq hd2))
      exact congrArg Slot.round h
    subst hm
    exact StatusOk.agree hbound hunique hst1 hst2 hd1 hd2
  · intro d₁ d₂ hd1 hd2
    obtain ⟨l₁,hl1,rfl⟩ := tryDecide_eq_ok.mp hd1
    obtain ⟨l₂,hl2,rfl⟩ := tryDecide_eq_ok.mp hd2
    exact decidedSequence_comparable hbound hunique (Nat.succ_ne_zero _)
      (consecutiveOk_of_decideAll hv1 hbound hunique hlast₁ hl1)
      (consecutiveOk_of_decideAll hv2 hbound hunique hlast₂ hl2)

/-- On the chain of a sole authority: with three headers the first leader is committed, with none
nothing is decided. -/
theorem tryDecide_agreement_soleChain : ∃ s₁ s₂ : DagState soleContext,
    CausallyReached (ackingChain fun _ => []) 0 5 s₁ ∧
    CausallyReached (ackingChain fun _ => []) 0 5 s₂ ∧
    tryDecide (.new .default) s₁ ⟨0,0⟩ = .ok [.commit (ackingHeader (fun _ => []) 1)] ∧
    tryDecide (.new .default) s₂ ⟨0,0⟩ = .ok [] ∧
    ∀ d₁ d₂, tryDecide (.new .default) s₁ ⟨0,0⟩ = .ok d₁ →
      tryDecide (.new .default) s₂ ⟨0,0⟩ = .ok d₂ → d₁ <+: d₂ ∨ d₂ <+: d₁ := by
  have h0 : CausallyReached (ackingChain fun _ => []) 0 5 _ := .init rfl
  have h1 := CausallyReached.chain (n := 0) h0 rfl rfl
  have h2 := CausallyReached.chain (n := 1) h1 rfl rfl
  have h3 := CausallyReached.chain (n := 2) h2 rfl rfl
  exact ⟨_,_,h3,h0,rfl,rfl,(tryDecide_agreement (by decide) (ackingChain_honestUnique ∅)
    (.new .default) ⟨0,0⟩ h3 h0 (Nat.le_refl 0) (Nat.le_refl 0)).2.2.2⟩

end UniversalCommitter
end Iota.Starfish
