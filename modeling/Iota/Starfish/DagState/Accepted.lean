import Iota.Starfish.Committer
import Iota.Starfish.DagState.Cache

/-! The lookups of the commit rule by slot and by round see every accepted header above the last
committed leader, and are never asked for a round that has been committed. -/
namespace Iota.Starfish
open BlockVerifier Except List Universe
open Std (ExtTreeMap ExtTreeSet)
variable {ctx : Context} {U : Universe ctx}

/-- A DAG state with the headers it has accepted. A crash loses those that were not stored. -/
structure AcceptingState (ctx : Context) where
  dag : DagState ctx
  accepted : List VerifiedBlockHeader

namespace AcceptingState
variable {st st' : AcceptingState ctx}

def acceptedAfter (st : AcceptingState ctx) : DagOp → List VerifiedBlockHeader
  | .acceptBlockHeader h => h :: st.accepted
  | .restart => st.accepted.filter fun h => st.dag.store.blockHeaders[h.reference]? = some h
  | _ => st.accepted

def exec (st : AcceptingState ctx) (op : DagOp) : Except Panic (AcceptingState ctx) := do
  let dag ← st.dag.exec op
  .ok ⟨dag,st.acceptedAfter op⟩

def Initial (ownIndex cachedRounds : Nat) (st : AcceptingState ctx) : Prop :=
  DagState.Initial ownIndex cachedRounds st.dag ∧ st.accepted = []

def Reached (U : Universe ctx) (ownIndex cachedRounds : Nat) : AcceptingState ctx → Prop :=
  Machine.Reached (Initial ownIndex cachedRounds) exec fun st op => DagState.Storing U st.dag op

/-- Beside genesis, exactly the accepted headers are found. -/
structure Inv (U : Universe ctx) (st : AcceptingState ctx) : Prop where
  cache : DagState.CacheInv U st.dag
  mem_iff : ∀ h, h ∈ st.accepted ↔
    st.dag.getVerifiedBlockHeader h.reference = some h ∧ h.round ≠ genesisRound

theorem Inv.exec (hi : Inv U st) {op : DagOp} (hop : DagState.Storing U st.dag op)
    (h : st.exec op = .ok st') : Inv U st' := by
  obtain ⟨s',hs,h⟩ := of_bind h
  cases h
  have hg := hi.cache.get_exec hop hs
  refine ⟨hi.cache.exec hop hs,fun x => ?_⟩
  rw [hg]
  cases op with
  | acceptBlockHeader header =>
    have hp : header.round ≠ genesisRound := by
      intro h0
      have her : st.dag.acceptBlockHeader header = .error .genesisHeaderAccepted := if_pos h0
      exact absurd (her.symm.trans hs) (by simp)
    simp only [acceptedAfter,DagState.lookupAfter]
    rw [mem_cons,hi.mem_iff]
    by_cases hr : header.reference = x.reference
    · rw [if_pos hr]
      constructor
      · rintro (rfl | ⟨hx,h0⟩)
        · exact ⟨rfl,hp⟩
        have hxU := hi.cache.coherent.get_sound hx
        have hhU := mem_def.mp hop
        rw [hr] at hhU
        exact ⟨hhU.symm.trans hxU,h0⟩
      · rintro ⟨hx,-⟩
        exact .inl (Option.some.inj hx).symm
    · rw [if_neg hr]
      constructor
      · rintro (rfl | hx)
        · exact absurd rfl hr
        · exact hx
      · exact .inr
  | restart =>
    simp only [acceptedAfter,DagState.lookupAfter]
    rw [mem_filter,decide_eq_true_eq,hi.mem_iff]
    constructor
    · rintro ⟨⟨-,h0⟩,hst⟩
      exact ⟨(DagState.storeLookup_header h0).trans hst,h0⟩
    rintro ⟨hx,h0⟩
    rw [DagState.storeLookup_header h0] at hx
    exact ⟨⟨hi.cache.coherent.get_eq_some_iff.mpr (.inr ⟨h0,.inr hx⟩),h0⟩,hx⟩
  | _ => exact hi.mem_iff x

theorem Inv.initial {ownIndex cachedRounds : Nat} (h : Initial ownIndex cachedRounds st) :
    Inv U st := by
  obtain ⟨hd,ha⟩ := h
  have hc := DagState.CacheInv.initial U hd
  refine ⟨hc,fun x => ?_⟩
  have hn : st.dag.getVerifiedBlockHeader = DagState.storeLookup ctx .empty := by
    obtain ⟨scoring,heq⟩ := DagState.new_cases hd
    have hch : DagState.Coherent U
        (DagState.recovered ctx ownIndex cachedRounds .empty scoring) :=
      (DagState.CacheInv.empty U).coherent.of_empty rfl rfl rfl rfl
    obtain ⟨-,hcm,hb,-⟩ := hch.foldl_load .recover (List.range ctx.committee.size)
    rw [← heq] at hcm hb
    rw [hc.coherent.get_eq_storeLookup hb]
    exact congrArg (DagState.storeLookup ctx) (congrArg DagState.CommitPart.store hcm)
  rw [ha,hn]
  constructor
  · intro hx
    cases hx
  rintro ⟨hx,h0⟩
  rw [DagState.storeLookup_header h0] at hx
  simp [Store.empty] at hx

theorem Reached.inv {ownIndex cachedRounds : Nat} (h : Reached U ownIndex cachedRounds st) :
    Inv U st :=
  h.invariant (fun _ => Inv.initial) fun _ _ _ hi hop hs => hi.exec hop hs

end AcceptingState

def NotCommittedRound {α : Type} (x : Except Panic α) : Prop := x ≠ .error .roundHasCommittedHeaders

section NotCommittedRound

theorem NotCommittedRound.ok {α : Type} (a : α) : NotCommittedRound (.ok a) := by
  simp [NotCommittedRound]

theorem NotCommittedRound.bind {α β : Type} {x : Except Panic α} {f : α → Except Panic β}
    (hx : NotCommittedRound x) (hf : ∀ a, x = .ok a → NotCommittedRound (f a)) :
    NotCommittedRound (x >>= f) := by
  intro h
  rcases bind_eq_error.mp h with hx' | ⟨a,ha,hfa⟩
  · exact hx hx'
  · exact hf a ha hfa

theorem NotCommittedRound.map {α β : Type} {x : Except Panic α} (hx : NotCommittedRound x)
    (f : α → β) : NotCommittedRound (x.map f) := by
  cases x with
  | ok a => exact .ok _
  | error e =>
    intro h
    exact hx (congrArg Except.error (error.inj h))

theorem NotCommittedRound.quorumAmong {α σ : Type} {c : Committee} {author : α → Nat}
    {test : σ → α → Except Panic (Bool × σ)} (ht : ∀ st x, NotCommittedRound (test st x))
    (xs : List α) (agg : StakeAggregator c) (st : σ) :
    NotCommittedRound (quorumAmong c author test xs agg st) := by
  induction xs generalizing agg st with
  | nil => exact .ok _
  | cons x xs ih =>
    refine (ht st x).bind fun p _ => ?_
    obtain ⟨passes,-⟩ := p
    cases passes with
    | false => exact ih _ _
    | true =>
      dsimp only
      rw [if_pos rfl]
      split
      · exact .ok _
      · exact ih _ _

theorem NotCommittedRound.filterOk {α : Type} {test : α → Except Panic Bool} {xs : List α}
    (ht : ∀ x ∈ xs, NotCommittedRound (test x)) : NotCommittedRound (filterOk test xs) := by
  induction xs with
  | nil => exact .ok _
  | cons x xs ih =>
    refine (ht x mem_cons_self).bind fun keep _ => ?_
    refine (ih fun y hy => ht y (.tail _ hy)).bind fun rest _ => ?_
    exact .ok _

end NotCommittedRound
namespace DagState
variable (s : DagState ctx)

theorem notCommittedRound_findSupportedBlock (slot : Slot) (fuel : Nat) (h : VerifiedBlockHeader) :
    NotCommittedRound (s.findSupportedBlock slot fuel h) := by
  induction fuel generalizing h with
  | zero => simp [findSupportedBlock,NotCommittedRound]
  | succ fuel ih =>
    unfold findSupportedBlock
    split
    · exact .ok _
    induction h.ancestors with
    | nil => exact .ok _
    | cons a rest ihrest =>
      refine NotCommittedRound.bind ?_ fun found _ => ?_
      · dsimp only
        split
        · exact .ok _
        split
        · exact .ok _
        split
        · simp [NotCommittedRound]
        · exact ih _
      cases found with
      | none => exact ihrest
      | some r => exact .ok _

theorem notCommittedRound_isCertificate (leader : VerifiedBlockHeader)
    (votes : ExtTreeMap BlockRef Bool) (h : VerifiedBlockHeader) :
    NotCommittedRound (s.isCertificate leader votes h) := by
  refine .quorumAmong (fun votes r => ?_) _ _ _
  unfold isVoteCached
  split
  · exact .ok _
  split
  · simp [NotCommittedRound]
  · refine NotCommittedRound.bind ?_ fun vote _ => .ok _
    exact (notCommittedRound_findSupportedBlock s _ _ _).bind fun support _ => .ok _

theorem notCommittedRound_atRound {round : Nat} (h : s.lastCommitRound < round) :
    NotCommittedRound (s.getUncommittedBlockHeadersAtRound round) := by
  unfold getUncommittedBlockHeadersAtRound
  rw [if_neg (Nat.not_le.mpr h)]
  exact .ok _

theorem notCommittedRound_enoughLeaderBlame {round : Nat} (h : s.lastCommitRound < round)
    (leader : Nat) : NotCommittedRound (s.enoughLeaderBlame round leader) := by
  refine (s.notCommittedRound_atRound h).bind fun blocks _ => ?_
  refine (NotCommittedRound.quorumAmong (fun _ _ => .ok _) _ _ _).bind fun p _ => ?_
  exact .ok _

theorem notCommittedRound_enoughLeaderSupport {round : Nat} (h : s.lastCommitRound < round)
    (leader : VerifiedBlockHeader) : NotCommittedRound (s.enoughLeaderSupport round leader) := by
  refine (s.notCommittedRound_atRound h).bind fun blocks _ => ?_
  dsimp only
  split
  · exact .ok _
  refine (NotCommittedRound.quorumAmong
    (s.notCommittedRound_isCertificate leader) _ _ _).bind fun p _ => ?_
  exact .ok _

theorem notCommittedRound_anyCertificate (leader : VerifiedBlockHeader)
    (certificates : List VerifiedBlockHeader) (votes : ExtTreeMap BlockRef Bool) :
    NotCommittedRound (s.anyCertificate leader certificates votes) := by
  induction certificates generalizing votes with
  | nil => exact .ok _
  | cons h rest ih =>
    refine (s.notCommittedRound_isCertificate leader votes h).bind fun p _ => ?_
    dsimp only
    split
    · exact .ok _
    · exact ih _

theorem notCommittedRound_ancestorsAtRound (h : VerifiedBlockHeader) (round : Nat) :
    NotCommittedRound (s.ancestorsAtRound h round) := by
  have hl : ∀ fuel linked, NotCommittedRound (s.linkedAtRound round fuel linked) := by
    intro fuel
    induction fuel with
    | zero => simp [linkedAtRound,NotCommittedRound]
    | succ fuel ih =>
      intro linked
      unfold linkedAtRound
      split
      · exact .ok _
      split
      · exact .ok _
      split
      · simp [NotCommittedRound]
      · exact ih _
  have he : ∀ headers, NotCommittedRound (expectHeaders headers) := by
    intro headers
    induction headers with
    | nil => exact .ok _
    | cons header headers ih =>
      cases header with
      | none => simp [expectHeaders,NotCommittedRound]
      | some header => exact ih.map _
  exact (hl _ _).bind fun linked _ => he _

end DagState
namespace UniversalCommitter
variable {schedule : LeaderSchedule} {s : DagState ctx}

theorem notCommittedRound_electLeader (committer : BaseCommitter) (round : Nat) :
    NotCommittedRound (committer.electLeader ctx schedule round) := by
  unfold BaseCommitter.electLeader
  split
  · exact .ok _
  refine NotCommittedRound.map (NotCommittedRound.bind ?_ fun swapped _ => .ok _) _
  unfold LeaderSwapTable.swap
  repeat' split
  all_goals simp [NotCommittedRound]

theorem notCommittedRound_decideSlot {committer : BaseCommitter} {slot : Slot}
    (hs : s.lastCommitRound < slot.round)
    (hl : committer.leaderRound (committer.waveNumber slot.round) = slot.round)
    (leaders : List (LeaderStatus × Decision)) :
    NotCommittedRound (decideSlot s committer slot leaders) := by
  have hc : s.lastCommitRound <
      committer.certifyingRound (committer.waveNumber slot.round) := by
    unfold BaseCommitter.leaderRound at hl
    unfold BaseCommitter.certifyingRound waveLength at *
    omega
  have hd : NotCommittedRound (committer.tryDirectDecide s slot) := by
    refine (s.notCommittedRound_enoughLeaderBlame (by omega) _).bind fun blamed _ => ?_
    split
    · exact .ok _
    · refine (NotCommittedRound.filterOk fun x _ =>
        s.notCommittedRound_enoughLeaderSupport hc x).bind fun supported _ => ?_
      split
      · exact .ok _
      · exact .ok _
      · simp [NotCommittedRound]
  have ha : ∀ anchor, NotCommittedRound (committer.decideLeaderFromAnchor s anchor slot) := by
    intro anchor
    refine (s.notCommittedRound_ancestorsAtRound anchor _).bind fun certificates _ => ?_
    refine (NotCommittedRound.filterOk fun x _ =>
      s.notCommittedRound_anyCertificate x certificates ∅).bind fun certified _ => ?_
    split
    · exact .ok _
    · exact .ok _
    · simp [NotCommittedRound]
  have hi : ∀ statuses, NotCommittedRound (committer.decideFromAnchors s slot statuses) := by
    intro statuses
    induction statuses with
    | nil => exact .ok _
    | cons status rest ih =>
      cases status with
      | commit anchor => exact ha anchor
      | skip _ => exact ih
      | undecided _ => exact .ok _
  refine hd.bind fun status _ => ?_
  split
  · exact .ok _
  · exact (hi _).bind fun status _ => .ok _

theorem notCommittedRound_tryDecide {lastDecided : Slot}
    (hls : s.lastCommitRound ≤ lastDecided.round) :
    NotCommittedRound (tryDecide schedule s lastDecided) := by
  have hl : ∀ (entries : List (Nat × BaseCommitter)) leaders,
      (∀ p ∈ entries, s.lastCommitRound < p.1) →
      NotCommittedRound (decideLeaders schedule s lastDecided entries leaders) := by
    intro entries
    induction entries with
    | nil => exact fun _ _ => .ok _
    | cons p entries ih =>
      intro leaders hrn
      obtain ⟨round,committer⟩ := p
      have hro : s.lastCommitRound < round := hrn (round,committer) mem_cons_self
      have hr := fun leaders => ih leaders fun p hp => hrn p (.tail _ hp)
      refine (notCommittedRound_electLeader committer round).bind fun elected he => ?_
      cases elected with
      | none => exact hr leaders
      | some slot =>
        -- a committer with a leader at the round starts a wave there
        have hs : slot.round = round ∧ committer.leaderRound (committer.waveNumber round) = round := by
          unfold BaseCommitter.electLeader at he
          split at he
          · cases he
          · next hw =>
            obtain ⟨leader,-,heq⟩ := map_eq_ok.mp he
            exact ⟨congrArg Slot.round (Option.some.inj heq).symm,not_not.mp hw⟩
        dsimp only
        split
        · exact .ok _
        refine NotCommittedRound.bind ?_ fun decided _ => hr _
        refine notCommittedRound_decideSlot ?_ ?_ leaders
        · rw [hs.1]
          exact hro
        · rw [hs.1]
          exact hs.2
  refine NotCommittedRound.bind (hl _ _ fun p hp => ?_) fun leaders _ => .ok _
  obtain ⟨round,hm,hp⟩ := mem_flatMap.mp hp
  obtain ⟨committer,-,rfl⟩ := mem_map.mp hp
  have hge := (mem_range'_1.mp (mem_reverse.mp hm)).1
  omega

end UniversalCommitter
open AcceptingState UniversalCommitter in
/-- In every run, a header that was accepted and not lost in a crash is cached when its round is
above the last committed leader. The lookups by slot and by round return exactly the accepted headers
there, and the commit rule does not ask for committed rounds. -/
theorem accepted_headers_cached {ownIndex cachedRounds : Nat} {st : AcceptingState ctx}
    (hst : Reached U ownIndex cachedRounds st) :
    (∀ h ∈ st.accepted, st.dag.lastCommitRound < h.round →
      st.dag.recentBlockHeaders[h.reference]? = some h) ∧
    (∀ slot : Slot, st.dag.lastCommitRound < slot.round →
      ∀ h, h ∈ st.dag.getUncommittedBlockHeadersAtSlot slot ↔ h ∈ st.accepted ∧ h.slot = slot) ∧
    (∀ round, st.dag.lastCommitRound < round →
      ∃ headers, st.dag.getUncommittedBlockHeadersAtRound round = .ok headers ∧
        ∀ h, h ∈ headers ↔ h ∈ st.accepted ∧ h.round = round) ∧
    ∀ schedule lastDecided, st.dag.lastCommitRound ≤ lastDecided.round →
      tryDecide schedule st.dag lastDecided ≠ .error .roundHasCommittedHeaders := by
  have hi := hst.inv
  have hc : ∀ h ∈ st.accepted, st.dag.lastCommitRound < h.round →
      st.dag.recentBlockHeaders[h.reference]? = some h := by
    intro h hh hl
    exact hi.cache.recent_of_get ((hi.mem_iff h).mp hh).1 hl
  have hrc : ∀ {r : BlockRef} {h}, st.dag.recentBlockHeaders[r]? = some h →
      h.reference = r ∧ h ∈ st.accepted := by
    intro r h hr
    obtain ⟨hU,h0⟩ := hi.cache.coherent.recent_get hr
    have hrf := U.reference_eq hU
    subst hrf
    exact ⟨rfl,(hi.mem_iff h).mpr ⟨hi.cache.coherent.get_eq_some_iff.mpr (.inr ⟨h0,.inl hr⟩),h0⟩⟩
  refine ⟨hc,?_,?_,fun schedule lastDecided hl => notCommittedRound_tryDecide hl⟩
  · intro slot hl h
    simp only [DagState.getUncommittedBlockHeadersAtSlot,mem_map,mem_filter,
      Prod.exists,decide_eq_true_eq,ExtTreeMap.mem_toList_iff_getElem?_eq_some]
    constructor
    · rintro ⟨r,x,⟨hr,hs⟩,rfl⟩
      obtain ⟨rfl,hm⟩ := hrc hr
      exact ⟨hm,hs⟩
    · rintro ⟨hm,rfl⟩
      exact ⟨h.reference,h,⟨hc h hm hl,rfl⟩,rfl⟩
  · intro round hl
    refine ⟨_,if_neg (Nat.not_le.mpr hl),fun h => ?_⟩
    simp only [mem_map,mem_filter,Prod.exists,decide_eq_true_eq,
      ExtTreeMap.mem_toList_iff_getElem?_eq_some]
    constructor
    · rintro ⟨r,x,⟨hr,hrn⟩,rfl⟩
      obtain ⟨rfl,hm⟩ := hrc hr
      exact ⟨hm,hrn⟩
    · rintro ⟨hm,rfl⟩
      exact ⟨h.reference,h,⟨hc h hm hl,rfl⟩,rfl⟩

variable {ownIndex cachedRounds : Nat} {st : AcceptingState ctx}

theorem AcceptingState.Reached.next
    (hst : Reached U ownIndex cachedRounds st) {op : DagOp} (hop : DagState.Storing U st.dag op)
    {s' : DagState ctx} (h : st.dag.exec op = .ok s') :
    Reached U ownIndex cachedRounds ⟨s',st.acceptedAfter op⟩ := by
  refine .step hst hop ?_
  unfold AcceptingState.exec
  rw [h]
  rfl

theorem AcceptingState.Reached.accept
    (hst : Reached U ownIndex cachedRounds st) {h : VerifiedBlockHeader} (hU : h ∈ U)
    {s' : DagState ctx} (hs : st.dag.acceptBlockHeader h = .ok s') :
    Reached U ownIndex cachedRounds ⟨s',h :: st.accepted⟩ := by
  have hop : DagState.Storing U st.dag (.acceptBlockHeader h) := hU
  exact hst.next hop hs

theorem AcceptingState.Reached.flush (hst : Reached U ownIndex cachedRounds st) :
    Reached U ownIndex cachedRounds ⟨st.dag.flush,st.accepted⟩ := by
  have hop : DagState.Storing U st.dag .flush := trivial
  exact hst.next hop rfl

open AcceptingState in
/-- The first two headers of a chain, accepted and flushed, are the cached ones. -/
theorem accepted_headers_cached_soleChain : ∃ st : AcceptingState soleContext,
    Reached (ackingChain fun _ => []) 0 5 st ∧
    st.accepted = [ackingHeader (fun _ => []) 2,ackingHeader (fun _ => []) 1] ∧
    ∀ h ∈ st.accepted, st.dag.lastCommitRound < h.round →
      st.dag.recentBlockHeaders[h.reference]? = some h := by
  have h0 : Reached (ackingChain fun _ => []) 0 5 ⟨_,[]⟩ := .init ⟨rfl,rfl⟩
  have h1 := h0.accept (ackingHeader_mem 1) rfl
  have h2 := h1.accept (ackingHeader_mem 2) rfl
  have h3 := h2.flush
  exact ⟨_,h3,rfl,(accepted_headers_cached h3).1⟩

end Iota.Starfish
