import Iota.Starfish.DagState.Commits

/-! For each authority the highest round of its headers in the commits made so far. The state keeps
these rounds itself; on recovery they come from the last stored snapshot and a replay of the later
commits. -/
namespace Iota.Starfish
open CommitRef Except
open Std (ExtTreeMap)
namespace DagState
variable {ctx : Context} {s s' : DagState ctx}

/-- For each authority `rounds` is the highest round of its headers in the given commits. -/
def Exact (c : Committee) (commits : TrustedCommit → Prop) (rounds : Nat → Nat) : Prop :=
  ∀ a < c.size, ∀ n, rounds a ≤ n ↔
    ∀ x, commits x → ∀ r ∈ x.blockHeaders, r.author = a → r.round ≤ n

/-- The highest round among the references by an authority. -/
def highestRound (refs : List BlockRef) (a : Nat) : Nat :=
  ((refs.filter fun r => r.author = a).map BlockRef.round).foldr max 0

theorem highestRound_le_iff {refs : List BlockRef} {a n : Nat} :
    highestRound refs a ≤ n ↔ ∀ r ∈ refs, r.author = a → r.round ≤ n := by
  unfold highestRound
  induction refs with
  | nil => simp
  | cons r refs ih =>
    rw [List.forall_mem_cons,← ih]
    by_cases ha : r.author = a
    · simp [ha]
    · simp [ha]

theorem Exact.eq_highestRound {c : Committee} {commits : TrustedCommit → Prop}
    {rounds : Nat → Nat} (he : Exact c commits rounds) {refs : List BlockRef}
    (hrf : ∀ r, r ∈ refs ↔ ∃ x, commits x ∧ r ∈ x.blockHeaders) {a : Nat} (ha : a < c.size) :
    rounds a = highestRound refs a := by
  have hi : ∀ n, rounds a ≤ n ↔ highestRound refs a ≤ n := by
    intro n
    rw [he a ha n,highestRound_le_iff]
    constructor
    · intro hal r hr
      obtain ⟨x,hx,hrx⟩ := (hrf r).mp hr
      exact hal x hx r hrx
    · exact fun hal x hx r hr => hal r ((hrf r).mpr ⟨x,hx,hr⟩)
  exact le_antisymm ((hi _).mpr le_rfl) ((hi _).mp le_rfl)

/-- A snapshot taken at the commit `k`, with scores of commits up to it. -/
structure Snapshot (s : DagState ctx) (k : CommitRef) (info : CommitInfo) : Prop where
  exact_upto : Exact ctx.committee (fun c => s.Logged c ∧ c.index ≤ k.index)
    fun a => info.committedRounds.getD a 0
  range_le : info.reputationScores.commitRange.last ≤ k.index

/-- The committed rounds of the state and of its snapshots are the highest of the commits they
stand for. -/
structure WatermarkInv (s : DagState ctx) : Prop where
  log : CommitLog s
  rounds : Exact ctx.committee s.Logged s.lastCommittedRounds
  storeInfo : ∀ {k : CommitRef} {info}, s.store.commitInfo[k]? = some info →
    Snapshot s k info ∧ ∃ c, s.store.commits[k]? = some c
  info : ∀ {k info}, (k,info) ∈ s.commitInfoToWrite →
    Snapshot s k info ∧ ∃ c, s.Logged c ∧ c.reference = k

theorem Exact.congr {c : Committee} {commits commits' : TrustedCommit → Prop}
    {rounds : Nat → Nat} (he : Exact c commits rounds) (h : ∀ x, commits' x ↔ commits x) :
    Exact c commits' rounds := by
  intro a ha n
  rw [he a ha n]
  exact forall_congr' fun x => imp_congr_left (h x).symm

theorem Snapshot.congr {k : CommitRef} {info : CommitInfo} (hs : Snapshot s k info)
    (h : ∀ c, c.index ≤ k.index → (s'.Logged c ↔ s.Logged c)) : Snapshot s' k info :=
  ⟨hs.exact_upto.congr fun c => and_congr_left (h c),hs.range_le⟩

theorem WatermarkInv.congr (hw : WatermarkInv s) (h : s'.commitPart = s.commitPart) :
    WatermarkInv s' := by
  have hst : s'.store = s.store := congrArg CommitPart.store h
  have hrn : s'.lastCommittedRounds = s.lastCommittedRounds := congrArg CommitPart.rounds h
  have hi : s'.commitInfoToWrite = s.commitInfoToWrite := congrArg CommitPart.infoToWrite h
  constructor
  · exact hw.log.congr h
  · rw [hrn]
    exact hw.rounds.congr fun c => logged_congr h
  · intro k info hk
    rw [hst] at hk ⊢
    exact ⟨(hw.storeInfo hk).1.congr fun c _ => logged_congr h,(hw.storeInfo hk).2⟩
  intro k info hk
  rw [hi] at hk
  obtain ⟨hs,c,hc,hr⟩ := hw.info hk
  exact ⟨hs.congr fun c _ => logged_congr h,c,(logged_congr h).mpr hc,hr⟩

variable {c : TrustedCommit}

theorem CommitLog.index_le_last (hl : CommitLog s) (hc : s.Logged c) :
    c.index ≤ s.lastCommitIndex := by
  obtain ⟨last,hls,hle⟩ := hl.le_last hc
  unfold lastCommitIndex
  rw [hls]
  exact hle

section
variable (hw : WatermarkInv s)

include hw

theorem WatermarkInv.addCommit (h : s.addCommit c = .ok s') : WatermarkInv s' := by
  have hl := hw.log.addCommit h
  rcases addCommit_cases h with ⟨rfl,-⟩ | ⟨hi,-,rfl⟩
  · exact hw
  -- snapshots stand for commits below the new one
  have hsn : ∀ {k info x}, Snapshot s k info → s.Logged x → x.reference = k →
      Snapshot (s.appendCommit c) k info := by
    intro k info x hs hx hr
    refine hs.congr fun y hy => ?_
    rw [logged_appendCommit]
    refine or_iff_left ?_
    rintro rfl
    have hle := hw.log.index_le_last hx
    have hk : x.index = k.index := congrArg index hr
    omega
  constructor
  · exact hl
  · intro a ha n
    show raiseRounds s.lastCommittedRounds c.blockHeaders a ≤ n ↔ _
    rw [raiseRounds_le_iff,hw.rounds a ha n]
    constructor
    · rintro ⟨ho,hn⟩ x hx
      rcases logged_appendCommit.mp hx with hx | rfl
      · exact ho x hx
      · exact hn
    intro hal
    exact ⟨fun x hx => hal x (logged_appendCommit.mpr (.inl hx)),
      hal c (logged_appendCommit.mpr (.inr rfl))⟩
  · intro k info hk
    obtain ⟨hs,x,hx⟩ := hw.storeInfo hk
    exact ⟨hsn hs (.inl ⟨k,hx⟩) (hw.log.key hx),x,hx⟩
  · intro k info hk
    obtain ⟨hs,x,hx,hr⟩ := hw.info hk
    exact ⟨hsn hs hx hr,x,logged_appendCommit.mpr (.inl hx),hr⟩

theorem WatermarkInv.snapshot_last {last : TrustedCommit}
    (hl : s.lastCommit = some last) {scores : ReputationScores}
    (hr : scores.commitRange.last ≤ s.lastCommitIndex) :
    Snapshot s last.reference
      ⟨(List.range ctx.committee.size).map s.lastCommittedRounds,scores⟩ := by
  have hi : s.lastCommitIndex = last.reference.index := by
    unfold lastCommitIndex
    rw [hl]
    rfl
  constructor
  · intro a ha n
    have hg := getD_map_range s.lastCommittedRounds ctx.committee.size a
    rw [if_pos ha] at hg
    dsimp only
    rw [hg,hw.rounds a ha n]
    constructor
    · exact fun hal x hx => hal x hx.1
    · exact fun hal x hx => hal x ⟨hx,hi ▸ hw.log.index_le_last hx⟩
  · rw [← hi]
    exact hr

theorem WatermarkInv.addCommitInfo {scores : ReputationScores}
    (hr : scores.commitRange.last ≤ s.lastCommitIndex)
    (h : s.addCommitInfo scores = .ok s') : WatermarkInv s' := by
  obtain ⟨last,hl,rfl⟩ := addCommitInfo_cases h
  constructor
  · exact ⟨hw.log.key,hw.log.index_inj,hw.log.round_lt,hw.log.last_logged,hw.log.le_last,
      hw.log.index_pos,hw.log.below,hw.log.buffer_above⟩
  · exact hw.rounds
  · intro k info hk
    obtain ⟨hs,hc⟩ := hw.storeInfo hk
    exact ⟨hs.congr fun _ _ => Iff.rfl,hc⟩
  intro k info hk
  have hsn : Snapshot s k info ∧ ∃ c, s.Logged c ∧ c.reference = k := by
    rcases List.mem_append.mp hk with hk | hk
    · exact hw.info hk
    · cases List.mem_singleton.mp hk
      exact ⟨hw.snapshot_last hl hr,last,hw.log.last_logged hl,rfl⟩
  exact ⟨hsn.1.congr fun _ _ => Iff.rfl,hsn.2⟩

theorem WatermarkInv.writeBuffers : WatermarkInv s.writeBuffers := by
  have hl : ∀ c, s.writeBuffers.Logged c ↔ s.Logged c := fun c => hw.log.logged_writeBuffers
  constructor
  · exact hw.log.writeBuffers
  · exact hw.rounds.congr hl
  · intro k info hk
    have ho : Snapshot s k info ∧ ∃ c, s.Logged c ∧ c.reference = k := by
      rcases commitInfo_writeBuffers hk with hk | hk
      · exact hw.info hk
      · obtain ⟨hs,c,hc⟩ := hw.storeInfo hk
        exact ⟨hs,c,.inl ⟨k,hc⟩,hw.log.key hc⟩
    obtain ⟨hs,c,hc,rfl⟩ := ho
    refine ⟨hs.congr fun x _ => hl x,c,?_⟩
    rcases (hl c).mpr hc with ⟨k,hk⟩ | hk
    · rw [hw.log.writeBuffers.key hk]
      exact hk
    · cases hk
  · intro k info hk
    cases hk

theorem WatermarkInv.flush : WatermarkInv s.flush := by
  rcases flush_cases s with heq | hp
  · rw [heq]
    exact hw
  · have hc := congrArg HeaderPart.toCommitPart hp
    exact hw.writeBuffers.congr (hc.trans (commitPart_evictHeaders s.writeBuffers))

end

/-- The index up to which the last stored snapshot stands for the commits. -/
def snapshotIndex (store : Store) : Nat :=
  match store.readLastCommitInfo with
  | some (k,_) => k.index
  | none => 0

def Stored (store : Store) (c : TrustedCommit) : Prop := ∃ k : CommitRef, store.commits[k]? = some c

theorem WatermarkInv.exact_recoveredRounds (hw : WatermarkInv s) :
    Exact ctx.committee (fun c => Stored s.store c ∧ c.index ≤ snapshotIndex s.store)
      (recoveredRounds s.store.readLastCommitInfo) := by
  unfold snapshotIndex
  cases hr : s.store.readLastCommitInfo with
  | none =>
    intro a _ n
    refine ⟨fun _ x hx => ?_,fun _ => Nat.zero_le n⟩
    have hp := hw.log.index_pos (.inl hx.1)
    have hle : x.index ≤ 0 := hx.2
    omega
  | some p =>
    obtain ⟨hk,-⟩ := s.store.readLastCommitInfo_eq_some hr
    obtain ⟨hs,c,hc⟩ := hw.storeInfo hk
    have hck : c.index = p.1.index := congrArg index (hw.log.key hc)
    refine hs.exact_upto.congr fun x => and_congr_left fun (hx : x.index ≤ p.1.index) => ?_
    exact ⟨.inl,fun hl => ⟨_,hw.log.stored_of_le hc hl (by omega)⟩⟩

theorem WatermarkInv.commitRecoveryStartIndex_le (hw : WatermarkInv s) :
    commitRecoveryStartIndex s.store.readLastCommitInfo ≤ snapshotIndex s.store + 1 := by
  unfold snapshotIndex commitRecoveryStartIndex
  cases hr : s.store.readLastCommitInfo with
  | none => exact le_rfl
  | some p =>
    obtain ⟨hk,-⟩ := s.store.readLastCommitInfo_eq_some hr
    have hrn := (hw.storeInfo hk).1.range_le
    dsimp only
    split
    · exact le_rfl
    · omega

theorem WatermarkInv.mem_commitsToReplay (hw : WatermarkInv s)
    (hf : s.store.fastSyncOngoing = false) :
    c ∈ commitsToReplay s.store ↔
      Stored s.store c ∧ commitRecoveryStartIndex s.store.readLastCommitInfo ≤ c.index := by
  unfold commitsToReplay
  rw [hf,if_neg Bool.false_ne_true]
  cases hr : s.store.readLastCommit with
  | none =>
    constructor
    · exact fun hc => absurd hc List.not_mem_nil
    rintro ⟨⟨k,hk⟩,-⟩
    rw [s.store.readLastCommit_eq_none hr] at hk
    simp at hk
  | some last =>
    obtain ⟨k',hk',hm⟩ := s.store.readLastCommit_eq_some hr
    rw [s.store.mem_scanCommits]
    constructor
    · rintro ⟨k,hk,hs,-⟩
      have hi : c.index = k.index := congrArg index (hw.log.key hk)
      exact ⟨⟨k,hk⟩,by omega⟩
    rintro ⟨⟨k,hk⟩,hs⟩
    have hi : c.index = k.index := congrArg index (hw.log.key hk)
    have hi' : last.index = k'.index := congrArg index (hw.log.key hk')
    have hle := index_le_of_isLE (hm k (ExtTreeMap.mem_iff_isSome_getElem?.mpr (by rw [hk]; rfl)))
    exact ⟨k,hk,by omega,by omega⟩

/-- A restart recovers the committed rounds: no fast sync is marked as ongoing, or the commits after
the last stored snapshot hold no header above it. -/
def RestartSafe (c : Committee) (store : Store) : Prop :=
  store.fastSyncOngoing = false ∨ ∀ x, Stored store x → ∀ r ∈ x.blockHeaders, r.author < c.size →
    r.round ≤ recoveredRounds store.readLastCommitInfo r.author

theorem WatermarkInv.exact_replayRounds_iff (hw : WatermarkInv s) :
    Exact ctx.committee (Stored s.store) (replayRounds (recoveredRounds s.store.readLastCommitInfo)
      (commitsToReplay s.store)) ↔ RestartSafe ctx.committee s.store := by
  have hs := hw.exact_recoveredRounds
  cases hf : s.store.fastSyncOngoing with
  | false =>
    refine iff_of_true (fun a ha n => ?_) (.inl hf)
    rw [replayRounds_le_iff,hs a ha n]
    have hst := hw.commitRecoveryStartIndex_le
    constructor
    · rintro ⟨hol,hrp⟩ x hx
      by_cases hle : x.index ≤ snapshotIndex s.store
      · exact hol x ⟨hx,hle⟩
      · exact hrp x ((hw.mem_commitsToReplay hf).mpr ⟨hx,by omega⟩)
    · intro hal
      exact ⟨fun x hx => hal x hx.1,fun x hx => hal x ((hw.mem_commitsToReplay hf).mp hx).1⟩
  | true =>
    have hn : commitsToReplay s.store = [] := by
      unfold commitsToReplay
      rw [hf,if_pos rfl]
    rw [hn]
    constructor
    · intro he
      exact .inr fun x hx r hr ha => (he r.author ha _).mp le_rfl x hx r hr rfl
    rintro (ho | hsf) a ha n
    · rw [hf] at ho
      cases ho
    rw [show replayRounds (recoveredRounds s.store.readLastCommitInfo) [] =
      recoveredRounds s.store.readLastCommitInfo from rfl]
    constructor
    · rintro hle x hx r hr rfl
      exact le_trans (hsf x hx r hr ha) hle
    · intro hal
      exact (hs a ha n).mpr fun x hx => hal x hx.1

variable {ownIndex cachedRounds : Nat} {store : Store}

section
variable (h : DagState.new ctx ownIndex cachedRounds store = .ok s')

include h

theorem commitPart_new :
    ∃ scoring, s'.commitPart = (recovered ctx ownIndex cachedRounds store scoring).commitPart := by
  obtain ⟨subdags,h⟩ := ok_of_bind h
  obtain ⟨scoring,h⟩ := ok_of_bind h
  cases h
  exact ⟨scoring,commitPart_loadCachedData .recover _ _⟩

theorem logged_new : s'.Logged c ↔ Stored store c := by
  obtain ⟨scoring,hp⟩ := commitPart_new h
  rw [logged_congr hp]
  exact or_iff_left List.not_mem_nil

theorem rounds_new :
    s'.lastCommittedRounds =
      replayRounds (recoveredRounds store.readLastCommitInfo) (commitsToReplay store) := by
  obtain ⟨scoring,hp⟩ := commitPart_new h
  exact congrArg CommitPart.rounds hp

end

theorem fastSyncOngoingFlagToWrite_loadCachedData (source : DataSource) (authorities : List Nat)
    (s : DagState ctx) : (authorities.foldl (loadCachedDataForAuthority source)
      s).fastSyncOngoingFlagToWrite = s.fastSyncOngoingFlagToWrite := by
  refine proj_loadCachedData fastSyncOngoingFlagToWrite source (fun _ _ => rfl) (fun _ _ => rfl)
    (fun s t => ?_) _ s
  have hf := congrArg fastSyncOngoingFlagToWrite
    (s.withoutTransactions_updateTransactionMetadata t source)
  exact hf

theorem fastSyncOngoingFlagToWrite_new (h : DagState.new ctx ownIndex cachedRounds store = .ok s') :
    s'.fastSyncOngoingFlagToWrite = none := by
  obtain ⟨subdags,h⟩ := ok_of_bind h
  obtain ⟨scoring,h⟩ := ok_of_bind h
  cases h
  exact fastSyncOngoingFlagToWrite_loadCachedData .recover _ _

theorem CommitLog.restart (hl : CommitLog s)
    (h : DagState.new ctx ownIndex cachedRounds s.store = .ok s') : CommitLog s' := by
  obtain ⟨scoring,hp⟩ := commitPart_new h
  have hr : CommitLog (DagState.recovered ctx ownIndex cachedRounds s.store scoring) :=
    hl.recovered rfl rfl rfl
  exact hr.congr hp

theorem WatermarkInv.restart (hw : WatermarkInv s) (hsf : RestartSafe ctx.committee s.store)
    (h : DagState.new ctx ownIndex cachedRounds s.store = .ok s') : WatermarkInv s' := by
  obtain ⟨scoring,hp⟩ := commitPart_new h
  have hst : s'.store = s.store := congrArg CommitPart.store hp
  constructor
  · exact hw.log.restart h
  · rw [rounds_new h]
    exact (hw.exact_replayRounds_iff.mpr hsf).congr fun c => logged_new h
  · intro k info hk
    rw [hst] at hk ⊢
    obtain ⟨hs,c,hc⟩ := hw.storeInfo hk
    refine ⟨hs.congr fun x hx => ?_,c,hc⟩
    -- the buffered commits that are lost come after the snapshot
    rw [logged_new h]
    refine ⟨.inl,fun hl => ⟨_,hw.log.stored_of_le hc hl ?_⟩⟩
    rw [show c.index = k.index from congrArg index (hw.log.key hc)]
    exact hx
  · intro k info hk
    rw [show s'.commitInfoToWrite = [] from congrArg CommitPart.infoToWrite hp] at hk
    cases hk

theorem WatermarkInv.empty (ctx : Context) :
    WatermarkInv (DagState.recovered ctx 0 0 .empty .new) := by
  constructor
  · exact .empty ctx
  · intro a _ n
    exact ⟨fun _ x hx => absurd hx (not_logged_empty ctx x),fun _ => Nat.zero_le n⟩
  · intro k info hk
    simp [DagState.recovered,Store.empty] at hk
  · intro k info hk
    cases hk

theorem WatermarkInv.initial (h : Initial ownIndex cachedRounds s) : WatermarkInv s :=
  (WatermarkInv.empty ctx).restart (.inl rfl) h

/-- What the committed rounds depend on: scores are persisted for commits already made, and restarts
recover the rounds. -/
def Recoverable (s : DagState ctx) : DagOp → Prop
  | .persistScores scores => scores.commitRange.last ≤ s.lastCommitIndex
  | .restart => RestartSafe ctx.committee s.store
  | _ => True

theorem commitPart_acceptBlockHeader {h : VerifiedBlockHeader}
    (hs : s.acceptBlockHeader h = .ok s') : s'.commitPart = s.commitPart := by
  rcases acceptBlockHeader_cases hs with rfl | ⟨-,rfl⟩
  · rfl
  · rfl

theorem proj_reinitializeCaches {β : Type} (p : DagState ctx → β)
    (hsc : ∀ (s : DagState ctx) scoring, p { s with scoringSubdag := scoring } = p s)
    (hl : ∀ (authorities : List Nat) s,
      p (authorities.foldl (loadCachedDataForAuthority .fastCommitSyncer) s) = p s)
    (hs : s.reinitializeCaches = .ok s') : p s' = p s.clearCaches := by
  unfold reinitializeCaches rebuildScoringSubdagFromStore at hs
  split at hs
  · cases hs
    exact hl _ _
  obtain ⟨subdags,-,ha⟩ := of_bind hs
  obtain ⟨scoring,-,rfl⟩ := map_eq_ok.mp ha
  exact (hsc _ scoring).trans (hl _ _)

theorem commitPart_reinitializeCaches (hs : s.reinitializeCaches = .ok s') :
    s'.commitPart = s.commitPart :=
  proj_reinitializeCaches commitPart (fun _ _ => rfl)
    (commitPart_loadCachedData .fastCommitSyncer) hs

def Committing : DagOp → Prop
  | .addCommit _ | .persistScores _ | .flush | .restart => True
  | _ => False

theorem commitPart_exec {op : DagOp} (hop : ¬Committing op) (hs : s.exec op = .ok s') :
    s'.commitPart = s.commitPart := by
  cases op with
  | acceptBlockHeader h => exact commitPart_acceptBlockHeader hs
  | addTransactions t source =>
    cases hs
    exact congrArg HeaderPart.toCommitPart (headerPart_addTransactions s t source)
  | addScoringSubdags subdags =>
    exact congrArg HeaderPart.toCommitPart (headerPart_addScoringSubdags hs)
  | updateLastSolidSubdagBase base =>
    cases hs
    rfl
  | updatePendingCommitVotes refs =>
    cases hs
    rfl
  | takeCommitVotes limit =>
    cases hs
    rfl
  | takeAcknowledgments limit =>
    cases hs
    exact congrArg HeaderPart.toCommitPart (headerPart_takeAcknowledgments s limit)
  | setFastSyncOngoingFlag flag =>
    cases hs
    rfl
  | reinitializeCaches => exact commitPart_reinitializeCaches hs
  | addCommit c => exact absurd trivial hop
  | persistScores scores => exact absurd trivial hop
  | flush => exact absurd trivial hop
  | restart => exact absurd trivial hop

theorem WatermarkInv.exec (hw : WatermarkInv s) {op : DagOp} (hop : Recoverable s op)
    (hs : s.exec op = .ok s') : WatermarkInv s' := by
  cases op with
  | addCommit c => exact hw.addCommit hs
  | persistScores scores =>
    have hc : WatermarkInv s.clearScoringSubdag := hw.congr rfl
    exact hc.addCommitInfo hop hs
  | flush =>
    cases hs
    exact hw.flush
  | restart => exact hw.restart hop hs
  | _ => exact hw.congr (commitPart_exec id hs)

end DagState
end Iota.Starfish
