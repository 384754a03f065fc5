import Iota.Authority.ConsensusHandler.Collected
import Iota.Lib.Run

/-! Every accepted certificate is deferred, scheduled or cancelled, once. The keys carry the
argument: those of a future round are all due at the next commit, and a certificate can only move
from a round to waiting for randomness when nothing else waits for randomness. -/
namespace Iota.Authority
open DeferredTransaction List
open Std (ExtTreeMap)
variable {key : DeferralKey}
namespace DeferralKey

theorem compare_consensusRound (a b c d : CommitRound) :
    compare (consensusRound a b) (consensusRound c d) = (compare a c).then (compare b d) := rfl

theorem compare_randomness (a b : CommitRound) :
    compare (randomness a) (randomness b) = (compare a b).then .eq := rfl

theorem compare_consensusRound_randomness (a b c : CommitRound) :
    compare (consensusRound a b) (randomness c) = .gt := rfl

theorem inRange_round {round : CommitRound} :
    ((compare (consensusRound 0 0) key).isLE = true ∧
      (compare key (consensusRound (round+1) 0)).isLT = true) ↔
      ∃ futureRound deferredFromRound, key = .consensusRound futureRound deferredFromRound ∧
        futureRound ≤ round := by
  cases key with
  | randomness f => simp [compare_consensusRound_randomness]
  | consensusRound future f =>
    have hl : (compare (consensusRound 0 0) (consensusRound future f)).isLE = true := by
      rw [compare_consensusRound]
      obtain rfl | hp := Nat.eq_zero_or_pos future
      · obtain rfl | hp := Nat.eq_zero_or_pos f
        · rfl
        · simp [Nat.compare_eq_lt.mpr hp]
      · simp [Nat.compare_eq_lt.mpr hp]
    rw [and_iff_right hl]
    simp only [compare_consensusRound,consensusRound.injEq]
    constructor
    · intro hlt
      refine ⟨future,f,⟨rfl,rfl⟩,?_⟩
      by_contra hgt
      obtain heq | hgt := Nat.eq_or_lt_of_le (Nat.lt_of_not_le hgt)
      · rw [← heq] at hlt
        obtain rfl | hp := Nat.eq_zero_or_pos f
        · simp at hlt
        · simp [Nat.compare_eq_gt.mpr hp] at hlt
      · simp [Nat.compare_eq_gt.mpr hgt] at hlt
    · rintro ⟨_,_,⟨rfl,rfl⟩,hle⟩
      simp [Nat.compare_eq_lt.mpr (Nat.lt_succ_of_le hle)]

theorem inRange_randomness {bound : CommitRound} :
    ((compare (randomness 0) key).isLE = true ∧ (compare key (randomness bound)).isLT = true) ↔
      ∃ deferredFromRound, key = .randomness deferredFromRound ∧ deferredFromRound < bound := by
  cases key with
  | consensusRound future f => simp [compare_consensusRound_randomness]
  | randomness f =>
    have hl : (compare (randomness 0) (randomness f)).isLE = true := by
      rw [compare_randomness]
      obtain rfl | hp := Nat.eq_zero_or_pos f
      · rfl
      · simp [Nat.compare_eq_lt.mpr hp]
    rw [and_iff_right hl]
    simp only [compare_randomness,randomness.injEq]
    obtain hlt | heq | hgt := Nat.lt_trichotomy f bound
    · simp [Nat.compare_eq_lt.mpr hlt,hlt]
    · simp [heq]
    · simp [Nat.compare_eq_gt.mpr hgt,Nat.not_lt.mpr hgt.le]

end DeferralKey
namespace HandlerState
variable {cfg : HandlerConfig} {s : HandlerState} {commit : ConsensusCommit}
  {forRound forRandomness : List (DeferralKey × List DeferredTransaction)}

def LoadsRandomness (s : HandlerState) (commit : ConsensusCommit) : Prop :=
  commit.dkgStatus = .failed ∨ s.generatingRandomness commit = true

structure Kept (cfg : HandlerConfig) (s : HandlerState) : Prop where
  lastRound : s.lastRound+1 < 2 ^ 64
  randomnessKeys : ∀ f txs, (s.deferred cfg)[DeferralKey.randomness f]? = some txs →
    f ≤ s.lastRound
  roundKeys : ∀ future f txs, (s.deferred cfg)[DeferralKey.consensusRound future f]? = some txs →
    future = s.lastRound+1 ∧ f ≤ s.lastRound
  /-- Nothing waits for randomness, or nothing that needs it waits for a round. -/
  waiting : (∀ f, (s.deferred cfg)[DeferralKey.randomness f]? = none) ∨
    ∀ future f txs, (s.deferred cfg)[DeferralKey.consensusRound future f]? = some txs →
      ∀ tx ∈ txs, tx.usesRandomness = false
  epoch : ∀ tx ∈ (s.deferred cfg).flat, tx.epoch = cfg.epoch
  bag : ((s.deferred cfg).flat ++ s.scheduled ++ s.cancelled).Perm s.accepted
  distinct : (s.accepted.map (·.digest)).Nodup
  recorded : ∀ tx ∈ s.accepted, tx.digest ∈ s.processed
  congested : ∀ digest ∈ s.congested, digest ∈ s.processed
  /-- Since its first deferral a certificate was congested at most once a round. -/
  rounds : ∀ (key : DeferralKey) txs, (s.deferred cfg)[key]? = some txs → ∀ tx ∈ txs,
    s.congested.count tx.digest ≤ s.lastRound + 1 - key.deferredFromRound
  limit : ∀ digest, s.congested.count digest ≤ cfg.maxDeferralRoundsForCongestionControl

/-- Commits come in increasing rounds, and the round after the commit's fits. -/
structure NextCommit (s : HandlerState) (commit : ConsensusCommit) : Prop where
  later : s.lastRound < commit.round
  bound : commit.round+1 < 2 ^ 64

/-- What is loaded: everything deferred to a round, and everything that waits for randomness or
nothing of it. -/
structure Loaded (cfg : HandlerConfig) (s : HandlerState) (commit : ConsensusCommit)
    (forRound forRandomness : List (DeferralKey × List DeferredTransaction)) : Prop where
  nodup : ((forRound ++ forRandomness).map Prod.fst).Nodup
  stored : ∀ e ∈ forRound ++ forRandomness,
    (s.deferred cfg)[e.1]? = some (e.2.map transaction)
  allRounds : ∀ future f txs,
    (s.deferred cfg)[DeferralKey.consensusRound future f]? = some txs →
      .consensusRound future f ∈ (forRound ++ forRandomness).map Prod.fst
  allRandomness : s.LoadsRandomness commit → ∀ f txs,
    (s.deferred cfg)[DeferralKey.randomness f]? = some txs →
      .randomness f ∈ (forRound ++ forRandomness).map Prod.fst
  due : ∀ future f, .consensusRound future f ∈ (forRound ++ forRandomness).map Prod.fst →
    future ≤ commit.round
  noRandomness : ¬ s.LoadsRandomness commit → ∀ f,
    .randomness f ∉ (forRound ++ forRandomness).map Prod.fst

theorem mem_load {lo hi : DeferralKey} :
    key ∈ (s.loadDeferredTransactions cfg lo hi).map Prod.fst ↔
      (∃ txs, (s.deferred cfg)[key]? = some txs) ∧
        (compare lo key).isLE = true ∧ (compare key hi).isLT = true := by
  have hm : (s.loadDeferredTransactions cfg lo hi).map Prod.fst =
      ((s.deferred cfg).range lo hi).map Prod.fst := by
    rw [← map_loadDeferredTransactions,map_map]
    rfl
  rw [hm,mem_map]
  constructor
  · rintro ⟨⟨k,txs⟩,hmm,rfl⟩
    obtain ⟨hg,hr⟩ := ExtTreeMap.mem_range.mp hmm
    exact ⟨⟨txs,hg⟩,hr⟩
  · rintro ⟨⟨txs,hg⟩,hr⟩
    exact ⟨(key,txs),ExtTreeMap.mem_range.mpr ⟨hg,hr⟩,rfl⟩

theorem stored_of_mem_load {lo hi : DeferralKey} {e : DeferralKey × List DeferredTransaction}
    (he : e ∈ s.loadDeferredTransactions cfg lo hi) :
    (s.deferred cfg)[e.1]? = some (e.2.map transaction) := by
  have hm := mem_map_of_mem (f := fun e => (e.1,e.2.map transaction)) he
  rw [map_loadDeferredTransactions] at hm
  exact (ExtTreeMap.mem_range.mp hm).1

theorem nodup_load (lo hi : DeferralKey) :
    ((s.loadDeferredTransactions cfg lo hi).map Prod.fst).Nodup := by
  have := (s.deferred cfg).nodup_range lo hi
  rwa [← map_loadDeferredTransactions,map_map] at this

theorem mem_loadForRound :
    key ∈ (s.loadDeferredTransactions cfg (.consensusRound 0 0)
        (.consensusRound (commit.round+1) 0)).map Prod.fst ↔
      (∃ txs, (s.deferred cfg)[key]? = some txs) ∧ ∃ future f,
        key = .consensusRound future f ∧ future ≤ commit.round := by
  rw [mem_load,DeferralKey.inRange_round]

theorem mem_loadForRandomness {bound : CommitRound} :
    key ∈ (s.loadDeferredTransactions cfg (.randomness 0) (.randomness bound)).map Prod.fst ↔
      (∃ txs, (s.deferred cfg)[key]? = some txs) ∧ ∃ f, key = .randomness f ∧ f < bound := by
  rw [mem_load,DeferralKey.inRange_randomness]

theorem Kept.loaded_withRandomness (h : s.Kept cfg) (ha : s.NextCommit commit)
    (hr : s.LoadsRandomness commit) :
    Loaded cfg s commit
      (s.loadDeferredTransactions cfg (.consensusRound 0 0) (.consensusRound (commit.round+1) 0))
      (s.loadDeferredTransactions cfg (.randomness 0) (.randomness (2 ^ 64 - 1))) := by
  refine ⟨?_,?_,?_,?_,?_,absurd hr⟩
  · rw [map_append]
    refine nodup_append.mpr ⟨nodup_load _ _,nodup_load _ _,?_⟩
    rintro a hrd b hrn rfl
    obtain ⟨-,future,f,rfl,-⟩ := mem_loadForRound.mp hrd
    obtain ⟨-,f',hk,-⟩ := mem_loadForRandomness.mp hrn
    cases hk
  · intro e he
    obtain he | he := mem_append.mp he
    · exact stored_of_mem_load he
    · exact stored_of_mem_load he
  · intro future f txs hg
    have hle : future ≤ commit.round := by
      rw [(h.roundKeys future f txs hg).1]
      exact ha.later
    rw [map_append]
    exact mem_append_left _ (mem_loadForRound.mpr ⟨⟨txs,hg⟩,future,f,rfl,hle⟩)
  · intro _ f txs hg
    have hlt : f < 2 ^ 64 - 1 := Nat.lt_sub_iff_add_lt.mpr
      (Nat.lt_of_le_of_lt (Nat.add_le_add_right (h.randomnessKeys f txs hg) 1) h.lastRound)
    rw [map_append]
    exact mem_append_right _ (mem_loadForRandomness.mpr ⟨⟨txs,hg⟩,f,rfl,hlt⟩)
  intro future f hm
  rw [map_append] at hm
  obtain hm | hm := mem_append.mp hm
  · obtain ⟨-,future',f',hk,hle⟩ := mem_loadForRound.mp hm
    cases hk
    exact hle
  · obtain ⟨-,f',hk,-⟩ := mem_loadForRandomness.mp hm
    cases hk

theorem Kept.loaded_withoutRandomness (h : s.Kept cfg) (ha : s.NextCommit commit)
    (hr : ¬ s.LoadsRandomness commit) :
    Loaded cfg s commit (s.loadDeferredTransactions cfg (.consensusRound 0 0)
      (.consensusRound (commit.round+1) 0)) [] := by
  refine ⟨?_,?_,?_,fun hy => absurd hy hr,?_,?_⟩
  · rw [append_nil]
    exact nodup_load _ _
  · intro e he
    rw [append_nil] at he
    exact stored_of_mem_load he
  · intro future f txs hg
    have hle : future ≤ commit.round := by
      rw [(h.roundKeys future f txs hg).1]
      exact ha.later
    rw [append_nil]
    exact mem_loadForRound.mpr ⟨⟨txs,hg⟩,future,f,rfl,hle⟩
  · intro future f hm
    rw [append_nil] at hm
    obtain ⟨-,future',f',hk,hle⟩ := mem_loadForRound.mp hm
    cases hk
    exact hle
  intro _ f hm
  rw [append_nil] at hm
  obtain ⟨-,future',f',hk,-⟩ := mem_loadForRound.mp hm
  cases hk

theorem Kept.exists_loaded (h : s.Kept cfg) (ha : s.NextCommit commit) :
    ∃ forRound forRandomness, s.loaded cfg commit = .ok (forRound,forRandomness) ∧
      Loaded cfg s commit forRound forRandomness := by
  have hl : s.loaded cfg commit = .ok (s.loadDeferredTransactions cfg (.consensusRound 0 0)
      (.consensusRound (commit.round+1) 0),
      if commit.dkgStatus = .failed || s.generatingRandomness commit then
        s.loadDeferredTransactions cfg (.randomness 0) (.randomness (2 ^ 64 - 1)) else []) := by
    simp only [loaded,DeferralKey.rangeForUpToConsensusRound,if_pos ha.bound,Except.ok_bind,
      DeferralKey.fullRangeForRandomness]
    rfl
  by_cases hr : s.LoadsRandomness commit
  · have hc : (commit.dkgStatus = .failed || s.generatingRandomness commit) = true := by
      simpa [LoadsRandomness] using hr
    rw [if_pos hc] at hl
    exact ⟨_,_,hl,h.loaded_withRandomness ha hr⟩
  have hc : ¬ (commit.dkgStatus = .failed || s.generatingRandomness commit) = true := by
    simpa [LoadsRandomness] using hr
  rw [if_neg hc] at hl
  exact ⟨_,_,hl,h.loaded_withoutRandomness ha hr⟩

variable {loaded : List (DeferralKey × List DeferredTransaction)}

theorem mem_transactionsOf {tx : VerifiedSequencedConsensusTransaction} :
    tx ∈ transactionsOf loaded ↔ ∃ e ∈ loaded, tx ∈ e.2.map transaction := by
  simp [transactionsOf]

theorem Loaded.transactionsOf_eq (hl : Loaded cfg s commit forRound forRandomness) :
    transactionsOf (forRound ++ forRandomness) =
      ((forRound ++ forRandomness).map Prod.fst).flatMap
        fun key => (s.deferred cfg)[key]?.getD [] := by
  rw [transactionsOf,flatMap_map]
  refine flatMap_congr fun e he => ?_
  rw [hl.stored e he,Option.getD_some]

theorem Loaded.flat_perm (hl : Loaded cfg s commit forRound forRandomness) :
    (s.deferred cfg).flat.Perm (transactionsOf (forRound ++ forRandomness) ++
      (((forRound ++ forRandomness).map Prod.fst).foldl (fun t k => t.erase k)
        (s.deferred cfg)).flat) := by
  rw [hl.transactionsOf_eq]
  exact ExtTreeMap.flat_perm_foldl_erase hl.nodup _

theorem Kept.distinct_deferred (h : s.Kept cfg) : ((s.deferred cfg).flat.map (·.digest)).Nodup := by
  have hp := (h.bag.map (·.digest)).nodup_iff.mpr h.distinct
  rw [append_assoc,map_append] at hp
  exact (nodup_append.mp hp).1

variable {tx : VerifiedSequencedConsensusTransaction}

theorem Kept.processed_of_deferred (h : s.Kept cfg)
    (htx : tx ∈ (s.deferred cfg).flat) : tx.digest ∈ s.processed := by
  refine h.recorded tx (h.bag.subset ?_)
  simp [htx]

theorem Loaded.mem_flat (hl : Loaded cfg s commit forRound forRandomness)
    (htx : tx ∈ transactionsOf (forRound ++ forRandomness)) : tx ∈ (s.deferred cfg).flat :=
  hl.flat_perm.symm.subset (mem_append_left _ htx)

theorem distinct_skipProcessed : ((skipProcessed commit).map (·.digest)).Nodup := by
  refine List.foldlRecOn
    (motive := fun all : List VerifiedSequencedConsensusTransaction => (all.map (·.digest)).Nodup)
    commit.transactions _ ?_ fun all ha tx _ => ?_
  · exact nodup_nil
  split
  · exact ha
  · next hn =>
    have hnt : tx.digest ∉ all.map (·.digest) := fun hin => hn (by simp [hin])
    rw [map_append,nodup_append]
    refine ⟨ha,nodup_singleton _,?_⟩
    rintro _ hin _ hin' rfl
    rw [map_singleton,mem_singleton] at hin'
    exact hnt (hin' ▸ hin)

theorem not_processed_of_verified (htx : tx ∈ s.verified commit) : tx.digest ∉ s.processed := by
  simpa using (mem_filter.mp htx).2

theorem reorder_perm (txs : List VerifiedSequencedConsensusTransaction) :
    (reorder cfg txs).Perm txs := by
  unfold reorder
  split
  · exact mergeSort_perm _ _
  · exact .refl _

theorem sequenced_perm :
    (s.sequenced cfg commit forRound forRandomness).Perm
      (transactionsOf (forRound ++ forRandomness) ++ s.verified commit) := by
  have hs : ∀ (txs : List VerifiedSequencedConsensusTransaction) tx,
      (txs.filter (·.usesRandomness)).count tx + (txs.filter (!·.usesRandomness)).count tx =
        txs.count tx := by
    intro txs tx
    rw [← count_append]
    exact (filter_append_perm _ txs).count_eq tx
  refine ((reorder_perm _).append (reorder_perm _)).trans (perm_iff_count.mpr fun tx => ?_)
  have hd := hs (transactionsOf forRound) tx
  have hn := hs (s.verified commit) tx
  simp only [transactionsOf,flatMap_append,count_append] at hd ⊢
  omega

theorem Kept.distinct_sequenced (h : s.Kept cfg) (hl : Loaded cfg s commit forRound forRandomness) :
    ((s.sequenced cfg commit forRound forRandomness).map (·.digest)).Nodup := by
  rw [(sequenced_perm.map _).nodup_iff,map_append,nodup_append]
  refine ⟨?_,?_,?_⟩
  · have hp := ((hl.flat_perm.map (·.digest)).nodup_iff).mp h.distinct_deferred
    rw [map_append] at hp
    exact (nodup_append.mp hp).1
  · exact distinct_skipProcessed.sublist (filter_sublist.map _)
  rintro _ hld _ hn rfl
  obtain ⟨tx,htx,hd⟩ := mem_map.mp hld
  obtain ⟨tx',htx',hd'⟩ := mem_map.mp hn
  have hpr := h.processed_of_deferred (hl.mem_flat htx)
  rw [hd,← hd'] at hpr
  exact not_processed_of_verified htx' hpr

theorem mem_of_previouslyDeferred {digest : TransactionDigest} {price : Option Nat}
    (hg : (previouslyDeferredOf loaded)[digest]? = some (key,price)) :
    ∃ e ∈ loaded, e.1 = key ∧ ∃ tx ∈ e.2.map transaction,
      tx.digest = digest := by
  rw [previouslyDeferredOf,ExtTreeMap.getElem?_foldl_insert Prod.fst Prod.snd,
    ExtTreeMap.getElem?_empty,Option.or_none] at hg
  obtain ⟨⟨d,v⟩,hf,hv⟩ := Option.map_eq_some_iff.mp hg
  have hd : d = digest := by simpa using List.find?_some hf
  obtain ⟨e,he,hm⟩ := mem_flatMap.mp (mem_reverse.mp (mem_of_find?_eq_some hf))
  obtain ⟨tx,htx,heq⟩ := mem_map.mp hm
  cases heq
  cases hv
  exact ⟨e,he,rfl,tx.transaction,mem_map_of_mem htx,hd⟩

theorem contains_previouslyDeferred {digest : TransactionDigest} :
    (previouslyDeferredOf loaded).contains digest = true ↔
      digest ∈ (transactionsOf loaded).map (·.digest) := by
  rw [ExtTreeMap.contains_eq_isSome_getElem?,Option.isSome_iff_exists]
  constructor
  · rintro ⟨⟨key,price⟩,hg⟩
    obtain ⟨e,he,-,tx,htx,rfl⟩ := mem_of_previouslyDeferred hg
    exact mem_map_of_mem (mem_transactionsOf.mpr ⟨e,he,htx⟩)
  intro hm
  obtain ⟨tx,htx,rfl⟩ := mem_map.mp hm
  obtain ⟨e,he,htx⟩ := mem_transactionsOf.mp htx
  obtain ⟨t,ht,rfl⟩ := mem_map.mp htx
  rw [← Option.isSome_iff_exists,previouslyDeferredOf,
    ExtTreeMap.getElem?_foldl_insert Prod.fst Prod.snd]
  have hf : ((loaded.flatMap fun e => e.2.map fun tx =>
      (tx.transaction.digest,(e.1,tx.suggestedGasPrice))).reverse.find?
        fun w => w.1 = t.transaction.digest).isSome = true := by
    rw [List.find?_isSome]
    refine ⟨(t.transaction.digest,(e.1,t.suggestedGasPrice)),?_,by simp⟩
    exact mem_reverse.mpr (mem_flatMap.mpr ⟨e,he,mem_map_of_mem ht⟩)
  simp [hf]

def fromRound (commit : ConsensusCommit)
    (forRound forRandomness : List (DeferralKey × List DeferredTransaction))
    (tx : VerifiedSequencedConsensusTransaction) : CommitRound :=
  ((previouslyDeferredOf (forRound ++ forRandomness))[tx.digest]?.map
    fun e => e.1.deferredFromRound).getD commit.round

theorem Kept.origin (h : s.Kept cfg) (ha : s.NextCommit commit)
    (hl : Loaded cfg s commit forRound forRandomness)
    (htx : tx ∈ s.sequenced cfg commit forRound forRandomness) :
    fromRound commit forRound forRandomness tx ≤ commit.round ∧
      s.congested.count tx.digest ≤ commit.round - fromRound commit forRound forRandomness tx ∧
      (tx.usesRandomness = true → ¬ s.LoadsRandomness commit →
        (s.deferred cfg)[DeferralKey.randomness
          (fromRound commit forRound forRandomness tx)]? = none) := by
  have hlt := ha.later
  have hm := mem_append.mp (sequenced_perm.subset htx)
  unfold fromRound
  cases hg : (previouslyDeferredOf (forRound ++ forRandomness))[tx.digest]? with
  | none =>
    -- a new certificate: nothing of this round has been deferred yet
    have hnt : tx.digest ∉ s.processed := by
      obtain hld | hn := hm
      · have hcn := contains_previouslyDeferred.mpr (mem_map_of_mem hld)
        rw [ExtTreeMap.contains_eq_isSome_getElem?,hg] at hcn
        cases hcn
      · exact not_processed_of_verified hn
    have hc : s.congested.count tx.digest = 0 :=
      count_eq_zero.mpr fun hin => hnt (h.congested _ hin)
    refine ⟨le_rfl,by simp [hc],fun _ _ => ?_⟩
    rw [Option.map_none,Option.getD_none]
    cases hs : (s.deferred cfg)[DeferralKey.randomness commit.round]? with
    | none => rfl
    | some txs => exact absurd (h.randomnessKeys _ _ hs) (Nat.not_le.mpr hlt)
  | some entry =>
    -- a loaded certificate, under a key that holds it
    obtain ⟨e,he,hky,tx',htx',hd⟩ := mem_of_previouslyDeferred hg
    have hs := hl.stored e he
    have hf' : tx' ∈ (s.deferred cfg).flat := ExtTreeMap.mem_flat.mpr ⟨e.1,_,hs,htx'⟩
    have hf : tx ∈ (s.deferred cfg).flat := by
      obtain hld | hn := hm
      · exact hl.mem_flat hld
      · exact absurd (hd ▸ h.processed_of_deferred hf') (not_processed_of_verified hn)
    obtain rfl : tx' = tx := inj_on_of_nodup_map h.distinct_deferred hf' hf hd
    have hfr : e.1.deferredFromRound ≤ s.lastRound := by
      cases hk : e.1 with
      | randomness f => exact h.randomnessKeys f _ (hk ▸ hs)
      | consensusRound future f => exact (h.roundKeys future f _ (hk ▸ hs)).2
    have hc := h.rounds e.1 _ hs tx' htx'
    rw [Option.map_some,Option.getD_some,← hky]
    refine ⟨hfr.trans hlt.le,hc.trans (Nat.sub_le_sub_right hlt _),fun hu hlo => ?_⟩
    obtain hnn | hr := h.waiting
    · exact hnn _
    cases hk : e.1 with
    | randomness f =>
      exact absurd (mem_map_of_mem he) (hk ▸ hl.noRandomness hlo f)
    | consensusRound future f =>
      have := hr future f _ (hk ▸ hs) tx' htx'
      rw [hu] at this
      cases this

theorem deferralKey_context (tx : VerifiedSequencedConsensusTransaction) :
    SharedObjectCongestionTracker.deferralKey
        (s.context commit forRound forRandomness).previouslyDeferred
        (s.context commit forRound forRandomness).commitRound tx.certificate =
      .consensusRound (commit.round+1) (fromRound commit forRound forRandomness tx) := by
  have hp : (s.context commit forRound forRandomness).previouslyDeferred[tx.certificate.digest]? =
      (previouslyDeferredOf (forRound ++ forRandomness))[tx.digest]? := rfl
  unfold SharedObjectCongestionTracker.deferralKey fromRound
  rw [hp]
  cases (previouslyDeferredOf (forRound ++ forRandomness))[tx.digest]? with
  | none => rfl
  | some entry => rfl

theorem deferred_cases {price : Option Nat}
    (hr : (s.context commit forRound forRandomness).processConsensusTransaction cfg commit tx =
      .deferred key price) :
    (key = .randomness (fromRound commit forRound forRandomness tx) ∧
        ¬ s.LoadsRandomness commit ∧ tx.usesRandomness = true) ∨
      (key = .consensusRound (commit.round+1) (fromRound commit forRound forRandomness tx) ∧
        (¬ s.LoadsRandomness commit → tx.usesRandomness = false) ∧
        commit.round + 1 - fromRound commit forRound forRandomness tx ≤
          cfg.maxDeferralRoundsForCongestionControl) := by
  unfold CommitContext.processConsensusTransaction at hr
  split at hr
  · cases hr
  split at hr
  · cases hr
  split at hr
  · cases hr
  unfold CommitContext.trySchedule at hr
  by_cases hw : (!(s.context commit forRound forRandomness).dkgFailed &&
      !(s.context commit forRound forRandomness).generatingRandomness && tx.usesRandomness) = true
  · rw [if_pos hw] at hr
    cases hr
    refine .inl ⟨rfl,?_⟩
    simpa [context,LoadsRandomness] using hw
  rw [if_neg hw] at hr
  have hu : ¬ s.LoadsRandomness commit → tx.usesRandomness = false := by
    intro hl
    rw [LoadsRandomness,not_or] at hl
    simpa [context,hl] using hw
  split at hr
  · next heq =>
    split at heq
    · split at heq
      · cases heq
      · cases heq
    · cases heq
  · next heq =>
    split at heq
    · split at heq
      · cases heq
        rw [deferralKey_context] at hr
        split at hr
        · next hlm =>
          cases hr
          exact .inr ⟨rfl,hu,by simpa [transactionDeferralWithinLimit] using hlm⟩
        · cases hr
      · cases heq
    · cases heq
  · split at hr
    · cases hr
    · cases hr

theorem epoch_of_not_ignored {ctx : CommitContext}
    (hr : ctx.processConsensusTransaction cfg commit tx ≠ .ignored) : tx.epoch = cfg.epoch := by
  by_contra hne
  exact hr (if_pos hne)

theorem not_ignored_of_previouslyDeferred {ctx : CommitContext}
    (he : tx.epoch = cfg.epoch) (hp : ctx.previouslyDeferred.contains tx.digest = true) :
    ctx.processConsensusTransaction cfg commit tx ≠ .ignored := by
  unfold CommitContext.processConsensusTransaction
  rw [if_neg (not_not.mpr he),if_neg (by simp [hp]),if_neg (by simp [hp])]
  split
  · exact nofun
  · dsimp only
    split
    · exact nofun
    · exact nofun
  split
  · exact nofun
  · exact nofun

end HandlerState
end Iota.Authority
