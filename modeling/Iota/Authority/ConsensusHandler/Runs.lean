import Iota.Authority.ConsensusHandler.Deferred

/-! One commit keeps the invariant of the deferred certificates, and so does every run. -/
namespace Iota.Authority
open DeferralKey Except List
open Std (ExtTreeMap)
namespace HandlerState
variable {cfg : HandlerConfig} {s s' : HandlerState} {commit : ConsensusCommit}
  {forRound forRandomness : List (DeferralKey × List DeferredTransaction)} {c : Collected}
  {output : ConsensusCommitOutput} {final : Bool}

/-- What a commit did: what it loaded, what the loop collected, and the state after it. -/
structure Committed (cfg : HandlerConfig) (s : HandlerState) (commit : ConsensusCommit)
    (forRound forRandomness : List (DeferralKey × List DeferredTransaction)) (c : Collected)
    (s' : HandlerState) (output : ConsensusCommitOutput) (final : Bool) : Prop where
  loaded : Loaded cfg s commit forRound forRandomness
  collected : Collected.Of
    ((s.context commit forRound forRandomness).processConsensusTransaction cfg commit)
    (s.sequenced cfg commit forRound forRandomness) c
  out : output = commitOutput commit forRound forRandomness c
  cache : s'.cache = s.cache.record cfg.congestionControlGasPriceFeedbackMechanism output
  processed : s'.processed = s.processed ++ c.processed.map (·.digest)
  lastRound : s'.lastRound = commit.round
  accepted : s'.accepted = s.accepted ++ c.processed.filter fun tx =>
    !(previouslyDeferredOf (forRound ++ forRandomness)).contains tx.digest
  scheduled : s'.scheduled = s.scheduled ++ c.scheduled
  cancelled : s'.cancelled = s.cancelled ++ c.cancelledTxns
  congested : s'.congested = s.congested ++ congestedOf output
  done : final = true → deferredTransactionsEmpty cfg (s.cacheAtEndOfPublish cfg output) = true ∧
    output.deferredTxns = []

theorem Kept.exists_committed (h : s.Kept cfg) (ha : s.NextCommit commit) :
    ∃ forRound forRandomness c s' output final,
      s.processCommit cfg commit = .ok (s',output,final) ∧
        Committed cfg s commit forRound forRandomness c s' output final := by
  obtain ⟨forRound,forRandomness,hld,hl⟩ := h.exists_loaded ha
  have hd : (([] ++ s.sequenced cfg commit forRound forRandomness).map
    VerifiedSequencedConsensusTransaction.digest).Nodup := h.distinct_sequenced hl
  obtain ⟨c,hc,hof⟩ := Collected.Of.nil.foldlM
   
    hd
  have hal : processAll cfg commit (s.context commit forRound forRandomness)
    (s.sequenced cfg commit forRound forRandomness) = .ok c := hc
  simp only [processCommit,hld,hal,ok_bind]
  refine ⟨forRound,forRandomness,c,_,_,_,rfl,hl,hof,rfl,rfl,rfl,rfl,rfl,rfl,rfl, rfl,fun hf => ?_⟩
  rw [Bool.and_eq_true_iff,Bool.and_eq_true_iff,Bool.not_eq_true',Bool.not_eq_false',
    List.isEmpty_iff] at hf
  exact ⟨hf.1.2,hf.2⟩

theorem Loaded.randomness_of_rest (hl : Loaded cfg s commit forRound forRandomness)
    {key : DeferralKey} {txs : List VerifiedSequencedConsensusTransaction}
    (hg : (s.deferred cfg)[key]? = some txs) (hr : key ∉ (forRound ++ forRandomness).map Prod.fst) :
    (∃ f, key = .randomness f) ∧ ¬ s.LoadsRandomness commit := by
  cases key with
  | consensusRound future f => exact absurd (hl.allRounds future f txs hg) hr
  | randomness f => exact ⟨⟨f,rfl⟩,fun hld => hr (hl.allRandomness hld f txs hg)⟩

theorem congestedOf_sublist (output : ConsensusCommitOutput) :
    (congestedOf output).Sublist
      ((output.deferredTxns.flatMap Prod.snd).map fun tx => tx.transaction.digest) := by
  unfold congestedOf
  induction output.deferredTxns with
  | nil => exact .slnil
  | cons e l ih =>
    rw [flatMap_cons,flatMap_cons,map_append]
    refine List.Sublist.append ?_ ih
    split
    · exact .refl _
    · exact nil_sublist _

namespace Committed
variable (hc : Committed cfg s commit forRound forRandomness c s' output final)

include hc

variable {key : DeferralKey} {txs : List DeferredTransaction}

theorem fresh (h : s.Kept cfg) (ha : s.NextCommit commit) (hg : c.deferredTxns[key]? = some txs) :
    (s.deferred cfg)[key]? = none ∧ key ∉ (forRound ++ forRandomness).map Prod.fst := by
  obtain ⟨tx,htx⟩ := exists_mem_of_ne_nil txs (hc.collected.nonempty key txs hg)
  obtain ⟨hs,hr⟩ := hc.collected.keys key txs hg tx htx
  obtain ⟨-,-,hn⟩ := h.origin ha hc.loaded hs
  obtain ⟨rfl,hl,hu⟩ | ⟨rfl,-,-⟩ := deferred_cases hr
  · exact ⟨hn hu hl,hc.loaded.noRandomness hl _⟩
  refine ⟨?_,fun hin => Nat.not_succ_le_self _ (hc.loaded.due _ _ hin)⟩
  cases hst : (s.deferred cfg)[consensusRound (commit.round+1)
      (fromRound commit forRound forRandomness tx.transaction)]? with
  | none => rfl
  | some old =>
    have hf := (h.roundKeys _ _ _ hst).1
    exact absurd (Nat.succ.inj hf) ha.later.ne'

theorem deferred_eq (h : s.Kept cfg) (ha : s.NextCommit commit) :
    s'.deferred cfg =
      (c.deferredTxns.toList.map fun e => (e.1,e.2.map DeferredTransaction.transaction)).foldl
        (fun t e => t.insert e.1 e.2)
        (((forRound ++ forRandomness).map Prod.fst).foldl (fun t k => t.erase k)
          (s.deferred cfg)) := by
  unfold deferred
  rw [hc.cache,ConsensusOutputCache.view_record,hc.out]
  refine ExtTreeMap.foldl_erase_foldl_insert _ _ _ fun e he => ?_
  obtain ⟨⟨key,txs⟩,hm,rfl⟩ := mem_map.mp he
  exact (hc.fresh h ha (ExtTreeMap.mem_toList_iff_getElem?_eq_some.mp hm)).2

theorem deferred_cases (h : s.Kept cfg) (ha : s.NextCommit commit)
    {txs : List VerifiedSequencedConsensusTransaction} (hg : (s'.deferred cfg)[key]? = some txs) :
    (∃ new, c.deferredTxns[key]? = some new ∧ txs = new.map DeferredTransaction.transaction) ∨
      ((s.deferred cfg)[key]? = some txs ∧ key ∉ (forRound ++ forRandomness).map Prod.fst) := by
  rw [hc.deferred_eq h ha,ExtTreeMap.getElem?_foldl_insert_toList,
    ExtTreeMap.getElem?_foldl_erase] at hg
  cases hn : c.deferredTxns[key]? with
  | some new =>
    rw [hn] at hg
    cases hg
    exact .inl ⟨new,rfl,rfl⟩
  | none =>
    rw [hn,Option.map_none,Option.none_or] at hg
    split at hg
    · cases hg
    · next hr => exact .inr ⟨hg,hr⟩

theorem new_cases (h : s.Kept cfg) (ha : s.NextCommit commit)
    (hg : c.deferredTxns[key]? = some txs) {tx : DeferredTransaction} (htx : tx ∈ txs) :
    key.deferredFromRound ≤ commit.round ∧
      s.congested.count tx.transaction.digest ≤ commit.round - key.deferredFromRound ∧
      tx.transaction.epoch = cfg.epoch ∧
      ((∃ f, key = .randomness f ∧ ¬ s.LoadsRandomness commit) ∨
        (∃ f, key = .consensusRound (commit.round+1) f ∧
          (¬ s.LoadsRandomness commit → tx.transaction.usesRandomness = false) ∧
          commit.round + 1 - f ≤ cfg.maxDeferralRoundsForCongestionControl)) := by
  obtain ⟨hs,hr⟩ := hc.collected.keys key txs hg tx htx
  obtain ⟨hle,hcn,-⟩ := h.origin ha hc.loaded hs
  have he := epoch_of_not_ignored (by rw [hr]; exact nofun)
  obtain ⟨rfl,hl,-⟩ | ⟨rfl,hu,hlm⟩ := HandlerState.deferred_cases hr
  · exact ⟨hle,hcn,he,.inl ⟨_,rfl,hl⟩⟩
  · exact ⟨hle,hcn,he,.inr ⟨_,rfl,hu,hlm⟩⟩

theorem processed_perm (h : s.Kept cfg) :
    c.processed.Perm (transactionsOf (forRound ++ forRandomness) ++
      c.processed.filter fun tx =>
        !(previouslyDeferredOf (forRound ++ forRandomness)).contains tx.digest) := by
  refine (filter_append_perm (fun tx =>
    (previouslyDeferredOf (forRound ++ forRandomness)).contains tx.digest) c.processed).symm.trans
      (List.Perm.append_right _ ?_)
  have hcn : ∀ tx ∈ transactionsOf (forRound ++ forRandomness),
      (previouslyDeferredOf (forRound ++ forRandomness)).contains tx.digest = true :=
    fun tx htx => contains_previouslyDeferred.mpr (mem_map_of_mem htx)
  have hld : (transactionsOf (forRound ++ forRandomness)).filter (fun tx =>
      (s.context commit forRound forRandomness).processConsensusTransaction cfg commit tx ≠
        .ignored) = transactionsOf (forRound ++ forRandomness) := by
    rw [filter_eq_self]
    intro tx htx
    exact decide_eq_true (not_ignored_of_previouslyDeferred
      (h.epoch tx (hc.loaded.mem_flat htx)) (hcn tx htx))
  have hn : ((s.verified commit).filter fun tx =>
      (s.context commit forRound forRandomness).processConsensusTransaction cfg commit tx ≠
        .ignored).filter (fun tx =>
      (previouslyDeferredOf (forRound ++ forRandomness)).contains tx.digest) = [] := by
    rw [filter_eq_nil_iff]
    intro tx htx hpr
    obtain ⟨tx',htx',hd⟩ := mem_map.mp (contains_previouslyDeferred.mp hpr)
    have hp := h.processed_of_deferred (hc.loaded.mem_flat htx')
    rw [hd] at hp
    exact not_processed_of_verified (mem_filter.mp htx).1 hp
  rw [hc.collected.processed]
  refine ((sequenced_perm.filter _).filter _).trans ?_
  rw [filter_append,filter_append,hld,hn,append_nil,filter_eq_self.mpr hcn]

theorem flat_perm (h : s.Kept cfg) (ha : s.NextCommit commit) :
    (s'.deferred cfg).flat.Perm (c.deferredTxns.flat.map DeferredTransaction.transaction ++
      (((forRound ++ forRandomness).map Prod.fst).foldl (fun t k => t.erase k)
        (s.deferred cfg)).flat) := by
  rw [hc.deferred_eq h ha]
  refine (ExtTreeMap.flat_foldl_insert ?_ ?_).trans ?_
  · rw [map_map]
    exact c.deferredTxns.nodup_map_fst_toList
  · intro e he
    obtain ⟨⟨key,txs⟩,hm,rfl⟩ := mem_map.mp he
    rw [ExtTreeMap.getElem?_foldl_erase,
      (hc.fresh h ha (ExtTreeMap.mem_toList_iff_getElem?_eq_some.mp hm)).1,ite_self]
  · refine List.Perm.append_right _ ?_
    rw [ExtTreeMap.flat,flatMap_map,map_flatMap]

theorem bag (h : s.Kept cfg) (ha : s.NextCommit commit) :
    ((s'.deferred cfg).flat ++ s'.scheduled ++ s'.cancelled).Perm s'.accepted := by
  rw [hc.scheduled,hc.cancelled,hc.accepted]
  refine perm_iff_count.mpr fun tx => ?_
  have hf := (hc.flat_perm h ha).count_eq tx
  have ho := hc.loaded.flat_perm.count_eq tx
  have hcl := hc.collected.bag.count_eq tx
  have hp := (hc.processed_perm h).count_eq tx
  have hb := h.bag.count_eq tx
  simp only [count_append] at hf ho hcl hp hb ⊢
  omega

theorem distinct_processed (h : s.Kept cfg) : (c.processed.map (·.digest)).Nodup := by
  rw [hc.collected.processed]
  exact (h.distinct_sequenced hc.loaded).sublist (filter_sublist.map _)

variable {tx : VerifiedSequencedConsensusTransaction}

theorem not_processed_of_accepted (htx : tx ∈ c.processed)
    (hp : (previouslyDeferredOf (forRound ++ forRandomness)).contains tx.digest = false) :
    tx.digest ∉ s.processed := by
  rw [hc.collected.processed] at htx
  obtain hld | hn := mem_append.mp (sequenced_perm.subset (mem_filter.mp htx).1)
  · rw [contains_previouslyDeferred.mpr (mem_map_of_mem hld)] at hp
    cases hp
  · exact not_processed_of_verified hn

theorem distinct (h : s.Kept cfg) : (s'.accepted.map (·.digest)).Nodup := by
  rw [hc.accepted,map_append,nodup_append]
  refine ⟨h.distinct,(hc.distinct_processed h).sublist (filter_sublist.map _),?_⟩
  rintro _ ho _ hn rfl
  obtain ⟨tx,htx,hd⟩ := mem_map.mp ho
  obtain ⟨tx',htx',hd'⟩ := mem_map.mp hn
  obtain ⟨hm,hp⟩ := mem_filter.mp htx'
  refine hc.not_processed_of_accepted hm (by simpa using hp) ?_
  rw [hd',← hd]
  exact h.recorded tx htx

theorem recorded (h : s.Kept cfg) : ∀ tx ∈ s'.accepted, tx.digest ∈ s'.processed := by
  intro tx htx
  rw [hc.accepted] at htx
  rw [hc.processed]
  obtain ho | hn := mem_append.mp htx
  · exact mem_append_left _ (h.recorded tx ho)
  · exact mem_append_right _ (mem_map_of_mem (mem_filter.mp hn).1)

theorem mem_processed_of_deferred (hg : c.deferredTxns[key]? = some txs)
    {tx : DeferredTransaction} (htx : tx ∈ txs) : tx.transaction ∈ c.processed := by
  refine hc.collected.bag.subset ?_
  rw [append_assoc]
  exact mem_append_left _ (mem_map_of_mem (ExtTreeMap.mem_flat.mpr ⟨key,txs,hg,htx⟩))

theorem mem_congestedOf {digest : TransactionDigest} (hm : digest ∈ congestedOf output) :
    ∃ future f txs, c.deferredTxns[consensusRound future f]? = some txs ∧
      ∃ tx ∈ txs, tx.transaction.digest = digest := by
  rw [hc.out,congestedOf] at hm
  obtain ⟨⟨key,txs⟩,he,hd⟩ := mem_flatMap.mp hm
  have hg := ExtTreeMap.mem_toList_iff_getElem?_eq_some.mp he
  cases key with
  | randomness f => cases hd
  | consensusRound future f =>
    obtain ⟨tx,htx,rfl⟩ := mem_map.mp hd
    exact ⟨future,f,txs,hg,tx,htx,rfl⟩

theorem processed_of_congested {digest : TransactionDigest} (hm : digest ∈ congestedOf output) :
    digest ∈ c.processed.map (·.digest) := by
  obtain ⟨future,f,txs,hg,tx,htx,rfl⟩ := hc.mem_congestedOf hm
  exact mem_map_of_mem (hc.mem_processed_of_deferred hg htx)

theorem count_congestedOf (h : s.Kept cfg)
    (digest : TransactionDigest) : (congestedOf output).count digest ≤ 1 := by
  refine nodup_iff_count_le_one.mp (List.Nodup.sublist (congestedOf_sublist output) ?_) digest
  have hn := ((hc.collected.bag.map (·.digest)).nodup_iff).mpr (hc.distinct_processed h)
  rw [append_assoc,map_append,map_map] at hn
  rw [hc.out]
  exact (nodup_append.mp hn).1

theorem not_congested_of_rest (h : s.Kept cfg)
    {txs : List VerifiedSequencedConsensusTransaction} (hg : (s.deferred cfg)[key]? = some txs)
    (hr : key ∉ (forRound ++ forRandomness).map Prod.fst) (htx : tx ∈ txs) :
    (congestedOf output).count tx.digest = 0 := by
  refine count_eq_zero.mpr fun hm => ?_
  have hf : tx ∈ (s.deferred cfg).flat := ExtTreeMap.mem_flat.mpr ⟨key,txs,hg,htx⟩
  have hin := hc.processed_of_congested hm
  rw [hc.collected.processed] at hin
  obtain ⟨tx',htx',hd⟩ := mem_map.mp hin
  obtain hld | hn := mem_append.mp (sequenced_perm.subset (mem_filter.mp htx').1)
  · have hp := (hc.loaded.flat_perm.map (·.digest)).nodup_iff.mp h.distinct_deferred
    rw [map_append,nodup_append] at hp
    refine hp.2.2 _ (mem_map_of_mem hld) _ (mem_map_of_mem ?_) hd
    refine ExtTreeMap.mem_flat.mpr ⟨key,txs,?_,htx⟩
    rw [ExtTreeMap.getElem?_foldl_erase,if_neg hr,hg]
  refine not_processed_of_verified hn ?_
  rw [hd]
  exact h.processed_of_deferred hf

theorem rounds (h : s.Kept cfg) (ha : s.NextCommit commit) :
    ∀ (key : DeferralKey) txs, (s'.deferred cfg)[key]? = some txs → ∀ tx ∈ txs,
      s'.congested.count tx.digest ≤ s'.lastRound + 1 - key.deferredFromRound := by
  intro key txs hg tx htx
  rw [hc.congested,count_append,hc.lastRound]
  obtain ⟨new,hn,rfl⟩ | ⟨ho,hr⟩ := hc.deferred_cases h ha hg
  · obtain ⟨t,ht,rfl⟩ := mem_map.mp htx
    obtain ⟨hle,hcn,-⟩ := hc.new_cases h ha hn ht
    have hon := hc.count_congestedOf h t.transaction.digest
    rw [Nat.sub_add_comm hle]
    exact Nat.add_le_add hcn hon
  rw [hc.not_congested_of_rest h ho hr htx,Nat.add_zero]
  exact (h.rounds key txs ho tx htx).trans
    (Nat.sub_le_sub_right (Nat.add_le_add_right ha.later.le 1) _)

theorem limit (h : s.Kept cfg) (ha : s.NextCommit commit) (digest : TransactionDigest) :
    s'.congested.count digest ≤ cfg.maxDeferralRoundsForCongestionControl := by
  rw [hc.congested,count_append]
  by_cases hm : digest ∈ congestedOf output
  · obtain ⟨future,f,txs,hg,tx,htx,rfl⟩ := hc.mem_congestedOf hm
    obtain ⟨hle,hcn,-,⟨f',hk,-⟩ | ⟨f',hk,-,hl⟩⟩ := hc.new_cases h ha hg htx
    · cases hk
    cases hk
    have ho := hc.count_congestedOf h tx.transaction.digest
    have hs := Nat.add_le_add hcn ho
    rw [← Nat.sub_add_comm hle] at hs
    exact hs.trans hl
  · rw [count_eq_zero.mpr hm,Nat.add_zero]
    exact h.limit digest

theorem randomnessKeys (h : s.Kept cfg) (ha : s.NextCommit commit) :
    ∀ f txs, (s'.deferred cfg)[randomness f]? = some txs → f ≤ s'.lastRound := by
  intro f txs hg
  rw [hc.lastRound]
  obtain ⟨new,hn,rfl⟩ | ⟨ho,-⟩ := hc.deferred_cases h ha hg
  · obtain ⟨tx,htx⟩ := exists_mem_of_ne_nil new (hc.collected.nonempty _ new hn)
    exact (hc.new_cases h ha hn htx).1
  · exact (h.randomnessKeys f txs ho).trans ha.later.le

theorem roundKeys (h : s.Kept cfg) (ha : s.NextCommit commit) :
    ∀ future f txs, (s'.deferred cfg)[consensusRound future f]? = some txs →
      future = s'.lastRound+1 ∧ f ≤ s'.lastRound := by
  intro future f txs hg
  rw [hc.lastRound]
  obtain ⟨new,hn,rfl⟩ | ⟨ho,hr⟩ := hc.deferred_cases h ha hg
  · obtain ⟨tx,htx⟩ := exists_mem_of_ne_nil new (hc.collected.nonempty _ new hn)
    obtain ⟨hle,-,-,⟨f',hk,-⟩ | ⟨f',hk,-⟩⟩ := hc.new_cases h ha hn htx
    · cases hk
    · cases hk
      exact ⟨rfl,hle⟩
  · obtain ⟨⟨f',hk⟩,-⟩ := hc.loaded.randomness_of_rest ho hr
    cases hk

theorem waiting (h : s.Kept cfg) (ha : s.NextCommit commit) :
    (∀ f, (s'.deferred cfg)[randomness f]? = none) ∨
      ∀ future f txs, (s'.deferred cfg)[consensusRound future f]? = some txs →
        ∀ tx ∈ txs, tx.usesRandomness = false := by
  by_cases hl : s.LoadsRandomness commit
  · -- everything was loaded, and nothing new waits for randomness
    refine .inl fun f => Option.eq_none_iff_forall_ne_some.mpr fun txs hg => ?_
    obtain ⟨new,hn,rfl⟩ | ⟨ho,hr⟩ := hc.deferred_cases h ha hg
    · obtain ⟨tx,htx⟩ := exists_mem_of_ne_nil new (hc.collected.nonempty _ new hn)
      obtain ⟨-,-,-,⟨f',-,hnt⟩ | ⟨f',hk,-⟩⟩ := hc.new_cases h ha hn htx
      · exact hnt hl
      · cases hk
    · exact (hc.loaded.randomness_of_rest ho hr).2 hl
  refine .inr fun future f txs hg tx htx => ?_
  obtain ⟨new,hn,rfl⟩ | ⟨ho,hr⟩ := hc.deferred_cases h ha hg
  · obtain ⟨t,ht,rfl⟩ := mem_map.mp htx
    obtain ⟨-,-,-,⟨f',hk,-⟩ | ⟨f',-,hu,-⟩⟩ := hc.new_cases h ha hn ht
    · cases hk
    · exact hu hl
  · obtain ⟨⟨f',hk⟩,-⟩ := hc.loaded.randomness_of_rest ho hr
    cases hk

theorem epoch (h : s.Kept cfg) (ha : s.NextCommit commit) :
    ∀ tx ∈ (s'.deferred cfg).flat, tx.epoch = cfg.epoch := by
  intro tx htx
  obtain ⟨key,txs,hg,hm⟩ := ExtTreeMap.mem_flat.mp htx
  obtain ⟨new,hn,rfl⟩ | ⟨ho,-⟩ := hc.deferred_cases h ha hg
  · obtain ⟨t,ht,rfl⟩ := mem_map.mp hm
    exact (hc.new_cases h ha hn ht).2.2.1
  · exact h.epoch tx (ExtTreeMap.mem_flat.mpr ⟨key,txs,ho,hm⟩)

theorem kept (h : s.Kept cfg) (ha : s.NextCommit commit) : s'.Kept cfg where
  lastRound := hc.lastRound ▸ ha.bound
  randomnessKeys := hc.randomnessKeys h ha
  roundKeys := hc.roundKeys h ha
  waiting := hc.waiting h ha
  epoch := hc.epoch h ha
  bag := hc.bag h ha
  distinct := hc.distinct h
  recorded := hc.recorded h
  congested := by
    intro digest hm
    rw [hc.congested] at hm
    rw [hc.processed]
    obtain ho | hn := mem_append.mp hm
    · exact mem_append_left _ (h.congested digest ho)
    · exact mem_append_right _ (hc.processed_of_congested hn)
  rounds := hc.rounds h ha
  limit := hc.limit h ha

theorem empty_of_final
    (h : s.Kept cfg) (ha : s.NextCommit commit) (hf : final = true) (key : DeferralKey) :
    (s'.deferred cfg)[key]? = none := by
  obtain ⟨he,hn⟩ := hc.done hf
  refine Option.eq_none_iff_forall_ne_some.mpr fun txs hg => ?_
  obtain ⟨new,hnw,-⟩ | ⟨ho,-⟩ := hc.deferred_cases h ha hg
  · have hm := ExtTreeMap.mem_toList_iff_getElem?_eq_some.mpr hnw
    rw [hc.out] at hn
    rw [show c.deferredTxns.toList = [] from hn] at hm
    cases hm
  have hv := (deferredTransactionsEmpty_iff cfg _).mp he key
  rw [cacheAtEndOfPublish,ConsensusOutputCache.view_record] at hv
  simp only [ConsensusCommitOutput.deferredTxnsV1,hn,map_nil,foldl_nil] at hv
  rw [deferred,hv] at ho
  cases ho

end Committed

structure Fresh (s : HandlerState) : Prop where
  cache : s.cache = ⟨∅,∅⟩
  processed : s.processed = []
  lastRound : s.lastRound = 0
  accepted : s.accepted = []
  scheduled : s.scheduled = []
  cancelled : s.cancelled = []
  congested : s.congested = []

def Allowed (s : HandlerState) : Event → Prop
  | .commit commit => s.lastRound < commit.round
  | .closeUserCerts => True

theorem Fresh.deferred (h : s.Fresh) (key : DeferralKey) : (s.deferred cfg)[key]? = none := by
  unfold HandlerState.deferred ConsensusOutputCache.view
  rw [h.cache]
  split
  · simp
  · simp

theorem Fresh.flat (h : s.Fresh) : (s.deferred cfg).flat = [] := by
  rw [eq_nil_iff_forall_not_mem]
  intro tx htx
  obtain ⟨key,txs,hg,-⟩ := ExtTreeMap.mem_flat.mp htx
  rw [h.deferred] at hg
  cases hg

theorem Fresh.kept (h : s.Fresh) : s.Kept cfg where
  lastRound := by rw [h.lastRound]; decide
  randomnessKeys f txs hg := by rw [h.deferred] at hg; cases hg
  roundKeys future f txs hg := by rw [h.deferred] at hg; cases hg
  waiting := .inl fun f => h.deferred _
  epoch tx htx := by rw [h.flat] at htx; cases htx
  bag := by rw [h.flat,h.scheduled,h.cancelled,h.accepted]; rfl
  distinct := by rw [h.accepted]; exact nodup_nil
  recorded tx htx := by rw [h.accepted] at htx; cases htx
  congested digest hm := by rw [h.congested] at hm; cases hm
  rounds key txs hg := by rw [h.deferred] at hg; cases hg
  limit digest := by rw [h.congested]; exact Nat.zero_le _

theorem bound_of_processCommit {r : HandlerState × ConsensusCommitOutput × Bool}
    (hok : s.processCommit cfg commit = .ok r) : commit.round+1 < 2 ^ 64 := by
  obtain ⟨loads,hl,-⟩ := of_bind hok
  obtain ⟨range,hr,-⟩ := of_bind hl
  unfold rangeForUpToConsensusRound at hr
  split at hr
  · next hb => exact hb
  · cases hr

theorem Kept.step {event : Event} (h : s.Kept cfg) (ha : s.Allowed event)
    (hs : s.step cfg event = .ok s') : s'.Kept cfg := by
  cases event with
  | closeUserCerts =>
    cases hs
    exact ⟨h.lastRound,h.randomnessKeys,h.roundKeys,h.waiting,h.epoch,h.bag,h.distinct,
      h.recorded,h.congested,h.rounds,h.limit⟩
  | commit commit =>
    obtain ⟨r,hok,hs⟩ := of_bind hs
    cases hs
    have hn : s.NextCommit commit := ⟨ha,bound_of_processCommit hok⟩
    obtain ⟨forRound,forRandomness,c,s',output,final,hok',hc⟩ := h.exists_committed hn
    rw [hok] at hok'
    cases hok'
    exact hc.kept h hn

theorem lastRound_of_step (hs : s.step cfg (.commit commit) = .ok s') :
    s'.lastRound = commit.round := by
  obtain ⟨r,hok,hs⟩ := of_bind hs
  obtain ⟨loads,hok⟩ := ok_of_bind hok
  obtain ⟨c,hok⟩ := ok_of_bind hok
  cases hok
  cases hs
  rfl

theorem kept_of_reached (h : Machine.Reached Fresh (step cfg) Allowed s) : s.Kept cfg :=
  h.invariant (fun _ hf => hf.kept) fun _ _ _ hk ha hs => hk.step ha hs

/-- In every run each accepted certificate is deferred under one key, scheduled or cancelled,
once; new entries take keys that are neither in use nor deleted; congestion defers a certificate
at most the configured number of times; and nothing is deferred after the final round. -/
theorem deferred_neither_lost_nor_duplicated (h : Machine.Reached Fresh (step cfg) Allowed s) :
    ((s.deferred cfg).flat ++ s.scheduled ++ s.cancelled).Perm s.accepted ∧
      (s.accepted.map (·.digest)).Nodup ∧
      (∀ digest, s.congested.count digest ≤ cfg.maxDeferralRoundsForCongestionControl) ∧
      ∀ commit, s.lastRound < commit.round → commit.round+1 < 2 ^ 64 →
        ∃ s' output final, s.processCommit cfg commit = .ok (s',output,final) ∧
          (∀ e ∈ output.deferredTxns, (s.deferred cfg)[e.1]? = none ∧
            e.1 ∉ output.deletedDeferredTxns ∧
            transactionDeferralWithinLimit e.1 cfg.maxDeferralRoundsForCongestionControl) ∧
          (final = true → ∀ key : DeferralKey, (s'.deferred cfg)[key]? = none) := by
  have hk := kept_of_reached h
  refine ⟨hk.bag,hk.distinct,hk.limit,fun commit hl hb => ?_⟩
  have hn : s.NextCommit commit := ⟨hl,hb⟩
  obtain ⟨forRound,forRandomness,c,s',output,final,hok,hc⟩ := hk.exists_committed hn
  refine ⟨s',output,final,hok,?_,hc.empty_of_final hk hn⟩
  rintro ⟨key,txs⟩ he
  rw [hc.out] at he ⊢
  have hg := ExtTreeMap.mem_toList_iff_getElem?_eq_some.mp he
  obtain ⟨hnn,hnt⟩ := hc.fresh hk hn hg
  refine ⟨hnn,hnt,?_⟩
  obtain ⟨tx,htx⟩ := exists_mem_of_ne_nil txs (hc.collected.nonempty key txs hg)
  obtain ⟨-,-,-,⟨f,rfl,-⟩ | ⟨f,rfl,-,hlm⟩⟩ := hc.new_cases hk hn hg htx
  · rfl
  · exact decide_eq_true hlm

def randomCert : VerifiedSequencedConsensusTransaction :=
  ⟨⟨5,0,0,[⟨randomnessStateObjectId,0,false⟩]⟩,0,0⟩

def twoRoundsConfig : HandlerConfig := ⟨0,true,true,2,true,fun _ => false⟩

def congestedCommit (round : CommitRound) (dkg : DkgStatus) : ConsensusCommit :=
  ⟨round,[randomCert],fun _ => false,[],dkg,true,fun _ => none,fun _ => 1⟩

/-- The certificate is congested in round 1 and waits for randomness after round 2. -/
theorem deferred_neither_lost_nor_duplicated_waiting :
    ∃ s, Machine.Reached Fresh (step twoRoundsConfig) Allowed s ∧
      (s.deferred twoRoundsConfig)[randomness 1]? = some [randomCert] ∧
      s.accepted = [randomCert] ∧ s.congested.count 5 ≤ 2 := by
  obtain ⟨s1,h1,s,h2,hd,ha⟩ : ∃ s1, step twoRoundsConfig
        ⟨⟨∅,∅⟩,[],[],.acceptAllCerts,0,[],[],[],[]⟩
        (.commit (congestedCommit 1 .successful)) = .ok s1 ∧
      ∃ s, step twoRoundsConfig s1 (.commit (congestedCommit 2 .pending)) = .ok s ∧
        (s.deferred twoRoundsConfig)[randomness 1]? = some [randomCert] ∧
        s.accepted = [randomCert] := by decide +kernel
  have hr : Machine.Reached Fresh (step twoRoundsConfig) Allowed s := by
    refine .step (.step (.init ⟨rfl,rfl,rfl,rfl,rfl,rfl,rfl⟩) ?_ h1) ?_ h2
    · exact Nat.zero_lt_one
    change s1.lastRound < 2
    rw [lastRound_of_step h1]
    decide
  exact ⟨s,hr,hd,ha,(deferred_neither_lost_nor_duplicated hr).2.2.1 5⟩

end HandlerState
end Iota.Authority
