import Iota.Starfish.DagState.Watermark

/-! The commits a store holds, and how the log of a DAG state passes through flushes and restarts.
Headers are kept under their own references. -/
namespace Iota.Starfish
open Std (ExtTreeMap)
namespace DagState
variable {ctx : Context} {s s' : DagState ctx}

theorem commitPart_flush (s : DagState ctx) : s.flush.commitPart = s.writeBuffers.commitPart := by
  rcases flush_cases s with heq | hp
  · by_cases he : s.transactionsToWrite = [] ∧ s.blockHeadersToWrite = [] ∧
        s.commitsToWrite = [] ∧ s.commitInfoToWrite = [] ∧ s.fastSyncOngoingFlagToWrite = none
    · obtain ⟨ht,hh,hc,hi,hf⟩ := he
      rw [heq]
      unfold commitPart writeBuffers
      rw [ht,hh,hc,hi,hf]
      rfl
    unfold flush
    rw [if_neg he]
    exact commitPart_evictHeaders s.writeBuffers
  · exact (congrArg HeaderPart.toCommitPart hp).trans (commitPart_evictHeaders s.writeBuffers)

theorem fastSyncOngoingFlagToWrite_flush (s : DagState ctx) :
    s.flush.fastSyncOngoingFlagToWrite = none := by
  unfold flush
  split
  · next he => exact he.2.2.2.2
  · exact proj_foldl fastSyncOngoingFlagToWrite (f := evictHeadersOf) (fun _ _ => rfl) _
      s.writeBuffers

variable {c : TrustedCommit}

theorem CommitLog.logged_flush (hl : CommitLog s) : s.flush.Logged c ↔ s.Logged c :=
  (logged_congr (commitPart_flush s)).trans hl.logged_writeBuffers

theorem CommitLog.flush (hl : CommitLog s) : CommitLog s.flush :=
  hl.writeBuffers.congr (commitPart_flush s)

def storedIndex (store : Store) : Nat :=
  match store.readLastCommit with
  | some c => c.index
  | none => 0

theorem CommitLog.index_le_storedIndex (hl : CommitLog s)
    (hc : Stored s.store c) : c.index ≤ storedIndex s.store := by
  obtain ⟨k,hk⟩ := hc
  unfold storedIndex
  cases hr : s.store.readLastCommit with
  | none =>
    rw [s.store.readLastCommit_eq_none hr] at hk
    simp at hk
  | some last =>
    obtain ⟨k',hk',hm⟩ := s.store.readLastCommit_eq_some hr
    have hle := CommitRef.index_le_of_isLE
      (hm k (ExtTreeMap.mem_iff_isSome_getElem?.mpr (by rw [hk]; rfl)))
    rwa [← hl.key hk,← hl.key hk'] at hle

theorem CommitLog.exists_stored (hl : CommitLog s) {i : Nat} (hp : 1 ≤ i)
    (hi : i ≤ storedIndex s.store) : ∃ c, Stored s.store c ∧ c.index = i := by
  unfold storedIndex at hi
  cases hr : s.store.readLastCommit with
  | none =>
    rw [hr] at hi
    dsimp only at hi
    omega
  | some last =>
    rw [hr] at hi
    obtain ⟨k,hk,-⟩ := s.store.readLastCommit_eq_some hr
    obtain ⟨c,hc,hin⟩ := hl.below (.inl ⟨k,hk⟩) i hp hi
    exact ⟨c,⟨_,hl.stored_of_le hk hc (hin ▸ hi)⟩,hin⟩

theorem CommitLog.index_scanCommits (hl : CommitLog s) {first last : Nat} (hf : 1 ≤ first)
    (hls : last ≤ storedIndex s.store) :
    (s.store.scanCommits first last).map (fun c => c.index) =
      List.range' first (last + 1 - first) := by
  have hky : ∀ p ∈ s.store.commits.toList, p.2.reference = p.1 := fun p hp =>
    hl.key (ExtTreeMap.mem_toList_iff_getElem?_eq_some.mp hp)
  refine List.Pairwise.eq_of_mem_iff ?_ List.pairwise_lt_range' fun i => ?_
  · unfold Store.scanCommits
    rw [List.map_map,List.pairwise_map]
    refine List.Pairwise.imp_of_mem ?_ ((ExtTreeMap.ordered_keys_toList).filter _)
    intro p q hp hq hlt
    have hp' := (List.mem_filter.mp hp).1
    have hq' := (List.mem_filter.mp hq).1
    -- the keys increase, and commits of one index are one commit
    have hle := CommitRef.index_le_of_isLE (by rw [hlt]; rfl)
    rw [← hky p hp',← hky q hq'] at hle
    refine lt_of_le_of_ne hle fun heq => ?_
    have hs : ∀ x ∈ s.store.commits.toList, s.Logged x.2 := fun x hx =>
      .inl ⟨x.1,ExtTreeMap.mem_toList_iff_getElem?_eq_some.mp hx⟩
    have hcm := hl.index_inj (hs p hp') (hs q hq') heq
    rw [← hky p hp',← hky q hq',hcm] at hlt
    exact absurd hlt (by simp)
  · rw [List.mem_map,List.mem_range'_1]
    constructor
    · rintro ⟨c,hc,rfl⟩
      obtain ⟨k,hk,hge,hle⟩ := (s.store.mem_scanCommits).mp hc
      have hi : c.index = k.index := congrArg CommitRef.index (hl.key hk)
      omega
    intro hr
    obtain ⟨c,⟨k,hk⟩,rfl⟩ := hl.exists_stored (i := i) (by omega) (by omega)
    have hi : c.index = k.index := congrArg CommitRef.index (hl.key hk)
    exact ⟨c,(s.store.mem_scanCommits).mpr ⟨k,hk,by omega,by omega⟩,rfl⟩

theorem CommitLog.storedIndex_eq (hl : CommitLog s) (he : s.commitsToWrite = []) :
    storedIndex s.store = s.lastCommitIndex := by
  have hs : ∀ c, s.Logged c → Stored s.store c := by
    rintro c (hc | hc)
    · exact hc
    · rw [he] at hc
      cases hc
  apply le_antisymm
  · unfold storedIndex
    cases hr : s.store.readLastCommit with
    | none => exact Nat.zero_le _
    | some last =>
      obtain ⟨k,hk,-⟩ := s.store.readLastCommit_eq_some hr
      exact hl.index_le_last (.inl ⟨k,hk⟩)
  unfold lastCommitIndex
  cases hls : s.lastCommit with
  | none => exact Nat.zero_le _
  | some c => exact hl.index_le_storedIndex (hs c (hl.last_logged hls))

theorem lastCommitIndex_new {ownIndex cachedRounds : Nat} {store : Store}
    (h : DagState.new ctx ownIndex cachedRounds store = .ok s) :
    s.lastCommitIndex = storedIndex store := by
  obtain ⟨scoring,hp⟩ := commitPart_new h
  have hl : s.lastCommit = store.readLastCommit := congrArg CommitPart.lastCommit hp
  unfold lastCommitIndex storedIndex
  cases hr : store.readLastCommit with
  | none => rw [hl,hr]
  | some c => rw [hl,hr]

theorem CommitLog.exec (hl : CommitLog s) {op : DagOp} (hs : s.exec op = .ok s') :
    CommitLog s' := by
  cases op with
  | addCommit c => exact hl.addCommit hs
  | persistScores scores =>
    obtain ⟨last,-,rfl⟩ := addCommitInfo_cases hs
    exact ⟨hl.key,hl.index_inj,hl.round_lt,hl.last_logged,hl.le_last,hl.index_pos,hl.below,
      hl.buffer_above⟩
  | flush =>
    cases hs
    exact hl.flush
  | restart => exact hl.restart hs
  | _ => exact hl.congr (commitPart_exec id hs)

theorem CommitLog.logged_exec (hl : CommitLog s) {op : DagOp} (hop : op ≠ .restart)
    (hs : s.exec op = .ok s') (hc : s.Logged c) : s'.Logged c := by
  cases op with
  | addCommit c' =>
    rcases addCommit_cases hs with ⟨rfl,-⟩ | ⟨-,-,rfl⟩
    · exact hc
    · exact logged_appendCommit.mpr (.inl hc)
  | persistScores scores =>
    obtain ⟨last,-,rfl⟩ := addCommitInfo_cases hs
    exact hc
  | flush =>
    cases hs
    exact hl.logged_flush.mpr hc
  | restart => exact absurd rfl hop
  | _ => exact (logged_congr (commitPart_exec id hs)).mpr hc

section Keyed
variable {s s' : DagState ctx}

end Keyed
end DagState
end Iota.Starfish
