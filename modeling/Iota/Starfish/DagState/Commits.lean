import Iota.Starfish.DagState.Run

/-! The commits added in a run, in the store or still buffered, and the rounds up to which each
authority is committed. -/
namespace Iota.Starfish
open Except List
open Std (ExtTreeMap)
namespace DagState
variable {ctx : Context}

theorem raiseRounds_le_iff (rounds : Nat → Nat) (refs : List BlockRef) (a n : Nat) :
    raiseRounds rounds refs a ≤ n ↔ rounds a ≤ n ∧ ∀ r ∈ refs, r.author = a → r.round ≤ n := by
  unfold raiseRounds
  induction refs generalizing rounds with
  | nil => simp
  | cons r refs ih =>
    rw [foldl_cons,ih,forall_mem_cons,← and_assoc]
    refine and_congr_left fun _ => ?_
    by_cases ha : a = r.author
    · subst ha
      simp
    · simp [Function.update_of_ne ha,Ne.symm ha]

theorem replayRounds_le_iff (rounds : Nat → Nat) (commits : List TrustedCommit) (a n : Nat) :
    replayRounds rounds commits a ≤ n ↔ rounds a ≤ n ∧
      ∀ c ∈ commits, ∀ r ∈ c.blockHeaders, r.author = a → r.round ≤ n := by
  unfold replayRounds
  induction commits generalizing rounds with
  | nil => simp
  | cons c commits ih =>
    rw [foldl_cons,ih,raiseRounds_le_iff,forall_mem_cons,and_assoc]

/-- A commit that is stored or will be with the next flush. -/
def Logged (s : DagState ctx) (c : TrustedCommit) : Prop :=
  (∃ k : CommitRef, s.store.commits[k]? = some c) ∨ c ∈ s.commitsToWrite

/-- There is one commit for each index from one to that of the last commit, with leader rounds in
the same order, and the stored ones come before the buffered ones. -/
structure CommitLog (s : DagState ctx) : Prop where
  key : ∀ {k : CommitRef} {c}, s.store.commits[k]? = some c → c.reference = k
  index_inj : ∀ {c c'}, s.Logged c → s.Logged c' → c.index = c'.index → c = c'
  round_lt : ∀ {c c'}, s.Logged c → s.Logged c' → c.index < c'.index →
    c.leader.round < c'.leader.round
  last_logged : ∀ {c}, s.lastCommit = some c → s.Logged c
  le_last : ∀ {c}, s.Logged c → ∃ last, s.lastCommit = some last ∧ c.index ≤ last.index
  index_pos : ∀ {c}, s.Logged c → 1 ≤ c.index
  below : ∀ {c}, s.Logged c → ∀ i, 1 ≤ i → i ≤ c.index → ∃ c', s.Logged c' ∧ c'.index = i
  buffer_above : ∀ {k : CommitRef} {c c'}, s.store.commits[k]? = some c → c' ∈ s.commitsToWrite →
    c.index < c'.index

variable {s s' : DagState ctx}

theorem logged_congr (h : s'.commitPart = s.commitPart) {c : TrustedCommit} :
    s'.Logged c ↔ s.Logged c := by
  have hs : s'.store = s.store := congrArg CommitPart.store h
  have hb : s'.commitsToWrite = s.commitsToWrite := congrArg CommitPart.commitsToWrite h
  unfold Logged
  rw [hs,hb]

theorem CommitLog.congr (hl : CommitLog s) (h : s'.commitPart = s.commitPart) : CommitLog s' := by
  have hs : s'.store = s.store := congrArg CommitPart.store h
  have hls : s'.lastCommit = s.lastCommit := congrArg CommitPart.lastCommit h
  constructor
  · rw [hs]
    exact hl.key
  · intro c c' hc hc'
    exact hl.index_inj ((logged_congr h).mp hc) ((logged_congr h).mp hc')
  · intro c c' hc hc'
    exact hl.round_lt ((logged_congr h).mp hc) ((logged_congr h).mp hc')
  · intro c hc
    rw [hls] at hc
    exact (logged_congr h).mpr (hl.last_logged hc)
  · intro c hc
    rw [hls]
    exact hl.le_last ((logged_congr h).mp hc)
  · exact fun hc => hl.index_pos ((logged_congr h).mp hc)
  · intro c hc i hp hi
    obtain ⟨c',hc',hin⟩ := hl.below ((logged_congr h).mp hc) i hp hi
    exact ⟨c',(logged_congr h).mpr hc',hin⟩
  · rw [hs,show s'.commitsToWrite = s.commitsToWrite from congrArg CommitPart.commitsToWrite h]
    exact hl.buffer_above

theorem CommitLog.round_mono (hl : CommitLog s) {c c' : TrustedCommit} (hc : s.Logged c)
    (hc' : s.Logged c') (hle : c.index ≤ c'.index) : c.leader.round ≤ c'.leader.round := by
  rcases Nat.lt_or_eq_of_le hle with hlt | heq
  · exact (hl.round_lt hc hc' hlt).le
  · rw [hl.index_inj hc hc' heq]

theorem CommitLog.stored_of_le (hl : CommitLog s) {k : CommitRef} {c c' : TrustedCommit}
    (hc : s.store.commits[k]? = some c) (hc' : s.Logged c') (hle : c'.index ≤ c.index) :
    s.store.commits[c'.reference]? = some c' := by
  rcases hc' with ⟨k',hk'⟩ | hb
  · rw [hl.key hk']
    exact hk'
  · have hlt := hl.buffer_above hc hb
    omega

variable {c : TrustedCommit}

theorem CommitLog.round_le_last (hl : CommitLog s) (hc : s.Logged c) :
    c.leader.round ≤ s.lastCommitRound := by
  obtain ⟨last,hls,hle⟩ := hl.le_last hc
  unfold lastCommitRound
  rw [hls]
  exact hl.round_mono hc (hl.last_logged hls) hle

theorem CommitLog.exists_index (hl : CommitLog s) {i : Nat} (hp : 1 ≤ i)
    (hi : i ≤ s.lastCommitIndex) : ∃ c, s.Logged c ∧ c.index = i := by
  unfold lastCommitIndex at hi
  cases hls : s.lastCommit with
  | none =>
    rw [hls] at hi
    dsimp only at hi
    omega
  | some last =>
    rw [hls] at hi
    exact hl.below (hl.last_logged hls) i hp hi

/-- What adding a commit does: nothing for one at or below the last index, otherwise the commit
follows the last one. -/
theorem addCommit_cases (h : s.addCommit c = .ok s') :
    (s' = s ∧ c.index ≤ s.lastCommitIndex) ∨
    (c.index = s.lastCommitIndex+1 ∧
      (∀ last, s.lastCommit = some last → last.leader.round < c.leader.round) ∧
      s' = s.appendCommit c) := by
  unfold addCommit at h
  unfold lastCommitIndex
  cases hls : s.lastCommit with
  | none =>
    simp only [hls] at h
    split at h
    · next hi => exact .inr ⟨hi,by simp,(ok.inj h).symm⟩
    · cases h
  | some last =>
    simp only [hls] at h
    split at h
    · next hi => exact .inl ⟨(ok.inj h).symm,hi⟩
    split at h
    · cases h
    · next hi =>
      split at h
      · cases h
      split at h
      · cases h
      · next hr =>
        refine .inr ⟨not_not.mp hi,fun last' hl => ?_,(ok.inj h).symm⟩
        cases hl
        exact Nat.lt_of_not_le hr

theorem logged_appendCommit {c x : TrustedCommit} :
    (s.appendCommit c).Logged x ↔ s.Logged x ∨ x = c := by
  show _ ∨ x ∈ s.commitsToWrite ++ [c] ↔ _
  rw [mem_append,mem_singleton,← or_assoc]
  rfl

theorem CommitLog.addCommit (hl : CommitLog s) (h : s.addCommit c = .ok s') : CommitLog s' := by
  rcases addCommit_cases h with ⟨rfl,-⟩ | ⟨hin,hrn,rfl⟩
  · exact hl
  -- every earlier commit is below the new one, in index and in leader round
  have hb : ∀ {x}, s.Logged x → x.index < c.index ∧ x.leader.round < c.leader.round := by
    intro x hx
    obtain ⟨last,hls,hle⟩ := hl.le_last hx
    have hli : s.lastCommitIndex = last.index := by unfold lastCommitIndex; rw [hls]
    have hr := hl.round_mono hx (hl.last_logged hls) hle
    have hr' := hrn last hls
    exact ⟨by omega,by omega⟩
  constructor
  · exact hl.key
  · intro x y hx hy he
    rcases logged_appendCommit.mp hx with hx' | rfl
    · rcases logged_appendCommit.mp hy with hy' | rfl
      · exact hl.index_inj hx' hy' he
      · have := (hb hx').1
        omega
    rcases logged_appendCommit.mp hy with hy' | rfl
    · have := (hb hy').1
      omega
    · rfl
  · intro x y hx hy hlt
    rcases logged_appendCommit.mp hx with hx' | rfl
    · rcases logged_appendCommit.mp hy with hy' | rfl
      · exact hl.round_lt hx' hy' hlt
      · exact (hb hx').2
    rcases logged_appendCommit.mp hy with hy' | rfl
    · have := (hb hy').1
      omega
    · omega
  · intro x hx
    exact logged_appendCommit.mpr (.inr (Option.some.inj hx).symm)
  · intro x hx
    refine ⟨c,rfl,?_⟩
    rcases logged_appendCommit.mp hx with hx' | rfl
    · exact (hb hx').1.le
    · exact le_rfl
  · intro x hx
    rcases logged_appendCommit.mp hx with hx' | rfl
    · exact hl.index_pos hx'
    · omega
  · intro x hx i hp hi
    rcases logged_appendCommit.mp hx with hx' | rfl
    · obtain ⟨y,hy,hyi⟩ := hl.below hx' i hp hi
      exact ⟨y,logged_appendCommit.mpr (.inl hy),hyi⟩
    rcases Nat.lt_or_eq_of_le hi with hlt | heq
    · obtain ⟨y,hy,hyi⟩ := hl.exists_index hp (by omega : i ≤ s.lastCommitIndex)
      exact ⟨y,logged_appendCommit.mpr (.inl hy),hyi⟩
    · exact ⟨x,hx,heq.symm⟩
  · intro k x y hx hy
    rcases mem_append.mp hy with hy | hy
    · exact hl.buffer_above hx hy
    · rw [mem_singleton.mp hy]
      exact (hb (.inl ⟨k,hx⟩)).1

theorem commits_writeBuffers (s : DagState ctx) (k : CommitRef) :
    s.writeBuffers.store.commits[k]? =
      (s.commitsToWrite.reverse.find? fun c => c.reference = k).or s.store.commits[k]? := by
  have h := ExtTreeMap.getElem?_foldl_insert TrustedCommit.reference id s.commitsToWrite
    s.store.commits k
  rw [Option.map_id] at h
  exact h

theorem CommitLog.logged_writeBuffers (hl : CommitLog s) :
    s.writeBuffers.Logged c ↔ s.Logged c := by
  constructor
  · rintro (⟨k,hk⟩ | hc)
    · rw [commits_writeBuffers] at hk
      cases hf : s.commitsToWrite.reverse.find? fun c => c.reference = k with
      | some x =>
        rw [hf] at hk
        cases hk
        exact .inr (mem_reverse.mp (mem_of_find?_eq_some hf))
      | none =>
        rw [hf] at hk
        exact .inl ⟨k,hk⟩
    · cases hc
  · intro hc
    refine .inl ⟨c.reference,?_⟩
    rw [commits_writeBuffers]
    cases hf : s.commitsToWrite.reverse.find? fun x => x.reference = c.reference with
    | some x =>
      have hx : s.Logged x := .inr (mem_reverse.mp (mem_of_find?_eq_some hf))
      have hr : x.reference = c.reference := by simpa using List.find?_some hf
      rw [hl.index_inj hx hc (congrArg CommitRef.index hr)]
      rfl
    | none =>
      rcases hc with ⟨k,hk⟩ | hc
      · rw [hl.key hk]
        exact hk
      · have := List.find?_eq_none.mp hf c (mem_reverse.mpr hc)
        simp at this

theorem CommitLog.writeBuffers (hl : CommitLog s) : CommitLog s.writeBuffers := by
  constructor
  · intro k c hk
    rw [commits_writeBuffers] at hk
    cases hf : s.commitsToWrite.reverse.find? fun c => c.reference = k with
    | some x =>
      rw [hf] at hk
      cases hk
      simpa using List.find?_some hf
    | none =>
      rw [hf] at hk
      exact hl.key hk
  · intro c c' hc hc'
    exact hl.index_inj (hl.logged_writeBuffers.mp hc) (hl.logged_writeBuffers.mp hc')
  · intro c c' hc hc'
    exact hl.round_lt (hl.logged_writeBuffers.mp hc) (hl.logged_writeBuffers.mp hc')
  · exact fun hc => hl.logged_writeBuffers.mpr (hl.last_logged hc)
  · exact fun hc => hl.le_last (hl.logged_writeBuffers.mp hc)
  · exact fun hc => hl.index_pos (hl.logged_writeBuffers.mp hc)
  · intro c hc i hp hi
    obtain ⟨c',hc',hin⟩ := hl.below (hl.logged_writeBuffers.mp hc) i hp hi
    exact ⟨c',hl.logged_writeBuffers.mpr hc',hin⟩
  · intro k c c' _ hc'
    cases hc'

theorem CommitLog.recovered (hl : CommitLog s) (hs : s'.store = s.store)
    (hls : s'.lastCommit = s.store.readLastCommit) (hb : s'.commitsToWrite = []) :
    CommitLog s' := by
  have hlg : ∀ {c}, s'.Logged c → ∃ k : CommitRef, s.store.commits[k]? = some c := by
    rintro c (⟨k,hk⟩ | hc)
    · exact ⟨k,by rwa [hs] at hk⟩
    · rw [hb] at hc
      cases hc
  constructor
  · intro k c hk
    rw [hs] at hk
    exact hl.key hk
  · exact fun hc hc' => hl.index_inj (.inl (hlg hc)) (.inl (hlg hc'))
  · exact fun hc hc' => hl.round_lt (.inl (hlg hc)) (.inl (hlg hc'))
  · intro c hc
    rw [hls] at hc
    obtain ⟨k,hk,-⟩ := s.store.readLastCommit_eq_some hc
    exact .inl ⟨k,by rwa [hs]⟩
  · intro c hc
    obtain ⟨k,hk⟩ := hlg hc
    rw [hls]
    cases hr : s.store.readLastCommit with
    | none =>
      rw [s.store.readLastCommit_eq_none hr] at hk
      simp at hk
    | some last =>
      obtain ⟨k',hk',hm⟩ := s.store.readLastCommit_eq_some hr
      have hle := hm k (ExtTreeMap.mem_iff_isSome_getElem?.mpr (by rw [hk]; rfl))
      refine ⟨last,rfl,?_⟩
      rw [← hl.key hk,← hl.key hk'] at hle
      exact CommitRef.index_le_of_isLE hle
  · exact fun hc => hl.index_pos (.inl (hlg hc))
  · intro c hc i hp hi
    obtain ⟨k,hk⟩ := hlg hc
    obtain ⟨c',hc',hin⟩ := hl.below (.inl ⟨k,hk⟩) i hp hi
    have hst := hl.stored_of_le hk hc' (by omega)
    exact ⟨c',.inl ⟨c'.reference,by rwa [hs]⟩,hin⟩
  · intro k c c' _ hc'
    rw [hb] at hc'
    cases hc'

theorem readLastCommit_empty : Store.empty.readLastCommit = none := by
  simp [Store.readLastCommit,Store.empty]

theorem readLastCommitInfo_empty : Store.empty.readLastCommitInfo = none := by
  simp [Store.readLastCommitInfo,Store.empty]

theorem rounds_recovered_empty (a : Nat) :
    (recovered ctx 0 0 .empty .new).lastCommittedRounds a = 0 := by
  have hr : commitsToReplay .empty = [] := by
    exact ite_self _
  rfl

theorem not_logged_empty (ctx : Context) (c : TrustedCommit) :
    ¬(recovered ctx 0 0 .empty .new).Logged c := by
  rintro (⟨k,hk⟩ | hc)
  · simp [recovered,Store.empty] at hk
  · cases hc

theorem CommitLog.empty (ctx : Context) : CommitLog (DagState.recovered ctx 0 0 .empty .new) := by
  constructor
  · intro k c hk
    simp [DagState.recovered,Store.empty] at hk
  · exact fun hc => absurd hc (not_logged_empty ctx _)
  · exact fun hc => absurd hc (not_logged_empty ctx _)
  · intro c hc
    have hl : (DagState.recovered ctx 0 0 .empty .new).lastCommit = none := readLastCommit_empty
    cases hc
  · exact fun hc => absurd hc (not_logged_empty ctx _)
  · exact fun hc => absurd hc (not_logged_empty ctx _)
  · exact fun hc => absurd hc (not_logged_empty ctx _)
  · intro k c c' _ hc'
    cases hc'

/-- No authority is committed above the last leader, in the state and in the stored snapshots. -/
structure RoundsBounded (s : DagState ctx) : Prop where
  headers : ∀ {c}, s.Logged c → ∀ r ∈ c.blockHeaders, r.round ≤ c.leader.round
  rounds : ∀ a, s.lastCommittedRounds a ≤ s.lastCommitRound
  storeInfo : ∀ {k : CommitRef} {info}, s.store.commitInfo[k]? = some info →
    ∃ c, s.store.commits[k]? = some c ∧ ∀ a, info.committedRounds.getD a 0 ≤ c.leader.round
  info : ∀ {k info}, (k,info) ∈ s.commitInfoToWrite →
    ∃ c, s.Logged c ∧ c.reference = k ∧ ∀ a, info.committedRounds.getD a 0 ≤ c.leader.round

theorem RoundsBounded.congr (hb : RoundsBounded s) (h : s'.commitPart = s.commitPart) :
    RoundsBounded s' := by
  have hs : s'.store = s.store := congrArg CommitPart.store h
  have hl : s'.lastCommit = s.lastCommit := congrArg CommitPart.lastCommit h
  have hrn : s'.lastCommittedRounds = s.lastCommittedRounds := congrArg CommitPart.rounds h
  have hi : s'.commitInfoToWrite = s.commitInfoToWrite := congrArg CommitPart.infoToWrite h
  constructor
  · exact fun hc => hb.headers ((logged_congr h).mp hc)
  · unfold lastCommitRound
    rw [hrn,hl]
    exact hb.rounds
  · rw [hs]
    exact hb.storeInfo
  intro k info hk
  rw [hi] at hk
  obtain ⟨c,hc,hr⟩ := hb.info hk
  exact ⟨c,(logged_congr h).mpr hc,hr⟩

theorem RoundsBounded.addCommit (hb : RoundsBounded s) {c : TrustedCommit}
    (hh : ∀ r ∈ c.blockHeaders, r.round ≤ c.leader.round)
    (h : s.addCommit c = .ok s') : RoundsBounded s' := by
  rcases addCommit_cases h with ⟨rfl,-⟩ | ⟨-,hrn,rfl⟩
  · exact hb
  have hls : s.lastCommitRound ≤ c.leader.round := by
    unfold lastCommitRound
    cases hl : s.lastCommit with
    | none => exact Nat.zero_le _
    | some last => exact (hrn last hl).le
  constructor
  · intro x hx
    rcases logged_appendCommit.mp hx with hx' | rfl
    · exact hb.headers hx'
    · exact hh
  · intro a
    show raiseRounds s.lastCommittedRounds c.blockHeaders a ≤ c.leader.round
    rw [raiseRounds_le_iff]
    exact ⟨le_trans (hb.rounds a) hls,fun r hr _ => hh r hr⟩
  · exact hb.storeInfo
  intro k info hk
  obtain ⟨x,hx,hrs⟩ := hb.info hk
  exact ⟨x,logged_appendCommit.mpr (.inl hx),hrs⟩

theorem addCommitInfo_cases {scores : ReputationScores} (h : s.addCommitInfo scores = .ok s') :
    ∃ last, s.lastCommit = some last ∧ s' = { s with
      commitInfoToWrite := s.commitInfoToWrite ++
        [(last.reference,⟨(List.range ctx.committee.size).map s.lastCommittedRounds,scores⟩)] } := by
  unfold addCommitInfo at h
  split at h
  · cases h
  cases hl : s.lastCommit with
  | none =>
    rw [hl] at h
    cases h
  | some last =>
    rw [hl] at h
    exact ⟨last,rfl,(ok.inj h).symm⟩

theorem getD_map_range (f : Nat → Nat) (n a : Nat) :
    ((List.range n).map f).getD a 0 = if a < n then f a else 0 := by
  by_cases h : a < n
  · simp [h]
  · simp [h]

theorem RoundsBounded.addCommitInfo (hl : CommitLog s) (hb : RoundsBounded s)
    {scores : ReputationScores} (h : s.addCommitInfo scores = .ok s') : RoundsBounded s' := by
  obtain ⟨last,hls,rfl⟩ := addCommitInfo_cases h
  constructor
  · exact hb.headers
  · exact hb.rounds
  · exact hb.storeInfo
  intro k info hk
  rcases mem_append.mp hk with hk | hk
  · exact hb.info hk
  cases mem_singleton.mp hk
  refine ⟨last,hl.last_logged hls,rfl,fun a => ?_⟩
  rw [getD_map_range]
  have hr : s.lastCommitRound = last.leader.round := by unfold lastCommitRound; rw [hls]
  split
  · exact hr ▸ hb.rounds a
  · exact Nat.zero_le _

theorem commitInfo_writeBuffers {k : CommitRef} {info : CommitInfo}
    (h : s.writeBuffers.store.commitInfo[k]? = some info) :
    (k,info) ∈ s.commitInfoToWrite ∨ s.store.commitInfo[k]? = some info := by
  have heq := ExtTreeMap.getElem?_foldl_insert (Prod.fst : CommitRef × CommitInfo → CommitRef)
    Prod.snd s.commitInfoToWrite s.store.commitInfo k
  rw [show s.writeBuffers.store.commitInfo[k]? = _ from heq] at h
  cases hf : s.commitInfoToWrite.reverse.find? fun p => p.1 = k with
  | some p =>
    rw [hf] at h
    have hp : p.1 = k := by simpa using List.find?_some hf
    have hm := mem_reverse.mp (mem_of_find?_eq_some hf)
    cases h
    exact .inl (hp ▸ hm)
  | none =>
    rw [hf] at h
    exact .inr h

theorem RoundsBounded.writeBuffers (hl : CommitLog s) (hb : RoundsBounded s) :
    RoundsBounded s.writeBuffers := by
  constructor
  · exact fun hc => hb.headers (hl.logged_writeBuffers.mp hc)
  · exact hb.rounds
  · intro k info hk
    have hlg : ∃ c, s.Logged c ∧ c.reference = k ∧
        ∀ a, info.committedRounds.getD a 0 ≤ c.leader.round := by
      rcases commitInfo_writeBuffers hk with hk | hk
      · exact hb.info hk
      · obtain ⟨c,hc,hr⟩ := hb.storeInfo hk
        exact ⟨c,.inl ⟨k,hc⟩,hl.key hc,hr⟩
    obtain ⟨c,hc,rfl,hr⟩ := hlg
    rcases hl.logged_writeBuffers.mpr hc with ⟨k,hk⟩ | hk
    · have hky := hl.writeBuffers.key hk
      exact ⟨c,by rw [hky]; exact hk,hr⟩
    · cases hk
  · intro k info hk
    cases hk

theorem RoundsBounded.recovered (hl : CommitLog s) (hb : RoundsBounded s) (ownIndex cachedRounds : Nat)
    (scoring : ScoringSubdag ctx.committee) :
    RoundsBounded (recovered ctx ownIndex cachedRounds s.store scoring) := by
  have hl' : CommitLog (DagState.recovered ctx ownIndex cachedRounds s.store scoring) :=
    hl.recovered rfl rfl rfl
  have hh : ∀ {c}, (DagState.recovered ctx ownIndex cachedRounds s.store scoring).Logged c →
      ∀ r ∈ c.blockHeaders, r.round ≤ c.leader.round := by
    rintro c (hc | hc)
    · exact hb.headers (.inl hc)
    · cases hc
  constructor
  · exact hh
  · intro a
    refine (replayRounds_le_iff _ _ _ _).mpr ⟨?_,fun c hc r hr _ => ?_⟩
    · unfold recoveredRounds
      cases hi : s.store.readLastCommitInfo with
      | none => exact Nat.zero_le _
      | some p =>
        obtain ⟨hk,-⟩ := s.store.readLastCommitInfo_eq_some hi
        obtain ⟨c,hc,hle⟩ := hb.storeInfo hk
        exact le_trans (hle a) (hl'.round_le_last (.inl ⟨_,hc⟩))
    have hc' : ∃ k : CommitRef, s.store.commits[k]? = some c := by
      unfold commitsToReplay at hc
      split at hc
      · cases hc
      split at hc
      · cases hc
      · obtain ⟨k,hk,-⟩ := s.store.mem_scanCommits.mp hc
        exact ⟨k,hk⟩
    exact le_trans (hh (.inl hc') r hr) (hl'.round_le_last (.inl hc'))
  · exact hb.storeInfo
  · intro k info hk
    cases hk

end DagState
end Iota.Starfish
