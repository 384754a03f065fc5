import Iota.Starfish.DagState.Commits

/-! Every header that was accepted and not lost in a crash, and that is of a round above the last
committed leader, is held in memory: eviction follows the committed rounds of the authors. -/
namespace Iota.Starfish
open Except Universe BlockVerifier
open Std (ExtTreeMap ExtTreeSet)
namespace DagState
variable {ctx : Context} {U : Universe ctx} {s s' : DagState ctx} {r : BlockRef} {h : VerifiedBlockHeader}

/-- What the callers of a DAG state guarantee for its cache: accepted headers are headers of `U`,
commits hold headers up to the round of their leader, and the caches are reloaded only with
everything flushed. -/
def Storing (U : Universe ctx) (s : DagState ctx) : DagOp → Prop
  | .acceptBlockHeader h => h ∈ U
  | .addCommit c => ∀ r ∈ c.blockHeaders, r.round ≤ c.leader.round
  | .reinitializeCaches => s.blockHeadersToWrite = []
  | _ => True

/-- What the cache and the commits have in common in every run. -/
structure CacheInv (U : Universe ctx) (s : DagState ctx) : Prop where
  coherent : Coherent U s
  cached : ∀ a, CachedFor s a
  log : CommitLog s
  bounded : RoundsBounded s

theorem Coherent.get_eq_some_iff (hc : Coherent U s) :
    s.getVerifiedBlockHeader r = some h ↔
      r.round = genesisRound ∧ (ctx.genesisHeaders.find? fun h => h.reference = r) = some h ∨
      r.round ≠ genesisRound ∧
        (s.recentBlockHeaders[r]? = some h ∨ s.store.blockHeaders[r]? = some h) := by
  unfold getVerifiedBlockHeader
  by_cases h0 : r.round = genesisRound
  · simp [h0]
  rw [if_neg h0]
  cases hr : s.recentBlockHeaders[r]? with
  | none => simp [h0]
  | some x =>
    have hx : ∀ y, s.store.blockHeaders[r]? = some y → x = y := fun y hy =>
      Option.some.inj ((hc.recent_get hr).1.symm.trans (hc.store_get hy).1)
    constructor
    · exact fun hh => .inr ⟨h0,.inl hh⟩
    rintro (⟨h0',-⟩ | ⟨-,hh | hh⟩)
    · exact absurd h0' h0
    · exact hh
    · rw [hx h hh]

theorem Coherent.get_sound (hc : Coherent U s)
    (hr : s.getVerifiedBlockHeader r = some h) : U.get r = some h := by
  rcases hc.get_eq_some_iff.mp hr with ⟨h0,hh⟩ | ⟨-,hh | hh⟩
  · rw [U.genesis r h0,hh]
  · exact (hc.recent_get hh).1
  · exact (hc.store_get hh).1

def storeLookup (ctx : Context) (store : Store) (r : BlockRef) : Option VerifiedBlockHeader :=
  if r.round = genesisRound then ctx.genesisHeaders.find? fun h => h.reference = r
  else store.blockHeaders[r]?

theorem storeLookup_header {store : Store} {h : VerifiedBlockHeader} (h0 : h.round ≠ genesisRound) :
    storeLookup ctx store h.reference = store.blockHeaders[h.reference]? :=
  if_neg h0

theorem get_congr (hr : s'.recentBlockHeaders = s.recentBlockHeaders)
    (hs : s'.store = s.store) : s'.getVerifiedBlockHeader = s.getVerifiedBlockHeader := by
  unfold getVerifiedBlockHeader
  rw [hr,hs]

theorem Coherent.get_eq_storeLookup (hc : Coherent U s) (he : s.blockHeadersToWrite = []) :
    s.getVerifiedBlockHeader = storeLookup ctx s.store := by
  have hrc : ∀ {r : BlockRef} {h}, s.recentBlockHeaders[r]? = some h →
      s.store.blockHeaders[r]? = some h := by
    intro r h hr
    rcases hc.written hr with hm | hr'
    · rw [he] at hm
      cases hm
    · exact hr'
  funext r
  unfold getVerifiedBlockHeader storeLookup
  cases hr : s.recentBlockHeaders[r]? with
  | none => rfl
  | some h => rw [hrc hr]

theorem Coherent.storeLookup_writeBuffers (hc : Coherent U s) :
    storeLookup ctx s.writeBuffers.store = s.getVerifiedBlockHeader := by
  funext r
  unfold storeLookup
  by_cases h0 : r.round = genesisRound
  · rw [getVerifiedBlockHeader,if_pos h0,if_pos h0]
  rw [if_neg h0]
  refine Option.ext fun h => ?_
  rw [hc.store_writeBuffers,hc.get_eq_some_iff]
  constructor
  · exact fun hh => .inr ⟨h0,hh⟩
  rintro (⟨h0',-⟩ | ⟨-,hh⟩)
  · exact absurd h0' h0
  · exact hh

theorem CacheInv.recent_of_get (hi : CacheInv U s)
    (hr : s.getVerifiedBlockHeader r = some h) (hl : s.lastCommitRound < r.round) :
    s.recentBlockHeaders[r]? = some h := by
  rcases hi.coherent.get_eq_some_iff.mp hr with ⟨h0,-⟩ | ⟨-,hh | hh⟩
  · unfold genesisRound at h0
    omega
  · exact hh
  -- a stored header above the last committed leader is above its author's eviction round
  refine hi.cached r.author r h hh rfl ?_
  have hle := hi.bounded.rounds r.author
  unfold calculateAuthorityEvictionRound evictionRound
  omega

theorem CacheInv.congr (hi : CacheInv U s) (h : s'.headerPart = s.headerPart) : CacheInv U s' := by
  have hc : s'.commitPart = s.commitPart := congrArg HeaderPart.toCommitPart h
  exact ⟨hi.coherent.congr h,fun a => (hi.cached a).congr h,hi.log.congr hc,hi.bounded.congr hc⟩

theorem CacheInv.flush (hi : CacheInv U s) : CacheInv U s.flush := by
  rcases flush_cases s with heq | hp
  · rw [heq]
    exact hi
  obtain ⟨hc,hcm,-,hcc⟩ := hi.coherent.writeBuffers.evictHeaders rfl
  have hin : CacheInv U s.writeBuffers.evictHeaders := by
    constructor
    · exact hc
    · exact fun a => hcc a (CachedFor.writeBuffers hi.coherent (hi.cached a))
    · exact hi.log.writeBuffers.congr hcm
    · exact (hi.bounded.writeBuffers hi.log).congr hcm
  exact hin.congr hp

theorem CacheInv.of_load (source : DataSource) (hch : Coherent U s) (hl : CommitLog s)
    (hb : RoundsBounded s) :
    CacheInv U ((List.range ctx.committee.size).foldl (loadCachedDataForAuthority source) s) := by
  obtain ⟨hc,hcm,-,hcc⟩ := hch.foldl_load source (List.range ctx.committee.size)
  constructor
  · exact hc
  · intro a
    by_cases ha : a < ctx.committee.size
    · exact hcc a (.inl (List.mem_range.mpr ha))
    -- headers are by members of the committee
    intro r h hh hra
    have hU := (hc.store_get hh).1
    have hlt := author_lt (mem_of_get hU)
    have hat : h.author = r.author := congrArg BlockRef.author (U.reference_eq hU)
    omega
  · exact hl.congr hcm
  · exact hb.congr hcm

theorem Coherent.of_empty (hc : Coherent U s) (hs : s'.store = s.store)
    (hrc : s'.recentBlockHeaders = ∅) (hrf : s'.recentHeadersRefsByAuthority = fun _ => ∅)
    (he : s'.blockHeadersToWrite = []) : Coherent U s' := by
  constructor
  · intro r h hr
    simp [hrc] at hr
  · rw [hs]
    exact hc.store_get
  · intro a r
    simp [hrc,hrf]
  · intro h hh
    simp [he] at hh
  · intro r h hr
    simp [hrc] at hr

theorem reinitializeCaches_cases (h : s.reinitializeCaches = .ok s') :
    s'.headerPart = ((List.range ctx.committee.size).foldl
      (loadCachedDataForAuthority .fastCommitSyncer) s.clearCaches).headerPart := by
  unfold DagState.reinitializeCaches rebuildScoringSubdagFromStore at h
  split at h
  · cases h
    rfl
  · obtain ⟨subdags,-,ha⟩ := of_bind h
    exact headerPart_addScoringSubdags ha

variable {ownIndex cachedRounds : Nat}

theorem new_cases {store : Store} (h : DagState.new ctx ownIndex cachedRounds store = .ok s') :
    ∃ scoring, s' = (List.range ctx.committee.size).foldl (loadCachedDataForAuthority .recover)
      (recovered ctx ownIndex cachedRounds store scoring) := by
  obtain ⟨subdags,h⟩ := ok_of_bind h
  obtain ⟨scoring,h⟩ := ok_of_bind h
  exact ⟨scoring,(ok.inj h).symm⟩

theorem CacheInv.reinitializeCaches (hi : CacheInv U s) (he : s.blockHeadersToWrite = [])
    (h : s.reinitializeCaches = .ok s') : CacheInv U s' := by
  have hc : Coherent U s.clearCaches := hi.coherent.of_empty rfl rfl rfl he
  have hin := CacheInv.of_load .fastCommitSyncer hc (hi.log.congr rfl) (hi.bounded.congr rfl)
  exact hin.congr (reinitializeCaches_cases h)

theorem CacheInv.restart (hi : CacheInv U s)
    (h : DagState.new ctx ownIndex cachedRounds s.store = .ok s') : CacheInv U s' := by
  obtain ⟨scoring,rfl⟩ := new_cases h
  exact .of_load .recover (hi.coherent.of_empty rfl rfl rfl rfl) (hi.log.recovered rfl rfl rfl)
    (hi.bounded.recovered hi.log ownIndex cachedRounds scoring)

theorem CacheInv.acceptBlockHeader (hi : CacheInv U s) (hU : h ∈ U)
    (hs : s.acceptBlockHeader h = .ok s') : CacheInv U s' := by
  rcases acceptBlockHeader_cases hs with rfl | ⟨h0,rfl⟩
  · exact hi
  constructor
  · exact hi.coherent.insert hU h0 (fun x => List.mem_append_left _)
      (fun x hx => by simpa using hx) (.inl (by simp))
  · exact fun a => CachedFor.insert hi.coherent hU (hi.cached a)
  · exact hi.log.congr rfl
  · exact hi.bounded.congr rfl

theorem CacheInv.addCommit (hi : CacheInv U s) {c : TrustedCommit}
    (hhd : ∀ r ∈ c.blockHeaders, r.round ≤ c.leader.round) (hs : s.addCommit c = .ok s') :
    CacheInv U s' := by
  have hl := hi.log.addCommit hs
  have hb := hi.bounded.addCommit hhd hs
  rcases addCommit_cases hs with ⟨rfl,-⟩ | ⟨-,-,rfl⟩
  · exact hi
  have hm : ∀ a, s.calculateAuthorityEvictionRound a ≤
      (s.appendCommit c).calculateAuthorityEvictionRound a := by
    intro a
    have hle := ((raiseRounds_le_iff s.lastCommittedRounds c.blockHeaders a _).mp le_rfl).1
    exact Nat.sub_le_sub_right hle s.cachedRounds
  constructor
  · exact ⟨hi.coherent.recent_get,hi.coherent.store_get,hi.coherent.refs,
      hi.coherent.buffered,hi.coherent.written⟩
  · exact fun a r h hh hra hlt => hi.cached a r h hh hra (lt_of_le_of_lt (hm a) hlt)
  · exact hl
  · exact hb

theorem CacheInv.addCommitInfo (hi : CacheInv U s) {scores : ReputationScores}
    (hs : s.addCommitInfo scores = .ok s') : CacheInv U s' := by
  have hb := hi.bounded.addCommitInfo hi.log hs
  obtain ⟨last,-,rfl⟩ := addCommitInfo_cases hs
  constructor
  · exact ⟨hi.coherent.recent_get,hi.coherent.store_get,hi.coherent.refs,
      hi.coherent.buffered,hi.coherent.written⟩
  · exact hi.cached
  · exact ⟨hi.log.key,hi.log.index_inj,hi.log.round_lt,hi.log.last_logged,hi.log.le_last,
      hi.log.index_pos,hi.log.below,hi.log.buffer_above⟩
  · exact hb

def lookupAfter (s : DagState ctx) : DagOp → BlockRef → Option VerifiedBlockHeader
  | .acceptBlockHeader h, r => if h.reference = r then some h else s.getVerifiedBlockHeader r
  | .restart, r => storeLookup ctx s.store r
  | _, r => s.getVerifiedBlockHeader r

theorem headerPart_exec {op : DagOp} (hs : s.exec op = .ok s') :
    (∃ h, op = .acceptBlockHeader h) ∨ (∃ c, op = .addCommit c) ∨
      (∃ scores, op = .persistScores scores) ∨ op = .flush ∨ op = .reinitializeCaches ∨
      op = .restart ∨
      s'.headerPart = s.headerPart ∧ s.lookupAfter op = s.getVerifiedBlockHeader := by
  cases op with
  | acceptBlockHeader h => exact .inl ⟨h,rfl⟩
  | addCommit c => exact .inr (.inl ⟨c,rfl⟩)
  | persistScores scores => exact .inr (.inr (.inl ⟨scores,rfl⟩))
  | flush => simp
  | reinitializeCaches => simp
  | restart => simp
  | addTransactions t source =>
    cases hs
    exact .inr (.inr (.inr (.inr (.inr (.inr ⟨headerPart_addTransactions s t source,rfl⟩)))))
  | addScoringSubdags subdags =>
    exact .inr (.inr (.inr (.inr (.inr (.inr ⟨headerPart_addScoringSubdags hs,rfl⟩)))))
  | updateLastSolidSubdagBase base =>
    cases hs
    exact .inr (.inr (.inr (.inr (.inr (.inr ⟨rfl,rfl⟩)))))
  | updatePendingCommitVotes refs =>
    cases hs
    exact .inr (.inr (.inr (.inr (.inr (.inr ⟨rfl,rfl⟩)))))
  | takeCommitVotes limit =>
    cases hs
    exact .inr (.inr (.inr (.inr (.inr (.inr ⟨rfl,rfl⟩)))))
  | takeAcknowledgments limit =>
    cases hs
    exact .inr (.inr (.inr (.inr (.inr (.inr ⟨headerPart_takeAcknowledgments s limit,rfl⟩)))))
  | setFastSyncOngoingFlag flag =>
    cases hs
    exact .inr (.inr (.inr (.inr (.inr (.inr ⟨rfl,rfl⟩)))))

theorem CacheInv.exec (hi : CacheInv U s) {op : DagOp} (hop : Storing U s op)
    (hs : s.exec op = .ok s') : CacheInv U s' := by
  rcases headerPart_exec hs with ⟨h,rfl⟩ | ⟨c,rfl⟩ | ⟨scores,rfl⟩ | rfl | rfl | rfl |
    ⟨hp,-⟩
  · exact hi.acceptBlockHeader hop hs
  · exact hi.addCommit hop hs
  · have hc : CacheInv U s.clearScoringSubdag := hi.congr rfl
    exact hc.addCommitInfo hs
  · cases hs
    exact hi.flush
  · exact hi.reinitializeCaches hop hs
  · exact hi.restart hs
  · exact hi.congr hp

theorem Coherent.get_of_contains (hc : Coherent U s) (h0 : r.round ≠ genesisRound)
    (h : s.containsBlockHeader r = true) : ∃ x, s.getVerifiedBlockHeader r = some x := by
  have hs : s.store.blockHeaders.contains r = true → ∃ x, s.getVerifiedBlockHeader r = some x := by
    intro hcn
    obtain ⟨x,hx⟩ := Option.isSome_iff_exists.mp
      (ExtTreeMap.isSome_getElem?_iff_mem.mpr (ExtTreeMap.contains_iff_mem.mp hcn))
    exact ⟨x,hc.get_eq_some_iff.mpr (.inr ⟨h0,.inr hx⟩)⟩
  simp only [containsBlockHeader] at h
  split at h
  · next hin =>
    rcases Bool.or_eq_true_iff.mp hin with hrf | hgn
    · have hrc := (hc.refs.mp (ExtTreeSet.contains_iff_mem.mp hrf)).1
      obtain ⟨x,hx⟩ := Option.isSome_iff_exists.mp (ExtTreeMap.isSome_getElem?_iff_mem.mpr hrc)
      exact ⟨x,hc.get_eq_some_iff.mpr (.inr ⟨h0,.inl hx⟩)⟩
    obtain ⟨g,hg,hr⟩ := List.any_eq_true.mp hgn
    obtain ⟨author,-,rfl⟩ := ctx.mem_genesisHeaders.mp hg
    exact absurd (congrArg BlockRef.round (of_decide_eq_true hr)).symm h0
  split at h
  · cases h
  split at h
  · cases h
  · exact hs h

theorem CacheInv.get_accept (hi : CacheInv U s) (hU : h ∈ U) (hs : s.acceptBlockHeader h = .ok s') :
    s'.getVerifiedBlockHeader = s.lookupAfter (.acceptBlockHeader h) := by
  funext r
  unfold DagState.acceptBlockHeader at hs
  split at hs
  · cases hs
  next h0 =>
  split at hs
  · next hc =>
    cases hs
    obtain ⟨x,hx⟩ := hi.coherent.get_of_contains h0 hc
    have heq : x = h := by
      have hxU := hi.coherent.get_sound hx
      exact Option.some.inj (hxU.symm.trans (mem_def.mp hU))
    simp only [lookupAfter]
    split
    · next hr => rw [← hr,hx,heq]
    · rfl
  · split at hs
    · cases hs
    cases hs
    simp only [lookupAfter,getVerifiedBlockHeader]
    have hrc := recent_updateBlockHeaderMetadata s h r
    by_cases hr : h.reference = r
    · have hr0 : r.round ≠ genesisRound := by
        rw [← hr]
        exact h0
      rw [if_pos hr] at hrc ⊢
      rw [if_neg hr0,hrc]
    rw [if_neg hr] at hrc ⊢
    rw [hrc]
    rfl

theorem CacheInv.get_exec (hi : CacheInv U s) {op : DagOp} (hop : Storing U s op)
    (hs : s.exec op = .ok s') : s'.getVerifiedBlockHeader = s.lookupAfter op := by
  have hi' := hi.exec hop hs
  rcases headerPart_exec hs with ⟨h,rfl⟩ | ⟨c,rfl⟩ | ⟨scores,rfl⟩ | rfl | rfl | rfl |
    ⟨hp,hl⟩
  · exact hi.get_accept hop hs
  · rcases addCommit_cases hs with ⟨rfl,-⟩ | ⟨-,-,rfl⟩
    · rfl
    · rfl
  · obtain ⟨last,-,rfl⟩ := addCommitInfo_cases hs
    rfl
  · cases hs
    rcases flush_cases s with heq | hp
    · rw [heq]
      rfl
    obtain ⟨-,hc,he,-⟩ := hi.coherent.writeBuffers.evictHeaders rfl
    rw [hi'.coherent.get_eq_storeLookup ((congrArg HeaderPart.headersToWrite hp).trans he)]
    have hst : s.flush.store = s.writeBuffers.store :=
      congrArg CommitPart.store ((congrArg HeaderPart.toCommitPart hp).trans hc)
    rw [hst,hi.coherent.storeLookup_writeBuffers]
    rfl
  · have he : s.blockHeadersToWrite = [] := hop
    have hch : Coherent U s.clearCaches := hi.coherent.of_empty rfl rfl rfl he
    obtain ⟨-,hc,hb,-⟩ := hch.foldl_load .fastCommitSyncer (List.range ctx.committee.size)
    have hp := reinitializeCaches_cases hs
    have hst : s'.store = s.store :=
      congrArg CommitPart.store ((congrArg HeaderPart.toCommitPart hp).trans hc)
    rw [hi'.coherent.get_eq_storeLookup
      (((congrArg HeaderPart.headersToWrite hp).trans hb).trans he),hst]
    exact (hi.coherent.get_eq_storeLookup he).symm
  · obtain ⟨scoring,rfl⟩ := new_cases hs
    have hch : Coherent U (recovered ctx s.ownIndex s.cachedRounds s.store scoring) :=
      hi.coherent.of_empty rfl rfl rfl rfl
    obtain ⟨-,hc,hb,-⟩ := hch.foldl_load .recover (List.range ctx.committee.size)
    rw [hi'.coherent.get_eq_storeLookup hb]
    exact congrArg (storeLookup ctx) (congrArg CommitPart.store hc)
  · have hr : s'.recentBlockHeaders = s.recentBlockHeaders := congrArg HeaderPart.recent hp
    have hst : s'.store = s.store := congrArg (fun p => p.store) hp
    rw [get_congr hr hst,hl]

theorem CacheInv.empty (U : Universe ctx) : CacheInv U (recovered ctx 0 0 .empty .new) := by
  constructor
  · constructor
    · intro r h hr
      simp [recovered] at hr
    · intro r h hr
      simp [recovered,Store.empty] at hr
    · intro a r
      simp [recovered]
    · intro h hh
      cases hh
    · intro r h hr
      simp [recovered] at hr
  · intro a r h hr
    simp [recovered,Store.empty] at hr
  · exact .empty ctx
  · constructor
    · exact fun hc => absurd hc (not_logged_empty ctx _)
    · exact fun a => (rounds_recovered_empty a).trans_le (Nat.zero_le _)
    · intro k info hk
      simp [recovered,Store.empty] at hk
    · intro k info hk
      cases hk

theorem CacheInv.initial (U : Universe ctx) (h : Initial ownIndex cachedRounds s) : CacheInv U s :=
  (CacheInv.empty U).restart h

end DagState
end Iota.Starfish
