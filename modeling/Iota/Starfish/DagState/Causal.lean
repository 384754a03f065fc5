import Iota.Starfish.DagState.Cache

/-! In a run that accepts each header after its ancestors, the DAG state stays a causally complete
view, through flushes, evictions and restarts. -/
namespace Iota.Starfish
open Universe BlockVerifier
open Std (ExtTreeMap ExtTreeSet)
namespace DagState
variable {ctx : Context} {U : Universe ctx} {s s' : DagState ctx}

/-- What the callers of a DAG state guarantee in a causal run: accepted headers are headers of `U`
whose ancestors are present, commits hold headers up to the round of their leader, and the caches
are reloaded only with everything flushed. -/
def Causal (U : Universe ctx) (s : DagState ctx) : DagOp → Prop
  | .acceptBlockHeader h => h ∈ U ∧ ∀ a ∈ h.ancestors, ∃ p, s.getVerifiedBlockHeader a = some p
  | .addCommit c => ∀ r ∈ c.blockHeaders, r.round ≤ c.leader.round
  | .reinitializeCaches => s.blockHeadersToWrite = []
  | _ => True

/-- The headers found by a lookup are closed under ancestors. -/
def Closed (get : BlockRef → Option VerifiedBlockHeader) : Prop :=
  ∀ r h, get r = some h → ∀ a ∈ h.ancestors, ∃ p, get a = some p

/-- What holds in every state of a causal run. The store by itself is closed as well, which is what
a crash leaves. -/
structure CausalInv (U : Universe ctx) (s : DagState ctx) : Prop where
  coherent : Coherent U s
  closed : Closed s.getVerifiedBlockHeader
  storeClosed : Closed (storeLookup ctx s.store)
  cached : ∀ a, CachedFor s a
  log : CommitLog s
  bounded : RoundsBounded s

theorem CausalInv.cache (hi : CausalInv U s) : CacheInv U s :=
  ⟨hi.coherent,hi.cached,hi.log,hi.bounded⟩

theorem CacheInv.causal (hi : CacheInv U s) (hc : Closed s.getVerifiedBlockHeader)
    (hs : Closed (storeLookup ctx s.store)) : CausalInv U s :=
  ⟨hi.coherent,hc,hs,hi.cached,hi.log,hi.bounded⟩

variable {ownIndex cachedRounds : Nat}
section
variable (hi : CausalInv U s)

include hi

theorem CausalInv.view : View U s := by
  constructor
  · exact hi.coherent.get_sound
  · exact hi.closed _ _
  · intro r h hr
    exact hi.coherent.get_eq_some_iff.mpr (.inr ⟨(hi.coherent.recent_get hr).2,.inl hr⟩)
  · exact hi.cache.recent_of_get

theorem CausalInv.congr (h : s'.headerPart = s.headerPart) : CausalInv U s' := by
  have hr : s'.recentBlockHeaders = s.recentBlockHeaders := congrArg HeaderPart.recent h
  have hs : s'.store = s.store := congrArg (fun p => p.store) h
  refine (hi.cache.congr h).causal ?_ ?_
  · rw [get_congr hr hs]
    exact hi.closed
  · rw [hs]
    exact hi.storeClosed

theorem CausalInv.flush : CausalInv U s.flush := by
  have hcc := hi.cache.flush
  rcases flush_cases s with heq | hp
  · rw [heq]
    exact hi
  obtain ⟨hc,hcm,he,-⟩ := hi.coherent.writeBuffers.evictHeaders rfl
  have hs : s.flush.store = s.writeBuffers.store :=
    congrArg CommitPart.store ((congrArg HeaderPart.toCommitPart hp).trans hcm)
  have hb : s.flush.blockHeadersToWrite = [] := (congrArg HeaderPart.headersToWrite hp).trans he
  have hl : storeLookup ctx s.flush.store = s.getVerifiedBlockHeader :=
    (congrArg (storeLookup ctx) hs).trans hi.coherent.storeLookup_writeBuffers
  refine hcc.causal ?_ ?_
  · rw [hcc.coherent.get_eq_storeLookup hb,hl]
    exact hi.closed
  · rw [hl]
    exact hi.closed

theorem CausalInv.of_store (hc : CacheInv U s')
    (hs : s'.store = s.store) (he : s'.blockHeadersToWrite = []) : CausalInv U s' := by
  have hcl : Closed (storeLookup ctx s'.store) := by
    rw [hs]
    exact hi.storeClosed
  refine hc.causal ?_ hcl
  rw [hc.coherent.get_eq_storeLookup he]
  exact hcl

theorem CausalInv.reinitializeCaches (he : s.blockHeadersToWrite = [])
    (h : s.reinitializeCaches = .ok s') : CausalInv U s' := by
  have hc : Coherent U s.clearCaches := hi.coherent.of_empty rfl rfl rfl he
  obtain ⟨-,hcm,hb,-⟩ := hc.foldl_load .fastCommitSyncer (List.range ctx.committee.size)
  have hp := reinitializeCaches_cases h
  refine hi.of_store (hi.cache.reinitializeCaches he h) ?_ ?_
  · exact congrArg CommitPart.store ((congrArg HeaderPart.toCommitPart hp).trans hcm)
  · exact ((congrArg HeaderPart.headersToWrite hp).trans hb).trans he

theorem CausalInv.restart
    (h : DagState.new ctx ownIndex cachedRounds s.store = .ok s') : CausalInv U s' := by
  have hc := hi.cache.restart h
  obtain ⟨scoring,rfl⟩ := new_cases h
  have hch : Coherent U (recovered ctx ownIndex cachedRounds s.store scoring) :=
    hi.coherent.of_empty rfl rfl rfl rfl
  obtain ⟨-,hcm,hb,-⟩ := hch.foldl_load .recover (List.range ctx.committee.size)
  exact hi.of_store hc (congrArg CommitPart.store hcm) hb

theorem CausalInv.acceptBlockHeader {h : VerifiedBlockHeader} (hU : h ∈ U)
    (han : ∀ a ∈ h.ancestors, ∃ p, s.getVerifiedBlockHeader a = some p)
    (hs : s.acceptBlockHeader h = .ok s') : CausalInv U s' := by
  have hcc := hi.cache.acceptBlockHeader hU hs
  rcases acceptBlockHeader_cases hs with rfl | ⟨h0,rfl⟩
  · exact hi
  have hc := hcc.coherent
  have hk : ∀ {r : BlockRef} {x}, s.getVerifiedBlockHeader r = some x →
      ({ s.updateBlockHeaderMetadata h with
        blockHeadersToWrite := s.blockHeadersToWrite ++ [h] } : DagState ctx).getVerifiedBlockHeader r =
        some x := by
    intro r x hx
    rcases hi.coherent.get_eq_some_iff.mp hx with hg | ⟨hr0,hh | hh⟩
    · exact hc.get_eq_some_iff.mpr (.inl hg)
    · exact hc.get_eq_some_iff.mpr (.inr ⟨hr0,.inl (hi.coherent.recent_mono hU hh)⟩)
    · exact hc.get_eq_some_iff.mpr (.inr ⟨hr0,.inr hh⟩)
  refine hcc.causal ?_ hi.storeClosed
  · intro r x hx a ha
    have ho : ∃ p, s.getVerifiedBlockHeader a = some p := by
      rcases hc.get_eq_some_iff.mp hx with hg | ⟨hr0,hh | hh⟩
      · exact hi.closed r x (hi.coherent.get_eq_some_iff.mpr (.inl hg)) a ha
      · rw [recent_updateBlockHeaderMetadata] at hh
        split at hh
        · cases hh
          exact han a ha
        · exact hi.closed r x (hi.coherent.get_eq_some_iff.mpr (.inr ⟨hr0,.inl hh⟩)) a ha
      · exact hi.closed r x (hi.coherent.get_eq_some_iff.mpr (.inr ⟨hr0,.inr hh⟩)) a ha
    obtain ⟨p,hp⟩ := ho
    exact ⟨p,hk hp⟩

theorem CausalInv.addCommit {c : TrustedCommit}
    (hh : ∀ r ∈ c.blockHeaders, r.round ≤ c.leader.round) (hs : s.addCommit c = .ok s') :
    CausalInv U s' := by
  have hc := hi.cache.addCommit hh hs
  rcases addCommit_cases hs with ⟨rfl,-⟩ | ⟨-,-,rfl⟩
  · exact hi
  · exact hc.causal hi.closed hi.storeClosed

theorem CausalInv.addCommitInfo {scores : ReputationScores}
    (hs : s.addCommitInfo scores = .ok s') : CausalInv U s' := by
  have hc := hi.cache.addCommitInfo hs
  obtain ⟨last,-,rfl⟩ := addCommitInfo_cases hs
  exact hc.causal hi.closed hi.storeClosed

theorem CausalInv.exec {op : DagOp} (hop : Causal U s op) (hs : s.exec op = .ok s') : CausalInv U s' := by
  rcases headerPart_exec hs with ⟨h,rfl⟩ | ⟨c,rfl⟩ | ⟨scores,rfl⟩ | rfl | rfl | rfl |
    ⟨hp,-⟩
  · exact hi.acceptBlockHeader hop.1 hop.2 hs
  · exact hi.addCommit hop hs
  · have hc : CausalInv U s.clearScoringSubdag := hi.congr rfl
    exact hc.addCommitInfo hs
  · cases hs
    exact hi.flush
  · exact hi.reinitializeCaches hop hs
  · exact hi.restart hs
  · exact hi.congr hp

end

theorem closed_storeLookup_empty (ctx : Context) : Closed (storeLookup ctx .empty) := by
  intro r h hr a ha
  unfold storeLookup at hr
  split at hr
  · obtain ⟨author,-,rfl⟩ := ctx.mem_genesisHeaders.mp (List.mem_of_find?_eq_some hr)
    cases ha
  · simp [Store.empty] at hr

theorem CausalInv.empty (U : Universe ctx) : CausalInv U (recovered ctx 0 0 .empty .new) := by
  have hc := CacheInv.empty U
  refine hc.causal ?_ (closed_storeLookup_empty ctx)
  exact closed_storeLookup_empty ctx

theorem CausalInv.initial (U : Universe ctx)
    (h : Initial ownIndex cachedRounds s) : CausalInv U s :=
  (CausalInv.empty U).restart h

def CausallyReached (U : Universe ctx) (ownIndex cachedRounds : Nat) : DagState ctx → Prop :=
  Machine.Reached (Initial ownIndex cachedRounds) exec (Causal U)

theorem CausallyReached.inv (hs : CausallyReached U ownIndex cachedRounds s) : CausalInv U s :=
  hs.invariant (fun _ h => CausalInv.initial U h) fun _ _ _ hi hop hs => hi.exec hop hs

theorem CausallyReached.chain {acks : Nat → List BlockRef} {s s' : DagState soleContext}
    {cachedRounds n : Nat} {p : VerifiedBlockHeader}
    (hs : CausallyReached (ackingChain acks) 0 cachedRounds s)
    (hp : s.getVerifiedBlockHeader ⟨n,0,0⟩ = some p)
    (hac : s.acceptBlockHeader (ackingHeader acks (n+1)) = .ok s') :
    CausallyReached (ackingChain acks) 0 cachedRounds s' := by
  have hc : Causal (ackingChain acks) s (.acceptBlockHeader (ackingHeader acks (n+1))) := by
    refine ⟨ackingHeader_mem _,fun a ha => ?_⟩
    obtain rfl := List.mem_singleton.mp ha
    exact ⟨p,hp⟩
  exact .step hs hc hac

end DagState
end Iota.Starfish
