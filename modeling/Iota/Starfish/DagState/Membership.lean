import Iota.Starfish.BlockManager.Transactions
import Iota.Starfish.DagState.Cache

/-! A reference that is newer than the cached ones of its author, or whose author has none, is taken
to be missing and not looked up in the store. -/
namespace Iota.Starfish.DagState
open BlockVerifier List
open Std (ExtTreeMap ExtTreeSet)
variable {ctx : Context} {U : Universe ctx} {s : DagState ctx} {ownIndex cachedRounds : Nat}

/-- The misses are looked up together, which does not change the answers. -/
def containsBlockHeaders (s : DagState ctx) (refs : List BlockRef) : List Bool :=
  refs.map s.containsBlockHeader

def Present (s : DagState ctx) (r : BlockRef) : Prop :=
  (∃ h ∈ ctx.genesisHeaders, h.reference = r) ∨ r ∈ s.recentBlockHeaders ∨ r ∈ s.store.blockHeaders

def StoringReached (U : Universe ctx) (ownIndex cachedRounds : Nat) : DagState ctx → Prop :=
  Machine.Reached (Initial ownIndex cachedRounds) exec (Storing U)

theorem StoringReached.inv (hs : StoringReached U ownIndex cachedRounds s) : CacheInv U s :=
  hs.invariant (fun _ h => CacheInv.initial U h) fun _ _ _ hi hop hs => hi.exec hop hs

theorem Coherent.exists_le_of_contains (hc : Coherent U s) {r : BlockRef}
    (hr : r ∈ s.store.blockHeaders) (hcn : s.containsBlockHeader r = true) :
    ∃ k ∈ s.recentHeadersRefsByAuthority r.author, r.round ≤ k.round := by
  unfold containsBlockHeader at hcn
  dsimp only at hcn
  split at hcn
  · next hin =>
    rcases Bool.or_eq_true _ _ ▸ hin with hin | hg
    · exact ⟨r,ExtTreeSet.contains_iff_mem.mp hin,le_rfl⟩
    obtain ⟨h,hh,rfl⟩ : ∃ h ∈ ctx.genesisHeaders, h.reference = r := by simpa using hg
    obtain ⟨a,-,rfl⟩ := ctx.mem_genesisHeaders.mp hh
    exact absurd rfl (hc.store_get (ExtTreeMap.getElem?_eq_some_getElem hr)).2
  split at hcn
  · cases hcn
  · next last hl =>
    refine ⟨last,(ExtTreeSet.last?_eq_some_iff.mp hl).1,Nat.le_of_not_lt fun hlt => ?_⟩
    rw [if_pos hlt] at hcn
    cases hcn

/-- Membership is exact when no evicted header is newer than the cached ones of its author. -/
theorem containsBlockHeaders_exact_iff (hs : StoringReached U ownIndex cachedRounds s) :
    (∀ refs, Forall₂ (fun r found => found = true ↔ s.Present r) refs
        (s.containsBlockHeaders refs)) ↔
      ∀ r ∈ s.store.blockHeaders, r.round ≤ s.calculateAuthorityEvictionRound r.author →
        ∃ k ∈ s.recentHeadersRefsByAuthority r.author, r.round ≤ k.round := by
  have hi := hs.inv
  constructor
  · intro hex r hr _
    have hfn := (forall₂_cons.mp (hex [r])).1
    exact hi.coherent.exists_le_of_contains hr (hfn.mpr (.inr (.inr hr)))
  intro he refs
  have hf : FullLookup s := by
    intro r hr
    rcases le_or_gt r.round (s.calculateAuthorityEvictionRound r.author) with hle | hgt
    · exact he r hr hle
    have hg := ExtTreeMap.getElem?_eq_some_getElem hr
    have hc := hi.cached r.author r _ hg rfl hgt
    exact ⟨r,hi.coherent.refs.mpr ⟨ExtTreeMap.mem_iff_isSome_getElem?.mpr (by simp [hc]),
      rfl⟩,le_rfl⟩
  refine forall₂_map_right_iff.mpr (forall₂_same.mpr fun r _ => ?_)
  rw [hf.contains_iff,hi.coherent.refs,and_iff_left rfl]
  exact or_left_comm

section Counterexample

/-- A commit of a fast sync, which names a header that is not fetched. -/
def syncedCommit : TrustedCommit := ⟨⟨1,0,0,⟨7,0,0⟩,[⟨7,0,0⟩],[],[]⟩,0⟩

/-- The commits of a fast sync evict the header; it is stored and not found. -/
theorem containsBlockHeaders_evicted : ∃ s : DagState soleContext,
    StoringReached (ackingChain fun _ => []) 0 5 s ∧ s.Present ⟨1,0,0⟩ ∧
      s.containsBlockHeaders [⟨1,0,0⟩] = [false] := by
  have h0 : StoringReached (ackingChain fun _ => []) 0 5 _ := .init rfl
  have h1 := h0.step (i := DagOp.acceptBlockHeader _) (ackingHeader_mem 1) rfl
  have h2 := h1.step (i := DagOp.addCommit syncedCommit) (forall_mem_singleton.mpr le_rfl) rfl
  have h3 := h2.step (i := DagOp.flush) trivial rfl
  refine ⟨_,h3,.inr (.inr rfl),?_⟩
  rw [containsBlockHeaders,map_singleton,singleton_inj,← Bool.not_eq_true]
  intro hc
  obtain ⟨k,hk,-⟩ := (StoringReached.inv h3).coherent.exists_le_of_contains rfl hc
  have hk : k ∈ ((∅ : ExtTreeSet BlockRef).insert ⟨1,0,0⟩).splitOff ⟨3,0,0⟩ := hk
  obtain ⟨hk,hge⟩ := (ExtTreeSet.mem_splitOff _ _ _).mp hk
  obtain rfl : ⟨1,0,0⟩ = k := by simpa using hk
  exact absurd (BlockRef.round_le_of_isLE hge) (by decide)

/-- Without a commit nothing is evicted. -/
theorem containsBlockHeaders_exact_stored : ∃ s : DagState soleContext,
    StoringReached (ackingChain fun _ => []) 0 5 s ∧ s.Present ⟨1,0,0⟩ ∧
      ∀ refs, Forall₂ (fun r found => found = true ↔ s.Present r) refs
        (s.containsBlockHeaders refs) := by
  have h0 : StoringReached (ackingChain fun _ => []) 0 5 _ := .init rfl
  have h1 := h0.step (i := DagOp.acceptBlockHeader _) (ackingHeader_mem 1) rfl
  have h2 := h1.step (i := DagOp.flush) trivial rfl
  refine ⟨_,h2,.inr (.inr rfl),(containsBlockHeaders_exact_iff h2).mpr fun r hr hle => ?_⟩
  have hp := ((StoringReached.inv h2).coherent.store_get (ExtTreeMap.getElem?_eq_some_getElem hr)).2
  exact absurd (Nat.le_zero.mp hle) hp

end Counterexample
end Iota.Starfish.DagState
