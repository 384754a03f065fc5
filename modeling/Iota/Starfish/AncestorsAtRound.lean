import Iota.Starfish.DagState.Causal

/-! The loop of `ancestors_at_round` drops links below the earlier round when it replaces a header
by its ancestors. The ancestors of the first header are not filtered. -/
namespace Iota.Starfish
open List Universe Except
open BlockVerifier (craftedHeader pairContext)
open Std (ExtTreeSet)
namespace DagState
variable {ctx : Context} {s : DagState ctx} {earlier : Nat}

theorem linkedAtRound_below {fuel : Nat} {linked out : ExtTreeSet BlockRef}
    (h : s.linkedAtRound earlier fuel linked = .ok out) {x : BlockRef} (hx : x.round < earlier) :
    x ∈ out ↔ x ∈ linked := by
  induction fuel generalizing linked with
  | zero => cases h
  | succ fuel ih =>
    unfold linkedAtRound at h
    split at h
    · rw [ok.inj h]
    · next r _ =>
      split at h
      · rw [ok.inj h]
      · next hr =>
        split at h
        · cases h
        rw [ih h,ExtTreeSet.mem_insertMany_list,contains_iff_mem,mem_filter,
          ExtTreeSet.mem_erase]
        have hne : r ≠ x := by
          rintro rfl
          omega
        simp [hne,hx]

theorem expectHeaders_eq_ok {l : List (Option VerifiedBlockHeader)} {hs : List VerifiedBlockHeader}
    (h : expectHeaders l = .ok hs) : l = hs.map some := by
  induction l generalizing hs with
  | nil => rw [← ok.inj h]; rfl
  | cons o l ih =>
    cases o with
    | none => cases h
    | some p =>
      obtain ⟨hs',hr,rfl⟩ := map_eq_ok.mp h
      rw [ih hr,map_cons]

end DagState
namespace View
open DagState
variable {ctx : Context} {U : Universe ctx} {s : DagState ctx} {earlier : Nat}
  {anchor : VerifiedBlockHeader}

theorem mem_ancestorsAtRound_below (hv : View U s) {p : VerifiedBlockHeader}
    {l : List VerifiedBlockHeader} (h : s.ancestorsAtRound anchor earlier = .ok l)
    (hp : s.getVerifiedBlockHeader p.reference = some p) (hrn : p.round < earlier) :
    p ∈ l ↔ p.reference ∈ anchor.ancestors := by
  obtain ⟨out,ho,hl⟩ := of_bind h
  have hm : out.toList.map s.getVerifiedBlockHeader = l.map some := expectHeaders_eq_ok hl
  have hmm : p.reference ∈ out ↔ p.reference ∈ anchor.ancestors := by
    rw [linkedAtRound_below ho hrn,ExtTreeSet.mem_ofList,contains_iff_mem]
  rw [← hmm,← ExtTreeSet.mem_toList]
  constructor
  · intro hpl
    have hs : some p ∈ out.toList.map s.getVerifiedBlockHeader := by
      rw [hm]
      exact mem_map_of_mem hpl
    obtain ⟨r,hr,hg⟩ := mem_map.mp hs
    rwa [hv.reference_eq hg]
  intro ho
  have hs : some p ∈ l.map some := by
    rw [← hm]
    exact mem_map.mpr ⟨p.reference,ho,hp⟩
  simpa using hs

/-- The result is exactly the history at the earlier round when no direct ancestor is below it. -/
theorem ancestorsAtRound_exact_iff (hv : View U s)
    (hanchor : s.getVerifiedBlockHeader anchor.reference = some anchor)
    (hround : earlier < anchor.round) :
    (∃ l, s.ancestorsAtRound anchor earlier = .ok l ∧
      ∀ c, c ∈ l ↔ U.Reaches anchor c ∧ c.round = earlier) ↔
      ∀ a ∈ anchor.ancestors, earlier ≤ a.round := by
  obtain ⟨l,hl,hh,hal⟩ := hv.ancestorsAtRound_ok hanchor hround
  constructor
  · rintro ⟨l',hl',he⟩ a ha
    by_contra hlt
    obtain ⟨p,hp⟩ := hv.closed hanchor a ha
    obtain rfl := hv.reference_eq hp
    have hm := (hv.mem_ancestorsAtRound_below hl' hp (Nat.not_le.mp hlt)).mpr ha
    exact hlt ((he p).mp hm).2.ge
  intro han
  refine ⟨l,hl,fun c => ⟨fun hc => ?_,fun hc => hal c hc.1 hc.2⟩⟩
  obtain ⟨hg,hr,hle⟩ := hh c hc
  refine ⟨hr,hle.antisymm (Nat.le_of_not_lt fun hlt => ?_)⟩
  exact hlt.not_ge (han _ ((hv.mem_ancestorsAtRound_below hl hg hlt).mp hc))

section Counterexample

/-- The larger authority's second header links to the smaller one's genesis header. -/
def skippingHeader : VerifiedBlockHeader :=
  ⟨craftedHeader 2 [⟨1,0,0⟩,⟨0,1,0⟩] 2 2,0,Nat.le_refl 2⟩

def firstHeader : VerifiedBlockHeader := ackingHeader (fun _ => []) 1

def skippingDag : Universe pairContext where
  get r :=
    if r.round = genesisRound then pairContext.genesisHeaders.find? fun h => h.reference = r
    else if r = ⟨1,0,0⟩ then some firstHeader
    else if r = ⟨2,0,0⟩ then some skippingHeader
    else none
  reference_eq {r h} hr := by
    split at hr
    · simpa using find?_some hr
    split at hr
    · next he => rw [← Option.some.inj hr,he]; rfl
    split at hr
    · next he => rw [← Option.some.inj hr,he]; rfl
    · cases hr
  genesis r h0 := if_pos h0
  verified {r h} hr h0 := by
    rw [if_neg h0] at hr
    split at hr
    · rw [← Option.some.inj hr]; rfl
    split at hr
    · rw [← Option.some.inj hr]; rfl
    · cases hr

theorem causallyReached_accept {s s' : DagState ctx} {h : VerifiedBlockHeader}
    (hs : CausallyReached U 0 5 s) (hh : h ∈ U)
    (han : ∀ a ∈ h.ancestors, ∃ p, s.getVerifiedBlockHeader a = some p)
    (ha : s.acceptBlockHeader h = .ok s') : CausallyReached U 0 5 s' := by
  have hc : Causal U s (.acceptBlockHeader h) := ⟨hh,han⟩
  exact .step hs hc ha

theorem skippingDag_reached : ∃ s : DagState pairContext,
    CausallyReached skippingDag 0 5 s ∧
      s.getVerifiedBlockHeader skippingHeader.reference = some skippingHeader ∧
      s.ancestorsAtRound skippingHeader 1 = .ok [pairContext.genesisHeader 1,firstHeader] := by
  have h0 : CausallyReached skippingDag 0 5 _ := .init rfl
  have h1 := causallyReached_accept (h := firstHeader) h0 rfl (forall_mem_singleton.mpr ⟨_,rfl⟩) rfl
  have h2 := causallyReached_accept (h := skippingHeader) h1 rfl
    (forall_mem_cons.mpr ⟨⟨_,rfl⟩,forall_mem_singleton.mpr ⟨_,rfl⟩⟩) rfl
  exact ⟨_,h2,rfl,rfl⟩

/-- At the first round the skipping header reaches the first header, and the result holds a genesis
header as well. -/
theorem ancestorsAtRound_skipping : ∃ s : DagState pairContext,
    CausallyReached skippingDag 0 5 s ∧
      s.getVerifiedBlockHeader skippingHeader.reference = some skippingHeader ∧
      s.ancestorsAtRound skippingHeader 1 = .ok [pairContext.genesisHeader 1,firstHeader] ∧
      (pairContext.genesisHeader 1).round = 0 ∧
      ¬∃ l, s.ancestorsAtRound skippingHeader 1 = .ok l ∧
        ∀ c, c ∈ l ↔ skippingDag.Reaches skippingHeader c ∧ c.round = 1 := by
  obtain ⟨s,hs,hg,hl⟩ := skippingDag_reached
  refine ⟨s,hs,hg,hl,rfl,?_⟩
  rintro ⟨l,hl',he⟩
  cases hl.symm.trans hl'
  exact absurd ((he _).mp mem_cons_self).2 (by decide)

/-- No ancestor is below the genesis round. -/
theorem ancestorsAtRound_exact_genesis : ∃ s : DagState pairContext, View skippingDag s ∧
    s.getVerifiedBlockHeader skippingHeader.reference = some skippingHeader ∧
    0 < skippingHeader.round ∧
    ∃ l, s.ancestorsAtRound skippingHeader 0 = .ok l ∧
      ∀ c, c ∈ l ↔ skippingDag.Reaches skippingHeader c ∧ c.round = 0 := by
  obtain ⟨s,hs,hg,-⟩ := skippingDag_reached
  have hr : 0 < skippingHeader.round := by decide
  exact ⟨s,hs.inv.view,hg,hr,
    (ancestorsAtRound_exact_iff hs.inv.view hg hr).mpr fun _ _ => Nat.zero_le _⟩

end Counterexample
end View
end Iota.Starfish
