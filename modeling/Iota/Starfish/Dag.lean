import Iota.Starfish.BlockVerifier

/-! The headers that exist, each under its own reference, and the causal relation between them. What
the nodes hold are parts of such a set. -/
namespace Iota.Starfish
open BlockVerifier List

/-- Verified headers, at most one for each reference: a reference holds a collision-free digest.
At round zero there are the genesis headers and nothing else. -/
structure Universe (ctx : Context) where
  get : BlockRef → Option VerifiedBlockHeader
  reference_eq : ∀ {r h}, get r = some h → h.reference = r
  genesis : ∀ r : BlockRef, r.round = genesisRound →
    get r = ctx.genesisHeaders.find? fun h => h.reference = r
  verified : ∀ {r h}, get r = some h → r.round ≠ genesisRound → verify ctx h.signed = .ok ()

namespace Universe
variable {ctx : Context} (U : Universe ctx)

instance : Membership VerifiedBlockHeader (Universe ctx) :=
  ⟨fun U h => U.get h.reference = some h⟩

variable {U} {h h' : VerifiedBlockHeader}

theorem mem_def : h ∈ U ↔ U.get h.reference = some h := Iff.rfl

theorem mem_of_get {r : BlockRef} (hr : U.get r = some h) : h ∈ U := by
  rw [mem_def,U.reference_eq hr]
  exact hr

theorem eq_of_reference_eq (hh : h ∈ U) (hh' : h' ∈ U) (he : h.reference = h'.reference) :
    h = h' := by
  have hg : U.get h.reference = some h' := by rw [he]; exact hh'
  exact Option.some.inj ((mem_def.mp hh).symm.trans hg)

theorem ancestors_of_round_eq_zero (hh : h ∈ U) (h0 : h.round = genesisRound) :
    h.ancestors = [] := by
  have hg := U.genesis h.reference h0
  rw [mem_def.mp hh] at hg
  obtain ⟨a,-,rfl⟩ := ctx.mem_genesisHeaders.mp (mem_of_find?_eq_some hg.symm)
  rfl

theorem author_lt_of_round_eq_zero (hh : h ∈ U) (h0 : h.round = genesisRound) :
    h.author < ctx.committee.size := by
  have hg := U.genesis h.reference h0
  rw [mem_def.mp hh] at hg
  obtain ⟨a,ha,rfl⟩ := ctx.mem_genesisHeaders.mp (mem_of_find?_eq_some hg.symm)
  exact ha

theorem validHeader (hh : h ∈ U) (h0 : h.round ≠ genesisRound) :
    ValidHeader ctx h.signed h.ancestors := by
  obtain ⟨as,hv⟩ := verify_ok_iff.mp (U.verified hh h0)
  have he : as = h.ancestors := Except.ok.inj (hv.ancestors_eq.symm.trans h.inner_ancestors)
  rw [← he]
  exact hv

theorem author_lt (hh : h ∈ U) : h.author < ctx.committee.size := by
  by_cases h0 : h.round = genesisRound
  · exact author_lt_of_round_eq_zero hh h0
  · exact (validHeader hh h0).author_lt

variable {a : BlockRef}

theorem round_ne_zero_of_mem_ancestors (hh : h ∈ U) (ha : a ∈ h.ancestors) :
    h.round ≠ genesisRound := by
  intro h0
  rw [ancestors_of_round_eq_zero hh h0] at ha
  cases ha

theorem ancestor_round_lt (hh : h ∈ U) (ha : a ∈ h.ancestors) : a.round < h.round :=
  (validHeader hh (round_ne_zero_of_mem_ancestors hh ha)).round_lt ha

theorem ancestor_author_lt (hh : h ∈ U) (ha : a ∈ h.ancestors) : a.author < ctx.committee.size :=
  (validHeader hh (round_ne_zero_of_mem_ancestors hh ha)).scanned.author_lt a ha

theorem ancestors_authors_nodup (hh : h ∈ U) : (h.ancestors.map BlockRef.author).Nodup := by
  by_cases h0 : h.round = genesisRound
  · rw [ancestors_of_round_eq_zero hh h0]
    exact nodup_nil
  · exact (validHeader hh h0).scanned.nodup

theorem ancestors_nodup (hh : h ∈ U) : h.ancestors.Nodup :=
  (ancestors_authors_nodup hh).of_map

theorem ancestor_eq_of_author_eq (hh : h ∈ U) {a b : BlockRef} (ha : a ∈ h.ancestors)
    (hb : b ∈ h.ancestors) (he : a.author = b.author) : a = b :=
  inj_on_of_nodup_map (ancestors_authors_nodup hh) ha hb he

variable {x : VerifiedBlockHeader}

def parentAuthors (h : VerifiedBlockHeader) : Finset Nat :=
  ((h.ancestors.filter fun a => a.round = h.round - 1).map BlockRef.author).toFinset

theorem parentAuthors_isQuorum (hh : h ∈ U) (h0 : h.round ≠ genesisRound) :
    ctx.committee.IsQuorum (parentAuthors h) := by
  have hv := validHeader hh h0
  have hn : ((h.ancestors.filter fun a => a.round = h.round - 1).map BlockRef.author).Nodup :=
    (ancestors_authors_nodup hh).sublist (filter_sublist.map _)
  have hs : ctx.committee.stakeOf (parentAuthors h) = parentStake ctx h.signed.inner h.ancestors := by
    unfold Committee.stakeOf parentAuthors parentStake
    rw [sum_toFinset _ hn,map_map]
    rfl
  unfold Committee.IsQuorum
  rw [hs]
  exact hv.quorum

variable (U)

def Parent (h p : VerifiedBlockHeader) : Prop := p ∈ U ∧ p.reference ∈ h.ancestors

def Reaches : VerifiedBlockHeader → VerifiedBlockHeader → Prop := Relation.ReflTransGen U.Parent

/-- Every reference met in the causal history of `h` has its header. -/
def Complete (h : VerifiedBlockHeader) : Prop :=
  ∀ x, U.Reaches h x → ∀ a ∈ x.ancestors, ∃ p, U.get a = some p

/-- Authorities outside `byzantine` produce at most one header a round. -/
def HonestUnique (byzantine : Finset Nat) : Prop :=
  ∀ h ∈ U, ∀ h' ∈ U, h.author ∉ byzantine → h.slot = h'.slot → h = h'

variable {U}

theorem Reaches.mem {x : VerifiedBlockHeader} (hr : U.Reaches h x) (hh : h ∈ U) : x ∈ U := by
  cases hr with
  | refl => exact hh
  | tail _ hp => exact hp.1

theorem Parent.round_lt {p : VerifiedBlockHeader} (hp : U.Parent h p) (hh : h ∈ U) :
    p.round < h.round :=
  ancestor_round_lt hh hp.2

theorem Reaches.round_le {x : VerifiedBlockHeader} (hr : U.Reaches h x) (hh : h ∈ U) :
    x.round ≤ h.round := by
  induction hr with
  | refl => exact le_rfl
  | tail hr hp ih => exact le_trans (hp.round_lt (Reaches.mem hr hh)).le ih

theorem Reaches.eq_of_round_eq (hr : U.Reaches h x) (hh : h ∈ U)
    (he : x.round = h.round) : x = h := by
  cases hr with
  | refl => rfl
  | tail hr hp =>
    have h1 := hp.round_lt (Reaches.mem hr hh)
    have h2 := Reaches.round_le hr hh
    omega

theorem Complete.of_reaches (hc : U.Complete h) (hr : U.Reaches h x) : U.Complete x :=
  fun y hy => hc y (hr.trans hy)

theorem Complete.exists_parent (hc : U.Complete h) (ha : a ∈ h.ancestors) :
    ∃ p, U.Parent h p ∧ p.reference = a := by
  obtain ⟨p,hp⟩ := hc h .refl a ha
  have hpa := U.reference_eq hp
  exact ⟨p,⟨mem_of_get hp,by rwa [hpa]⟩,hpa⟩

theorem Complete.exists_reaches_round (hc : U.Complete h) (hh : h ∈ U) {n : Nat}
    (hn : n ≤ h.round) : ∃ x, U.Reaches h x ∧ x.round = n := by
  induction hk : h.round - n generalizing h with
  | zero => exact ⟨h,.refl,by omega⟩
  | succ k ih =>
    have h0 : h.round ≠ genesisRound := by unfold genesisRound; omega
    -- some ancestor is of the round just below
    obtain ⟨author,hat⟩ := (parentAuthors_isQuorum hh h0).nonempty
    simp only [parentAuthors,mem_toFinset,mem_map,mem_filter,decide_eq_true_eq] at hat
    obtain ⟨a,⟨ha,hr⟩,-⟩ := hat
    obtain ⟨p,hp,hpa⟩ := hc.exists_parent ha
    have hpr : p.round = h.round - 1 := by rw [← hr,← hpa]; rfl
    have hs : U.Reaches h p := .single hp
    obtain ⟨x,hx,hxn⟩ := ih (hc.of_reaches hs) hp.1 (by omega) (by omega)
    exact ⟨x,hs.trans hx,hxn⟩

variable (U) in
/-- `p` is the header of the first ancestor of `h`, which is by the author of `h`. -/
def OwnParent (h p : VerifiedBlockHeader) : Prop := p ∈ U ∧ h.ancestors.head? = some p.reference

variable (U) in
/-- The headers of each author form one chain through their first ancestors. -/
def SingleChains : Prop :=
  ∀ h ∈ U, ∀ h' ∈ U, h.author = h'.author →
    Relation.ReflTransGen U.OwnParent h h' ∨ Relation.ReflTransGen U.OwnParent h' h

theorem reaches_of_ownParents {x : VerifiedBlockHeader}
    (hx : Relation.ReflTransGen U.OwnParent h x) : U.Reaches h x := by
  induction hx with
  | refl => exact .refl
  | tail _ hp ih => exact ih.tail ⟨hp.1,mem_of_head? hp.2⟩

theorem SingleChains.reaches (hc : U.SingleChains) (hh : h ∈ U)
    (hx : x ∈ U) (ha : h.author = x.author) (hrn : x.round ≤ h.round) : U.Reaches h x := by
  rcases hc h hh x hx ha with hr | hr
  · exact reaches_of_ownParents hr
  have hb := reaches_of_ownParents hr
  rw [hb.eq_of_round_eq hx (le_antisymm (hb.round_le hx) hrn)]
  exact .refl

end Universe

/-- The chain of headers of an authority that holds the whole stake, with chosen
acknowledgments. -/
def ackingHeader (acks : Nat → List BlockRef) : Nat → VerifiedBlockHeader
  | 0 => soleContext.genesisHeader 0
  | n+1 => ⟨craftedHeader (n+1) (⟨n,0,0⟩ :: acks (n+1)) 1 1,0,Nat.le_add_left 1 _⟩

section Chain
variable (acks : Nat → List BlockRef)

theorem ackingHeader_reference (n : Nat) : (ackingHeader acks n).reference = ⟨n,0,0⟩ := by
  cases n with
  | zero => rfl
  | succ n => rfl

theorem verify_ackingHeader (n : Nat) :
    verify soleContext (ackingHeader acks (n+1)).signed = .ok () := by
  refine verify_ok_iff.mpr ⟨[⟨n,0,0⟩],?_⟩
  have hs : Scanned soleContext (ackingHeader acks (n+1)).signed.inner 0 [⟨n,0,0⟩] ∅ := by
    refine scanned_cons.mpr ⟨⟨⟨fun _ => rfl,fun _ => rfl⟩,Nat.lt_succ_self n,?_⟩,
      Nat.one_pos,by simp,scanned_nil _ _⟩
    rintro (h0 : n = 0)
    subst h0
    decide
  have hq : soleContext.committee.quorumThreshold ≤
      parentStake soleContext (ackingHeader acks (n+1)).signed.inner [⟨n,0,0⟩] := by
    have hp : n = (ackingHeader acks (n+1)).signed.inner.round - 1 := rfl
    unfold parentStake
    rw [filter_singleton,← hp]
    simp
    decide
  exact ⟨⟨rfl,Nat.succ_ne_zero n,Nat.one_pos,rfl⟩,(ackingHeader acks (n+1)).inner_ancestors,
    Nat.le_refl 1,hs,hq⟩

def ackingChain : Universe soleContext where
  get r := if r = ⟨r.round,0,0⟩ then some (ackingHeader acks r.round) else none
  reference_eq {r h} hr := by
    split at hr
    · next he =>
      obtain rfl := Option.some.inj hr
      rw [ackingHeader_reference,← he]
    · cases hr
  genesis r h0 := by
    obtain ⟨round,author,digest⟩ := r
    obtain rfl : round = 0 := h0
    have hgenesis : soleContext.genesisHeaders = [ackingHeader acks 0] := rfl
    rw [hgenesis,List.find?_singleton,ackingHeader_reference]
    by_cases he : (⟨0,author,digest⟩ : BlockRef) = ⟨0,0,0⟩
    · rw [he]
      rfl
    · rw [if_neg he,if_neg (by simpa using Ne.symm he)]
  verified {r h} hr h0 := by
    split at hr
    · obtain rfl := Option.some.inj hr
      obtain ⟨n,hn⟩ := Nat.exists_eq_succ_of_ne_zero h0
      rw [hn]
      exact verify_ackingHeader acks n
    · cases hr

variable {acks}

theorem mem_ackingChain {h : VerifiedBlockHeader} :
    h ∈ ackingChain acks ↔ h = ackingHeader acks h.round := by
  constructor
  · intro hh
    change (if h.reference = ⟨h.round,0,0⟩ then some (ackingHeader acks h.round) else none) =
      some h at hh
    split at hh
    · exact (Option.some.inj hh).symm
    · cases hh
  intro hh
  have hr : h.reference = ⟨h.round,0,0⟩ := by
    have hc := ackingHeader_reference acks h.round
    rwa [← hh] at hc
  change (if h.reference = ⟨h.round,0,0⟩ then some (ackingHeader acks h.round) else none) = some h
  rw [if_pos hr,← hh]

theorem ackingHeader_mem (n : Nat) : ackingHeader acks n ∈ ackingChain acks := by
  have hr : (ackingHeader acks n).round = n :=
    congrArg BlockRef.round (ackingHeader_reference acks n)
  rw [mem_ackingChain,hr]

theorem ackingChain_singleChains : (ackingChain acks).SingleChains := by
  have hd : ∀ m k, Relation.ReflTransGen (ackingChain acks).OwnParent
      (ackingHeader acks (m + k)) (ackingHeader acks m) := by
    intro m k
    induction k with
    | zero => exact .refl
    | succ k ih =>
      refine .head ⟨ackingHeader_mem (m + k),?_⟩ ih
      rw [ackingHeader_reference]
      rfl
  intro h hh h' hh' _
  rw [mem_ackingChain.mp hh,mem_ackingChain.mp hh']
  rcases Nat.le_total h.round h'.round with hle | hle
  · obtain ⟨k,hk⟩ := Nat.exists_eq_add_of_le hle
    rw [hk]
    exact .inr (hd _ k)
  obtain ⟨k,hk⟩ := Nat.exists_eq_add_of_le hle
  rw [hk]
  exact .inl (hd _ k)

theorem ackingChain_honestUnique (byzantine : Finset Nat) :
    (ackingChain acks).HonestUnique byzantine := by
  intro h hh h' hh' _ hs
  rw [mem_ackingChain.mp hh,mem_ackingChain.mp hh',show h.round = h'.round from
    congrArg Slot.round hs]

end Chain
end Iota.Starfish
