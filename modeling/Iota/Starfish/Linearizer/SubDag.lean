import Iota.Starfish.Linearizer
import Iota.Starfish.View

/-! What a leader commits, as a part of its causal history, and that the traversal of the linearizer
computes it in every causally complete view. -/
namespace Iota.Starfish
open Universe Relation Linearizer
variable {rounds' : Nat → Nat}
namespace Universe
variable {ctx : Context} (U : Universe ctx)

/-- A parent that was not committed before, as far as the committed rounds tell, and that is not
below `lowest`. -/
def OpenParent (rounds : Nat → Nat) (lowest : Nat) (h p : VerifiedBlockHeader) : Prop :=
  U.Parent h p ∧ rounds p.author < p.round ∧ lowest ≤ p.round

def SubDag (rounds : Nat → Nat) (depth : Nat) (leader : VerifiedBlockHeader) :
    VerifiedBlockHeader → Prop :=
  ReflTransGen (U.OpenParent rounds (leader.round - depth)) leader

variable {U} {rounds : Nat → Nat} {depth : Nat} {leader x : VerifiedBlockHeader}

theorem SubDag.reaches (hx : U.SubDag rounds depth leader x) : U.Reaches leader x := by
  induction hx with
  | refl => exact .refl
  | tail _ hp ih => exact ih.tail hp.1

theorem SubDag.lowest_le (hx : U.SubDag rounds depth leader x) : leader.round - depth ≤ x.round := by
  cases hx with
  | refl => omega
  | tail _ hp => exact hp.2.2

theorem SubDag.rounds_lt (hx : U.SubDag rounds depth leader x)
    (hl : rounds leader.author < leader.round) : rounds x.author < x.round := by
  cases hx with
  | refl => exact hl
  | tail _ hp => exact hp.2.1

theorem SubDag.congr_rounds (hr : ∀ a < ctx.committee.size, rounds' a = rounds a)
    (hx : U.SubDag rounds depth leader x) : U.SubDag rounds' depth leader x := by
  induction hx with
  | refl => exact .refl
  | tail hx hp ih =>
    have ha := author_lt hp.1.1
    exact ih.tail ⟨hp.1,by rw [hr _ ha]; exact hp.2.1,hp.2.2⟩

end Universe
variable {ctx : Context} {U : Universe ctx} {s : DagState ctx} {rounds : Nat → Nat}
  {depth : Nat} {leader : VerifiedBlockHeader}

theorem mem_openAncestors {lowest : Nat} {h : VerifiedBlockHeader} {a : BlockRef} :
    a ∈ openAncestors rounds lowest h ↔
      a ∈ h.ancestors ∧ rounds a.author < a.round ∧ lowest ≤ a.round := by
  simp [openAncestors]

variable {get : BlockRef → Option VerifiedBlockHeader}

theorem expectUncommitted_ok {r : BlockRef}
    {h : VerifiedBlockHeader} (hr : get r = some h) : expectUncommitted get r = .ok h := by
  simp [expectUncommitted,hr]

theorem closed_of_reaches (hm : leader ∈ U) (hc : U.Complete leader)
    (hg : ∀ x, U.Reaches leader x → get x.reference = some x) (rounds : Nat → Nat) (lowest : Nat) :
    Traversal.Closed VerifiedBlockHeader.reference (openAncestors rounds lowest)
      (expectUncommitted get) (U.Reaches leader) := by
  constructor
  · exact fun x hx => expectUncommitted_ok (hg x hx)
  · intro x hx a ha
    obtain ⟨p,hp,hpa⟩ := (hc.of_reaches hx).exists_parent (mem_openAncestors.mp ha).1
    exact ⟨p,hx.tail hp,hpa⟩
  · exact fun x hx => (ancestors_nodup (hx.mem hm)).filter _

theorem subDag_iff_edge (hm : leader ∈ U) {x : VerifiedBlockHeader} :
    U.SubDag rounds depth leader x ↔
      ReflTransGen (Traversal.Edge VerifiedBlockHeader.reference
        (openAncestors rounds (leader.round - depth)) (U.Reaches leader)) leader x := by
  constructor
  · intro hx
    induction hx with
    | refl => exact .refl
    | tail hx hp ih =>
      have hr := SubDag.reaches hx
      exact ih.tail ⟨hr.tail hp.1,mem_openAncestors.mpr ⟨hp.1.2,hp.2⟩⟩
  intro hx
  induction hx with
  | refl => exact .refl
  | tail _ he ih =>
    obtain ⟨ha,ho⟩ := mem_openAncestors.mp he.2
    exact ih.tail ⟨⟨he.1.mem hm,ha⟩,ho⟩

/-- In a causally complete view the traversal of a leader succeeds: none of its assertions fails,
and it returns the sub-dag of the leader, each header once. -/
theorem linearizeSubDag_ok (hv : View U s)
    (hl : s.getVerifiedBlockHeader leader.reference = some leader) :
    ∃ headers, linearizeSubDag s.getVerifiedBlockHeader (s.headerCount+1) rounds depth leader =
        .ok headers ∧ (headers.map VerifiedBlockHeader.reference).Nodup ∧
      ∀ x, x ∈ headers ↔ U.SubDag rounds depth leader x := by
  have hm := hv.mem hl
  have hcl := closed_of_reaches hm (hv.complete hl)
    (fun x => hv.get_of_reaches hl) rounds (leader.round - depth)
  have hk : ∀ x, U.Reaches leader x → x.reference ∈ s.heldRefs.toFinset := fun x hx =>
    List.mem_toFinset.mpr (s.mem_heldRefs (hv.get_of_reaches hl hx))
  have hf : s.heldRefs.toFinset.card ≤ s.headerCount+1 := by
    have hc := s.heldRefs.toFinset_card_le
    rw [s.length_heldRefs] at hc
    omega
  obtain ⟨found,hfn,hn,hi⟩ :=
    Traversal.visit_start_ok Panic.headerTraversedTwice .outOfFuel hcl .refl hk hf
  refine ⟨sortSubDagBlocks found,?_,?_,?_⟩
  · unfold linearizeSubDag
    rw [hfn]
    rfl
  · exact ((sortSubDagBlocks_perm found).map _).nodup_iff.mpr hn
  · intro x
    rw [(sortSubDagBlocks_perm found).mem_iff,hi,subDag_iff_edge hm]

theorem linearizeSubDag_congr {get get' : BlockRef → Option VerifiedBlockHeader} {fuel : Nat}
    (hm : leader ∈ U) (hc : U.Complete leader)
    (hg : ∀ x, U.Reaches leader x → get x.reference = some x)
    (hg' : ∀ x, U.Reaches leader x → get' x.reference = some x)
    (hr : ∀ a < ctx.committee.size, rounds' a = rounds a) :
    linearizeSubDag get' fuel rounds' depth leader =
      linearizeSubDag get fuel rounds depth leader := by
  have hcl := closed_of_reaches hm hc hg rounds (leader.round - depth)
  have hc' := closed_of_reaches hm hc hg' rounds' (leader.round - depth)
  have hn : ∀ x, U.Reaches leader x → openAncestors rounds' (leader.round - depth) x =
      openAncestors rounds (leader.round - depth) x := by
    intro x hx
    refine List.filter_congr fun a ha => ?_
    rw [hr a.author (ancestor_author_lt (hx.mem hm) ha)]
  have hs : ∀ x ∈ [leader], U.Reaches leader x := by
    intro x hx
    obtain rfl := List.mem_singleton.mp hx
    exact .refl
  unfold linearizeSubDag
  rw [Traversal.visit_congr hcl hc' hn hs]

theorem linearizeSubDag_mono {fuel fuel' : Nat}
    (hle : fuel ≤ fuel') {headers : List VerifiedBlockHeader}
    (h : linearizeSubDag get fuel rounds depth leader = .ok headers) :
    linearizeSubDag get fuel' rounds depth leader = .ok headers := by
  unfold linearizeSubDag at h ⊢
  obtain ⟨found,hf,rfl⟩ := Except.map_eq_ok.mp h
  rw [Traversal.visit_mono hle hf]
  rfl

/-- The result of the traversal over all headers of `U`, with fuel enough. -/
def Linearized (U : Universe ctx) (rounds : Nat → Nat) (leader : VerifiedBlockHeader)
    (headers : List VerifiedBlockHeader) : Prop :=
  ∃ fuel, linearizeSubDag U.get fuel rounds ctx.protocolConfig.gcDepth leader = .ok headers

theorem Linearized.unique {U' : Universe ctx} (hm : leader ∈ U)
    (hc : U.Complete leader) (hh : ∀ x, U.Reaches leader x → x ∈ U')
    (hr : ∀ a < ctx.committee.size, rounds' a = rounds a)
    {headers headers' : List VerifiedBlockHeader} (h : Linearized U rounds leader headers)
    (h' : Linearized U' rounds' leader headers') : headers = headers' := by
  obtain ⟨fuel,h⟩ := h
  obtain ⟨fuel',h'⟩ := h'
  have hb := linearizeSubDag_mono (Nat.le_max_left fuel fuel') h
  have hb' := linearizeSubDag_mono (Nat.le_max_right fuel fuel') h'
  rw [linearizeSubDag_congr hm hc (fun x hx => hx.mem hm) hh hr,hb] at hb'
  exact Except.ok.inj hb'

end Iota.Starfish
