import Iota.Starfish.Dag
import Iota.Starfish.DagState

/-! What a DAG state holds of a set of headers when the history of each header came before it, and
what the reads of the state return then. -/
namespace Iota.Starfish
open List Universe
open Std (ExtTreeMap ExtTreeSet)

/-- The headers a state can look up are headers of `U`, closed under ancestors, and those above the
last committed leader are cached. -/
structure View {ctx : Context} (U : Universe ctx) (s : DagState ctx) : Prop where
  sound : ∀ {r h}, s.getVerifiedBlockHeader r = some h → U.get r = some h
  closed : ∀ {r h}, s.getVerifiedBlockHeader r = some h → ∀ a ∈ h.ancestors,
    ∃ p, s.getVerifiedBlockHeader a = some p
  recent : ∀ {r h}, s.recentBlockHeaders[r]? = some h → s.getVerifiedBlockHeader r = some h
  cached : ∀ {r h}, s.getVerifiedBlockHeader r = some h → s.lastCommitRound < r.round →
    s.recentBlockHeaders[r]? = some h

namespace DagState
variable {ctx : Context} (s : DagState ctx)

/-- The references that can be looked up, with repetitions. -/
def heldRefs : List BlockRef :=
  ctx.genesisHeaders.map VerifiedBlockHeader.reference ++ s.recentBlockHeaders.keys ++
    s.store.blockHeaders.keys

theorem length_heldRefs : s.heldRefs.length = s.headerCount := by
  simp [heldRefs,headerCount,Context.genesisHeaders,ExtTreeMap.length_keys,Nat.add_assoc]

theorem mem_heldRefs {r : BlockRef} {h : VerifiedBlockHeader}
    (hr : s.getVerifiedBlockHeader r = some h) : r ∈ s.heldRefs := by
  unfold heldRefs
  unfold getVerifiedBlockHeader at hr
  rw [mem_append,mem_append,ExtTreeMap.mem_keys,ExtTreeMap.mem_keys]
  split at hr
  · have hm := mem_of_find?_eq_some hr
    have he : h.reference = r := by simpa using List.find?_some hr
    exact .inl (.inl (he ▸ mem_map_of_mem hm))
  cases hrc : s.recentBlockHeaders[r]? with
  | some h' => exact .inl (.inr (ExtTreeMap.mem_iff_isSome_getElem?.mpr (by simp [hrc])))
  | none =>
    simp only [hrc] at hr
    exact .inr (ExtTreeMap.mem_iff_isSome_getElem?.mpr (by simp [hr]))

end DagState
open DagState
namespace View
variable {ctx : Context} {U : Universe ctx} {s : DagState ctx} (hv : View U s)
variable {r : BlockRef} {h : VerifiedBlockHeader}

include hv

theorem mem (hr : s.getVerifiedBlockHeader r = some h) : h ∈ U :=
  mem_of_get (hv.sound hr)

theorem reference_eq (hr : s.getVerifiedBlockHeader r = some h) : h.reference = r :=
  U.reference_eq (hv.sound hr)

theorem get_of_mem {h p : VerifiedBlockHeader} (hh : h ∈ U)
    (hp : s.getVerifiedBlockHeader h.reference = some p) : p = h :=
  Option.some.inj ((hv.sound hp).symm.trans hh)

theorem get_of_reaches {x : VerifiedBlockHeader}
    (hr : s.getVerifiedBlockHeader r = some h) (hx : U.Reaches h x) :
    s.getVerifiedBlockHeader x.reference = some x := by
  induction hx with
  | refl => rwa [hv.reference_eq hr]
  | tail _ hp ih =>
    obtain ⟨p,hg⟩ := hv.closed ih _ hp.2
    rw [hg,hv.get_of_mem hp.1 hg]

theorem complete (hr : s.getVerifiedBlockHeader r = some h) : U.Complete h := by
  intro x hx a ha
  obtain ⟨p,hp⟩ := hv.closed (hv.get_of_reaches hr hx) a ha
  exact ⟨p,hv.sound hp⟩

section Uncommitted

theorem mem_uncommittedAtSlot {slot : Slot} {h : VerifiedBlockHeader}
    (hl : s.lastCommitRound < slot.round) :
    h ∈ s.getUncommittedBlockHeadersAtSlot slot ↔
      s.getVerifiedBlockHeader h.reference = some h ∧ h.slot = slot := by
  simp only [getUncommittedBlockHeadersAtSlot,mem_map,mem_filter,Prod.exists,
    decide_eq_true_eq,ExtTreeMap.mem_toList_iff_getElem?_eq_some]
  constructor
  · rintro ⟨r,h',⟨hr,hs⟩,rfl⟩
    have he := hv.reference_eq (hv.recent hr)
    exact ⟨by rw [he]; exact hv.recent hr,by rw [← he] at hs; exact hs⟩
  rintro ⟨hg,hs⟩
  have hrn : h.reference.round = slot.round := congrArg Slot.round hs
  exact ⟨h.reference,h,⟨hv.cached hg (by omega),hs⟩,rfl⟩

theorem nodup_uncommittedAtSlot (slot : Slot) :
    (s.getUncommittedBlockHeadersAtSlot slot).Nodup := by
  have hd : (s.recentBlockHeaders.toList.filter fun p => p.1.slot = slot).Pairwise
      fun a b => ¬compare a.1 b.1 = .eq :=
    s.recentBlockHeaders.distinct_keys_toList.filter _
  refine pairwise_map.mpr (hd.imp_of_mem fun {a b} ha hb hne he => hne ?_)
  -- equal headers have equal references, which are the keys
  have hka := hv.reference_eq (hv.recent (ExtTreeMap.mem_toList_iff_getElem?_eq_some.mp
    (mem_filter.mp ha).1))
  have hkb := hv.reference_eq (hv.recent (ExtTreeMap.mem_toList_iff_getElem?_eq_some.mp
    (mem_filter.mp hb).1))
  rw [← hka,← hkb,he]
  exact Std.ReflOrd.compare_self

theorem uncommittedAtRound {round : Nat} (hl : s.lastCommitRound < round) :
    ∃ l, s.getUncommittedBlockHeadersAtRound round = .ok l ∧
      ∀ h, h ∈ l ↔ s.getVerifiedBlockHeader h.reference = some h ∧ h.round = round := by
  refine ⟨_,if_neg (Nat.not_le.mpr hl),fun h => ?_⟩
  simp only [mem_map,mem_filter,Prod.exists,decide_eq_true_eq,
    ExtTreeMap.mem_toList_iff_getElem?_eq_some]
  constructor
  · rintro ⟨r,h',⟨hr,hs⟩,rfl⟩
    have he := hv.reference_eq (hv.recent hr)
    exact ⟨by rw [he]; exact hv.recent hr,by rw [← he] at hs; exact hs⟩
  rintro ⟨hg,hs⟩
  have hrn : h.reference.round = round := hs
  exact ⟨h.reference,h,⟨hv.cached hg (by omega),hs⟩,rfl⟩

end Uncommitted
section AncestorsAtRound
variable {anchor : VerifiedBlockHeader} {earlier : Nat}

/-- What holds of the set of linked references at each turn of the loop: they are in the history of
the anchor, and lead to everything the anchor reaches at the earlier round. -/
structure Linked (U : Universe ctx) (s : DagState ctx) (anchor : VerifiedBlockHeader)
    (earlier : Nat) (linked : ExtTreeSet BlockRef) : Prop where
  reached : ∀ r ∈ linked, ∃ h, s.getVerifiedBlockHeader r = some h ∧ U.Reaches anchor h
  leads : ∀ x, U.Reaches anchor x → x.round = earlier →
    ∃ r ∈ linked, ∃ h, s.getVerifiedBlockHeader r = some h ∧ U.Reaches h x

theorem Linked.expand {linked : ExtTreeSet BlockRef} (hl : Linked U s anchor earlier linked)
    {r : BlockRef} {h : VerifiedBlockHeader} (hr : r ∈ linked)
    (hg : s.getVerifiedBlockHeader r = some h) (hrn : earlier < r.round) :
    Linked U s anchor earlier
      ((linked.erase r).insertMany (h.ancestors.filter fun a => earlier ≤ a.round)) := by
  obtain ⟨h',hg',hrc⟩ := hl.reached r hr
  obtain rfl : h = h' := Option.some.inj (hg.symm.trans hg')
  have hhr : h.round = r.round := congrArg BlockRef.round (hv.reference_eq hg)
  constructor
  · intro a ha
    rcases ExtTreeSet.mem_insertMany_list.mp ha with ha | ha
    · exact hl.reached a (ExtTreeSet.mem_of_mem_erase ha)
    rw [contains_iff_mem,mem_filter] at ha
    obtain ⟨p,hp⟩ := hv.closed hg a ha.1
    exact ⟨p,hp,hrc.tail ⟨hv.mem hp,by rw [hv.reference_eq hp]; exact ha.1⟩⟩
  intro x hx hxr
  obtain ⟨a,ha,p,hp,hpx⟩ := hl.leads x hx hxr
  by_cases har : r = a
  · subst har
    obtain rfl : h = p := Option.some.inj (hg.symm.trans hp)
    -- the popped header is above the earlier round, so its path to `x` has a first step
    rcases hpx.cases_head with rfl | ⟨q,hq,hqx⟩
    · omega
    obtain ⟨q',hq'⟩ := hv.closed hg _ hq.2
    obtain rfl := hv.get_of_mem hq.1 hq'
    have hqr : x.round ≤ q'.round := Reaches.round_le hqx hq.1
    refine ⟨q'.reference,ExtTreeSet.mem_insertMany_list.mpr (.inr ?_),q',hq',hqx⟩
    rw [contains_iff_mem,mem_filter]
    exact ⟨hq.2,by simpa [← hxr] using hqr⟩
  · refine ⟨a,ExtTreeSet.mem_insertMany_list.mpr (.inl ?_),p,hp,hpx⟩
    exact ExtTreeSet.mem_erase.mpr ⟨by simpa using har,ha⟩

/-- The loop ends within the number of references it can still meet, a set `rest` that shrinks with
each turn because the highest reference is replaced by lower ones. -/
theorem linkedAtRound_ok {linked : ExtTreeSet BlockRef} (hl : Linked U s anchor earlier linked)
    {fuel : Nat} {rest : Finset BlockRef} (hf : rest.card < fuel) (hs : ∀ r ∈ linked, r ∈ rest)
    (hd : ∀ r h, s.getVerifiedBlockHeader r = some h → ∀ a ∈ rest, r.round < a.round →
      r ∈ rest) :
    ∃ out, s.linkedAtRound earlier fuel linked = .ok out ∧ Linked U s anchor earlier out ∧
      ∀ r ∈ out, r.round ≤ earlier := by
  induction fuel generalizing linked rest with
  | zero => omega
  | succ fuel ih =>
    unfold linkedAtRound
    cases hm : linked.last? with
    | none =>
      have he := ExtTreeSet.last?_eq_none_iff.mp hm
      exact ⟨linked,rfl,hl,fun r hr => by simp [he] at hr⟩
    | some top =>
      obtain ⟨ht,hle⟩ := ExtTreeSet.last?_eq_some_iff.mp hm
      by_cases hrn : top.round ≤ earlier
      · refine ⟨linked,by simp only [hrn,if_true],hl,fun r hr => ?_⟩
        exact le_trans (BlockRef.round_le_of_isLE (hle r hr)) hrn
      obtain ⟨h,hg,-⟩ := hl.reached top ht
      simp only [hrn,if_false,hg]
      have hc : (rest.filter fun a => compare a top = .lt).card < fuel := by
        have hlt : (rest.filter fun a => compare a top = .lt).card < rest.card := by
          refine Finset.card_lt_card (Finset.filter_ssubset.mpr ⟨top,hs top ht,?_⟩)
          simp [Std.ReflOrd.compare_self]
        omega
      refine ih (Linked.expand hv hl ht hg (by omega)) hc ?_ ?_
      · intro a ha
        rcases ExtTreeSet.mem_insertMany_list.mp ha with ha | ha
        · obtain ⟨hne,ha⟩ := ExtTreeSet.mem_erase.mp ha
          have hlt := BlockRef.compare_lt_of_isLE_of_ne (hle a ha) (by rintro rfl; simp at hne)
          exact Finset.mem_filter.mpr ⟨hs a ha,hlt⟩
        rw [contains_iff_mem,mem_filter] at ha
        have hrn : a.round < top.round := by
          rw [← hv.reference_eq hg]
          exact ancestor_round_lt (hv.mem hg) ha.1
        obtain ⟨p,hp⟩ := hv.closed hg a ha.1
        exact Finset.mem_filter.mpr ⟨hd a p hp top (hs top ht) hrn,
          BlockRef.compare_lt_of_round_lt hrn⟩
      · intro a p hp b hb hab
        obtain ⟨hb,hlt⟩ := Finset.mem_filter.mp hb
        have hle : b.round ≤ top.round := BlockRef.round_le_of_isLE (by simp [hlt])
        exact Finset.mem_filter.mpr ⟨hd a p hp b hb hab,BlockRef.compare_lt_of_round_lt (by omega)⟩

omit hv in
theorem expectHeaders_map {refs : List BlockRef}
    (h : ∀ r ∈ refs, ∃ p, s.getVerifiedBlockHeader r = some p) :
    expectHeaders (s.getVerifiedBlockHeaders refs) =
      .ok (refs.filterMap s.getVerifiedBlockHeader) := by
  unfold getVerifiedBlockHeaders
  induction refs with
  | nil => rfl
  | cons r refs ih =>
    obtain ⟨p,hp⟩ := h r mem_cons_self
    have hr := ih fun a ha => h a (.tail _ ha)
    simp [expectHeaders,hp,hr,Except.map]

/-- The linked headers are in the history of the anchor, up to the earlier round, and all those of
the earlier round are among them. -/
theorem ancestorsAtRound_ok {r : BlockRef} (hr : s.getVerifiedBlockHeader r = some anchor)
    (hrn : earlier < anchor.round) :
    ∃ l, s.ancestorsAtRound anchor earlier = .ok l ∧
      (∀ c ∈ l, s.getVerifiedBlockHeader c.reference = some c ∧ U.Reaches anchor c ∧
        c.round ≤ earlier) ∧
      ∀ c, U.Reaches anchor c → c.round = earlier → c ∈ l := by
  have hl : Linked U s anchor earlier (.ofList anchor.ancestors) := by
    constructor
    · intro a ha
      rw [ExtTreeSet.mem_ofList,contains_iff_mem] at ha
      obtain ⟨p,hp⟩ := hv.closed hr a ha
      exact ⟨p,hp,.single ⟨hv.mem hp,by rwa [hv.reference_eq hp]⟩⟩
    intro x hx hxr
    rcases hx.cases_head with rfl | ⟨q,hq,hqx⟩
    · omega
    refine ⟨q.reference,?_,q,hv.get_of_reaches hr (.single hq),hqx⟩
    rw [ExtTreeSet.mem_ofList,contains_iff_mem]
    exact hq.2
  have hcd : s.heldRefs.toFinset.card < s.headerCount+1 := by
    have hle := s.heldRefs.toFinset_card_le
    rw [length_heldRefs] at hle
    omega
  obtain ⟨out,ho,hlt,hle⟩ := hv.linkedAtRound_ok hl hcd
    (fun a ha => by
      obtain ⟨p,hp,-⟩ := hl.reached a ha
      exact mem_toFinset.mpr (s.mem_heldRefs hp))
    (fun a p hp _ _ _ => mem_toFinset.mpr (s.mem_heldRefs hp))
  have hh : ∀ a ∈ out.toList, ∃ p, s.getVerifiedBlockHeader a = some p := by
    intro a ha
    obtain ⟨p,hp,-⟩ := hlt.reached a (ExtTreeSet.mem_toList.mp ha)
    exact ⟨p,hp⟩
  refine ⟨out.toList.filterMap s.getVerifiedBlockHeader,?_,?_,?_⟩
  · unfold ancestorsAtRound
    rw [ho]
    exact expectHeaders_map hh
  · intro c hc
    obtain ⟨a,ha,hac⟩ := mem_filterMap.mp hc
    obtain ⟨p,hp,hrc⟩ := hlt.reached a (ExtTreeSet.mem_toList.mp ha)
    obtain rfl : p = c := Option.some.inj (hp.symm.trans hac)
    have hca := hv.reference_eq hp
    refine ⟨by rw [hca]; exact hp,hrc,?_⟩
    have := hle a (ExtTreeSet.mem_toList.mp ha)
    rwa [← hca] at this
  intro c hc hcr
  obtain ⟨a,ha,p,hp,hpc⟩ := hlt.leads c hc hcr
  -- a linked header at or below the earlier round that reaches `c` is `c`
  have hpr : p.round ≤ earlier := by
    have := hle a ha
    rwa [← hv.reference_eq hp] at this
  have hcp : c.round ≤ p.round := Reaches.round_le hpc (hv.mem hp)
  obtain rfl := Reaches.eq_of_round_eq hpc (hv.mem hp) (by omega)
  exact mem_filterMap.mpr ⟨a,ExtTreeSet.mem_toList.mpr ha,hp⟩

end AncestorsAtRound
end View
end Iota.Starfish
