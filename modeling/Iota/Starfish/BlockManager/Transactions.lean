import Iota.Starfish.BlockManager.Suspender
import Iota.Starfish.DagState.Run

/-! Transactions wait only while their header is suspended; when it is accepted they are passed to
the DAG state. -/
namespace Iota.Starfish
open Except List
open Std (ExtTreeMap ExtTreeSet)
variable {ctx : Context} {headers : List VerifiedBlockHeader}

namespace DagState
variable {s s' : DagState ctx}

/-- No stored header is above the cached headers of its author: the lookup is not cut short. -/
def FullLookup (s : DagState ctx) : Prop :=
  ∀ r ∈ s.store.blockHeaders, ∃ k ∈ s.recentHeadersRefsByAuthority r.author, r.round ≤ k.round

theorem FullLookup.contains_iff (hx : FullLookup s) {r : BlockRef} :
    s.containsBlockHeader r = true ↔ r ∈ s.recentHeadersRefsByAuthority r.author ∨
      (∃ h ∈ ctx.genesisHeaders, h.reference = r) ∨ r ∈ s.store.blockHeaders := by
  have hg : (ctx.genesisHeaders.any fun h => h.reference = r) = true ↔
      ∃ h ∈ ctx.genesisHeaders, h.reference = r := by simp
  unfold containsBlockHeader
  dsimp only
  split
  · next hin =>
    rw [Bool.or_eq_true,hg,ExtTreeSet.contains_iff_mem] at hin
    exact iff_of_true rfl (or_assoc.mp (.inl hin))
  · next hn =>
    rw [Bool.or_eq_true,hg,ExtTreeSet.contains_iff_mem,not_or] at hn
    have hs : (r ∈ s.recentHeadersRefsByAuthority r.author ∨
        (∃ h ∈ ctx.genesisHeaders, h.reference = r) ∨ r ∈ s.store.blockHeaders) ↔
          r ∈ s.store.blockHeaders := by
      constructor
      · rintro (h | h | h)
        · exact absurd h hn.1
        · exact absurd h hn.2
        · exact h
      · exact fun h => .inr (.inr h)
    rw [hs]
    cases hl : (s.recentHeadersRefsByAuthority r.author).last? with
    | none =>
      refine iff_of_false Bool.false_ne_true fun hr => ?_
      obtain ⟨k,hk,-⟩ := hx r hr
      rw [ExtTreeSet.last?_eq_none_iff.mp hl] at hk
      simp at hk
    | some last =>
      dsimp only
      split
      · next hlt =>
        refine iff_of_false Bool.false_ne_true fun hr => ?_
        obtain ⟨k,hk,hle⟩ := hx r hr
        have hkl := BlockRef.round_le_of_isLE ((ExtTreeSet.last?_eq_some_iff.mp hl).2 k hk)
        omega
      · exact ExtTreeMap.contains_iff_mem

theorem contains_congr (h : s'.headerPart = s.headerPart) (r : BlockRef) :
    s'.containsBlockHeader r = s.containsBlockHeader r := by
  have hr : s'.recentHeadersRefsByAuthority = s.recentHeadersRefsByAuthority :=
    congrArg HeaderPart.refs h
  have hs : s'.store = s.store := congrArg (fun p => p.store) h
  unfold containsBlockHeader
  rw [hr,hs]

theorem FullLookup.congr (hx : FullLookup s) (h : s'.headerPart = s.headerPart) : FullLookup s' := by
  have hr : s'.recentHeadersRefsByAuthority = s.recentHeadersRefsByAuthority :=
    congrArg HeaderPart.refs h
  have hs : s'.store = s.store := congrArg (fun p => p.store) h
  unfold FullLookup
  rw [hr,hs]
  exact hx

theorem FullLookup.acceptBlockHeader (hx : FullLookup s) {h : VerifiedBlockHeader}
    (hs : s.acceptBlockHeader h = .ok s') :
    FullLookup s' ∧ ∀ r, s'.containsBlockHeader r = true ↔
      s.containsBlockHeader r = true ∨ r = h.reference := by
  unfold DagState.acceptBlockHeader at hs
  split at hs
  · cases hs
  split at hs
  · next hin =>
    cases hs
    refine ⟨hx,fun r => ⟨.inl,?_⟩⟩
    rintro (hr | rfl)
    · exact hr
    · exact hin
  split at hs
  · cases hs
  cases hs
  have hrf : ∀ (a : Nat) (r : BlockRef),
      r ∈ (s.updateBlockHeaderMetadata h).recentHeadersRefsByAuthority a ↔
        r ∈ s.recentHeadersRefsByAuthority a ∨ a = h.author ∧ r = h.reference := by
    intro a r
    unfold updateBlockHeaderMetadata
    by_cases ha : a = h.author
    · subst ha
      simp [ExtTreeSet.mem_insert,or_comm,eq_comm (a := r)]
    · simp [Function.update_of_ne,ha]
  have hx' : FullLookup { s.updateBlockHeaderMetadata h with
      blockHeadersToWrite := s.blockHeadersToWrite ++ [h] } := by
    intro r hr
    obtain ⟨k,hk,hle⟩ := hx r hr
    exact ⟨k,(hrf _ k).mpr (.inl hk),hle⟩
  refine ⟨hx',fun r => hx'.contains_iff.trans ?_⟩
  rw [hx.contains_iff]
  rw [hrf]
  have hat : r.author = h.author ∧ r = h.reference ↔ r = h.reference :=
    ⟨And.right,fun hr => ⟨by rw [hr]; rfl,hr⟩⟩
  rw [hat]
  exact or_right_comm

theorem FullLookup.foldlM_acceptBlockHeader (hx : FullLookup s)
    (hs : headers.foldlM DagState.acceptBlockHeader s = .ok s') :
    FullLookup s' ∧ ∀ r, s'.containsBlockHeader r = true ↔
      s.containsBlockHeader r = true ∨ r ∈ headers.map (·.reference) := by
  induction headers generalizing s with
  | nil =>
    cases hs
    exact ⟨hx,by simp⟩
  | cons h rest ih =>
    obtain ⟨s1,h1,hs⟩ := of_bind hs
    obtain ⟨hx1,hm1⟩ := hx.acceptBlockHeader h1
    obtain ⟨hx2,hm2⟩ := ih hx1 hs
    refine ⟨hx2,fun r => ?_⟩
    rw [hm2,hm1,map_cons,mem_cons,or_assoc]

theorem headerPart_foldl_addTransactions (source : DataSource) (ts : List VerifiedTransactions) :
    (ts.foldl (fun dag t => dag.addTransactions t source) s).headerPart = s.headerPart := by
  induction ts generalizing s with
  | nil => rfl
  | cons t ts ih => exact ih.trans (s.headerPart_addTransactions t source)

end DagState

theorem BlockManager.write_contains {dag dag' : DagState ctx} (hx : dag.FullLookup)
    {ts : List VerifiedTransactions} {source : DataSource}
    (h : writeBlockHeadersAndTransactionsToDagState dag headers ts source = .ok dag') :
    dag'.FullLookup ∧ ∀ r, dag'.containsBlockHeader r = true ↔
      dag.containsBlockHeader r = true ∨ r ∈ headers.map (·.reference) := by
  obtain ⟨dag1,h1,h2⟩ := of_bind h
  cases h2
  obtain ⟨hx1,hm⟩ := hx.foldlM_acceptBlockHeader h1
  have hp := DagState.headerPart_foldl_addTransactions (s := dag1) source ts
  refine ⟨hx1.congr hp,fun r => ?_⟩
  rw [DagState.contains_congr hp,hm]

namespace BlockManager

def passes (r : BlockRef) (ts : List VerifiedTransactions) : Nat :=
  ts.countP fun t => t.blockRef = some r

variable {txOf : BlockRef → VerifiedTransactions} {m : BlockManager}

/-- The transactions of each block: what is suspended under a reference belongs to it. -/
def Keyed (txOf : BlockRef → VerifiedTransactions)
    (suspended : ExtTreeMap BlockRef VerifiedTransactions) : Prop :=
  ∀ (r : BlockRef) t, suspended[r]? = some t → t = txOf r

theorem foldl_releaseTransactions {rs : List BlockRef} (hn : rs.Nodup)
    (ts : List VerifiedTransactions) :
    (rs.foldl releaseTransactions (ts,m)) =
      (ts ++ rs.filterMap (fun r => m.suspendedTransactions[r]?),{ m with
        suspendedTransactions := rs.foldl (fun t r => t.erase r) m.suspendedTransactions }) := by
  induction rs generalizing ts m with
  | nil => simp
  | cons r rs ih =>
    obtain ⟨hr,hn⟩ := nodup_cons.mp hn
    rw [foldl_cons]
    cases hg : m.suspendedTransactions[r]? with
    | none =>
      have hs : releaseTransactions (ts,m) r = (ts,m) := by simp only [releaseTransactions,hg]
      have her : m.suspendedTransactions.erase r = m.suspendedTransactions := by
        apply ExtTreeMap.ext_getElem?
        intro x
        rw [ExtTreeMap.getElem?_erase_eq]
        split
        · next hx => rw [← hx,hg]
        · rfl
      rw [hs,ih hn,filterMap_cons_none hg,foldl_cons,her]
    | some t =>
      have hs : releaseTransactions (ts,m) r = (ts ++ [t],{ m with
          suspendedTransactions := m.suspendedTransactions.erase r }) := by
        simp only [releaseTransactions,hg]
      have hsm : rs.filterMap (fun x => (m.suspendedTransactions.erase r)[x]?) =
          rs.filterMap fun x => m.suspendedTransactions[x]? := by
        refine filterMap_congr fun x hx => ?_
        have hne : r ≠ x := fun he => hr (he ▸ hx)
        rw [ExtTreeMap.getElem?_erase_eq,if_neg hne]
      rw [hs,ih hn,filterMap_cons_some hg,foldl_cons,hsm,append_assoc]
      rfl

/-- The header of a block is accepted now or was in the DAG. -/
def inDag (accepted present : ExtTreeSet BlockRef) (b : VerifiedBlock) : Bool :=
  accepted.contains b.reference || present.contains b.reference

theorem foldl_receiveTransactions (accepted present : ExtTreeSet BlockRef)
    (blocks : List VerifiedBlock) (acc : List VerifiedTransactions × BlockManager) :
    (blocks.foldl (receiveTransactions accepted present) acc) =
      (acc.1 ++ (blocks.filter (inDag accepted present)).map (·.verifiedTransactions),{ acc.2 with
        suspendedTransactions := (blocks.filter fun b => !inDag accepted present b &&
            b.verifiedTransactions.hasTransactions).foldl
          (fun m b => m.insert b.reference b.verifiedTransactions)
          acc.2.suspendedTransactions }) := by
  induction blocks generalizing acc with
  | nil => simp
  | cons b blocks ih =>
    have hs : receiveTransactions accepted present acc b =
        if inDag accepted present b then (acc.1 ++ [b.verifiedTransactions],acc.2)
        else if b.verifiedTransactions.hasTransactions then (acc.1,{ acc.2 with
          suspendedTransactions :=
            acc.2.suspendedTransactions.insert b.reference b.verifiedTransactions })
        else acc := rfl
    rw [foldl_cons,ih,hs]
    cases hin : inDag accepted present b with
    | true => simp [hin]
    | false =>
      cases htx : b.verifiedTransactions.hasTransactions with
      | true => simp [hin,htx]
      | false => simp [hin,htx]

section
variable {accepted : List VerifiedBlockHeader} {present : ExtTreeSet BlockRef}
  {blocks : Option (List VerifiedBlock)}

theorem resolveTransactions_eq (m : BlockManager) (accepted : List VerifiedBlockHeader)
    (present : ExtTreeSet BlockRef) (blocks : Option (List VerifiedBlock)) :
    m.resolveTransactions accepted present blocks =
      ((ExtTreeSet.ofList (accepted.map (·.reference))).toList.filterMap
          (fun r => m.suspendedTransactions[r]?) ++
        ((blocks.getD []).filter (inDag (.ofList (accepted.map (·.reference))) present)).map
          (·.verifiedTransactions),{ m with
        suspendedTransactions := ((blocks.getD []).filter fun b =>
            !inDag (.ofList (accepted.map (·.reference))) present b &&
              b.verifiedTransactions.hasTransactions).foldl
          (fun m b => m.insert b.reference b.verifiedTransactions)
          ((ExtTreeSet.ofList (accepted.map (·.reference))).toList.foldl (fun t r => t.erase r)
            m.suspendedTransactions) }) := by
  have hn : (ExtTreeSet.ofList (accepted.map (·.reference))).toList.Nodup :=
    ExtTreeSet.distinct_toList.imp fun hne he => hne (by rw [he]; simp)
  unfold resolveTransactions
  dsimp only
  rw [foldl_releaseTransactions hn]
  cases blocks with
  | none => simp
  | some bs =>
    dsimp only
    rw [foldl_receiveTransactions]
    rfl

theorem inDag_iff {b : VerifiedBlock} :
    inDag (.ofList (accepted.map (·.reference))) present b = true ↔
      b.reference ∈ accepted.map (·.reference) ∨ b.reference ∈ present := by
  simp [inDag]

theorem resolveTransactions_blockSuspender :
    (m.resolveTransactions accepted present blocks).2.blockSuspender = m.blockSuspender := by
  rw [resolveTransactions_eq]

/-- What is suspended after a call: what was, unless its header is accepted, and what is given for
headers that are not in the DAG. -/
theorem mem_resolveTransactions {r : BlockRef} :
    r ∈ (m.resolveTransactions accepted present blocks).2.suspendedTransactions ↔
      r ∉ accepted.map (·.reference) ∧ (r ∈ m.suspendedTransactions ∨ r ∉ present ∧
        ∃ b ∈ blocks.getD [], b.reference = r ∧
          b.verifiedTransactions.hasTransactions = true) := by
  have hf : ((((blocks.getD []).filter fun b =>
      !inDag (.ofList (accepted.map (·.reference))) present b &&
        b.verifiedTransactions.hasTransactions).reverse.find?
          fun b => b.reference = r).isSome = true) ↔
      r ∉ accepted.map (·.reference) ∧ r ∉ present ∧ ∃ b ∈ blocks.getD [], b.reference = r ∧
        b.verifiedTransactions.hasTransactions = true := by
    rw [List.find?_isSome]
    simp only [mem_reverse,mem_filter,Bool.and_eq_true,Bool.not_eq_true',
      ← Bool.not_eq_true,inDag_iff,not_or,decide_eq_true_eq]
    constructor
    · rintro ⟨b,⟨hb,⟨ha,hp⟩,htx⟩,rfl⟩
      exact ⟨ha,hp,b,hb,rfl,htx⟩
    · rintro ⟨ha,hp,b,hb,rfl,htx⟩
      exact ⟨b,⟨hb,⟨ha,hp⟩,htx⟩,rfl⟩
  rw [resolveTransactions_eq,ExtTreeMap.mem_iff_isSome_getElem?,
    ExtTreeMap.getElem?_foldl_insert (fun b : VerifiedBlock => b.reference)
      (fun b : VerifiedBlock => b.verifiedTransactions),ExtTreeMap.getElem?_foldl_erase,
    Option.isSome_or,Bool.or_eq_true,Option.isSome_map,hf]
  have hl : r ∈ (ExtTreeSet.ofList (accepted.map (·.reference))).toList ↔
      r ∈ accepted.map (·.reference) := by
    rw [ExtTreeSet.mem_toList,ExtTreeSet.mem_ofList,contains_iff_mem]
  by_cases ha : r ∈ accepted.map (·.reference)
  · rw [if_pos (hl.mpr ha)]
    simp [ha]
  rw [if_neg fun hin => ha (hl.mp hin),← ExtTreeMap.mem_iff_isSome_getElem?]
  simp only [ha,not_false_eq_true,true_and]
  exact or_comm

theorem Keyed.resolveTransactions (hkeyed : Keyed txOf m.suspendedTransactions)
    (hblocks : ∀ b ∈ blocks.getD [], b.verifiedTransactions = txOf b.reference) :
    Keyed txOf (m.resolveTransactions accepted present blocks).2.suspendedTransactions := by
  intro r t ht
  rw [resolveTransactions_eq,
    ExtTreeMap.getElem?_foldl_insert (fun b : VerifiedBlock => b.reference)
      (fun b : VerifiedBlock => b.verifiedTransactions),ExtTreeMap.getElem?_foldl_erase,
    Option.or_eq_some_iff] at ht
  obtain hg | ⟨-,ho⟩ := ht
  · obtain ⟨b,hb,rfl⟩ := Option.map_eq_some_iff.mp hg
    have hr : b.reference = r := by simpa using List.find?_some hb
    have hm := mem_filter.mp (mem_reverse.mp (mem_of_find?_eq_some hb))
    rw [hblocks b hm.1,hr]
  split at ho
  · cases ho
  · exact hkeyed r t ho

theorem passes_append (r : BlockRef) (ts ts' : List VerifiedTransactions) :
    passes r (ts ++ ts') = passes r ts + passes r ts' := countP_append

variable (htx : ∀ r, (txOf r).blockRef = some r)
include htx

theorem passes_blocks {bs : List VerifiedBlock}
    (hblocks : ∀ b ∈ bs, b.verifiedTransactions = txOf b.reference) (r : BlockRef) :
    passes r (bs.map (·.verifiedTransactions)) = bs.countP fun b => b.reference = r := by
  unfold passes
  rw [countP_map]
  refine countP_congr fun b hb => ?_
  simp [hblocks b hb,htx]

section
variable (hkeyed : Keyed txOf m.suspendedTransactions)

include hkeyed

theorem passes_released {rs : List BlockRef} (hn : rs.Nodup) (r : BlockRef) :
    passes r (rs.filterMap fun r => m.suspendedTransactions[r]?) =
      if r ∈ rs ∧ r ∈ m.suspendedTransactions then 1 else 0 := by
  induction rs with
  | nil => rfl
  | cons x rs ih =>
    obtain ⟨hx,hn⟩ := nodup_cons.mp hn
    cases hg : m.suspendedTransactions[x]? with
    | none =>
      have hnt : x ∉ m.suspendedTransactions := by
        rw [ExtTreeMap.mem_iff_isSome_getElem?,hg]
        simp
      rw [filterMap_cons_none hg,ih hn]
      by_cases hr : r = x
      · simp [hr,hnt]
      · simp [hr]
    | some t =>
      have hm : x ∈ m.suspendedTransactions := by
        rw [ExtTreeMap.mem_iff_isSome_getElem?,hg]
        rfl
      have hk : (decide (t.blockRef = some r)) = decide (x = r) := by
        rw [hkeyed x t hg,htx]
        simp
      have hc : passes r (t :: rs.filterMap fun r => m.suspendedTransactions[r]?) =
          passes r (rs.filterMap fun r => m.suspendedTransactions[r]?) +
            if decide (t.blockRef = some r) = true then 1 else 0 := countP_cons
      rw [filterMap_cons_some hg,hc,ih hn,hk]
      by_cases hr : r = x
      · simp [hr,hx,hm]
      · simp [hr,eq_comm]

section
variable (hblocks : ∀ b ∈ blocks.getD [], b.verifiedTransactions = txOf b.reference)

include hblocks

theorem passes_resolveTransactions (r : BlockRef) :
    passes r (m.resolveTransactions accepted present blocks).1 =
      (if r ∈ accepted.map (·.reference) ∧ r ∈ m.suspendedTransactions then 1 else 0) +
        ((blocks.getD []).filter (inDag (.ofList (accepted.map (·.reference))) present)).countP
          fun b => b.reference = r := by
  have hn : (ExtTreeSet.ofList (accepted.map (·.reference))).toList.Nodup :=
    ExtTreeSet.distinct_toList.imp fun hne he => hne (by rw [he]; simp)
  rw [resolveTransactions_eq,passes_append,passes_released htx hkeyed hn,
    passes_blocks htx fun b hb => hblocks b (mem_filter.mp hb).1]
  simp only [ExtTreeSet.mem_toList,ExtTreeSet.mem_ofList,contains_iff_mem]

theorem passes_resolveTransactions_le (r : BlockRef) :
    passes r (m.resolveTransactions accepted present blocks).1 +
        (if r ∈ (m.resolveTransactions accepted present blocks).2.suspendedTransactions then 1
          else 0) ≤
      (if r ∈ m.suspendedTransactions then 1 else 0) +
        (blocks.getD []).countP fun b => b.reference = r := by
  rw [passes_resolveTransactions htx hkeyed hblocks]
  have hle : ((blocks.getD []).filter
      (inDag (.ofList (accepted.map (·.reference))) present)).countP (fun b => b.reference = r) ≤
        (blocks.getD []).countP fun b => b.reference = r := filter_sublist.countP_le
  by_cases ha : r ∈ accepted.map (·.reference)
  · have hn : r ∉ (m.resolveTransactions accepted present blocks).2.suspendedTransactions :=
      fun hr => (mem_resolveTransactions.mp hr).1 ha
    rw [if_neg hn]
    simp only [ha,true_and]
    omega
  rw [if_neg fun h => ha h.1]
  by_cases hin : r ∈ (m.resolveTransactions accepted present blocks).2.suspendedTransactions
  · rw [if_pos hin]
    obtain ho | ⟨hp,b,hb,rfl,-⟩ := (mem_resolveTransactions.mp hin).2
    · rw [if_pos ho]
      omega
    -- its header is not in the DAG: nothing is passed on
    have hz : ((blocks.getD []).filter
        (inDag (.ofList (accepted.map (·.reference))) present)).countP
          (fun c => c.reference = b.reference) = 0 := by
      rw [countP_eq_zero]
      intro c hc hr
      obtain ⟨-,hd⟩ := mem_filter.mp hc
      rw [inDag_iff,of_decide_eq_true hr] at hd
      exact hd.elim ha hp
    have hps : 0 < (blocks.getD []).countP fun c => c.reference = b.reference :=
      countP_pos_iff.mpr ⟨b,hb,by simp⟩
    omega
  · rw [if_neg hin]
    omega

theorem passes_resolveTransactions_pos {r : BlockRef}
    (h : r ∈ m.suspendedTransactions ∧ r ∈ accepted.map (·.reference) ∨
      ∃ b ∈ blocks.getD [], b.reference = r ∧
        (r ∈ accepted.map (·.reference) ∨ r ∈ present)) :
    1 ≤ passes r (m.resolveTransactions accepted present blocks).1 := by
  rw [passes_resolveTransactions htx hkeyed hblocks]
  obtain ⟨hs,ha⟩ | ⟨b,hb,rfl,hd⟩ := h
  · rw [if_pos ⟨ha,hs⟩]
    exact Nat.le_add_right _ _
  · refine Nat.le_add_left_of_le (countP_pos_iff.mpr ⟨b,?_,by simp⟩)
    exact mem_filter.mpr ⟨hb,inDag_iff.mpr hd⟩

end
end
end

/-- A block manager with its DAG state, the blocks it was given and the transactions it passed
on. -/
structure Session (ctx : Context) where
  manager : BlockManager
  dag : DagState ctx
  given : List VerifiedBlock
  passed : List VerifiedTransactions

/-- A call of the block manager, or a change of the DAG state by others. -/
inductive Event (ctx : Context)
  | deliver (order : HashOrder VerifiedBlockHeader) (delivery : Delivery) (source : DataSource)
  | dagChanged (dag : DagState ctx)

namespace Session

def Initial (st : Session ctx) : Prop :=
  st.manager = .new ∧ st.dag.FullLookup ∧ st.given = [] ∧ st.passed = []

def step (st : Session ctx) : Event ctx → Except BlockManagerPanic (Session ctx)
  | .deliver order delivery source => do
    let (outcome,dag) ← st.manager.tryAccept st.dag order delivery source
    return ⟨outcome.manager,dag,st.given ++ delivery.blocksOf.getD [],
      st.passed ++ outcome.acceptedTransactions⟩
  | .dagChanged dag => .ok { st with dag }

/-- Headers and transactions are those of their references, and others neither add nor remove
headers. -/
def Allowed (U : Universe ctx) (txOf : BlockRef → VerifiedTransactions) (st : Session ctx) :
    Event ctx → Prop
  | .deliver _ delivery _ => (∀ h ∈ delivery.headersOf, h ∈ U) ∧
      ∀ b ∈ delivery.blocksOf.getD [], b.verifiedTransactions = txOf b.reference
  | .dagChanged dag => dag.FullLookup ∧
      ∀ r, dag.containsBlockHeader r = st.dag.containsBlockHeader r

/-- Suspended headers are not in the DAG, transactions wait for suspended headers only, and what was
given has been passed on or waits. -/
structure Kept (txOf : BlockRef → VerifiedTransactions) (st : Session ctx) : Prop where
  linked : st.manager.blockSuspender.Linked
  lookup : st.dag.FullLookup
  suspended : ∀ r ∈ st.manager.blockSuspender.suspendedHeaders,
    st.dag.containsBlockHeader r = false
  waiting : ∀ r ∈ st.manager.suspendedTransactions,
    r ∈ st.manager.blockSuspender.suspendedHeaders
  keyed : Keyed txOf st.manager.suspendedTransactions
  passed : ∀ b ∈ st.given, b.verifiedTransactions.hasTransactions = true →
    b.reference ∈ st.manager.suspendedTransactions ∨ 1 ≤ passes b.reference st.passed
  count : ∀ r, passes r st.passed +
      (if r ∈ st.manager.suspendedTransactions then 1 else 0) ≤
    st.given.countP fun b => b.reference = r

variable {st : Session ctx}

theorem Kept.initial (h : Initial st) : Kept txOf st := by
  obtain ⟨hm,hx,hg,hp⟩ := h
  have htx : ∀ r, r ∉ st.manager.suspendedTransactions := by
    intro r
    rw [hm]
    simp [BlockManager.new]
  refine ⟨?_,hx,?_,fun r hr => absurd hr (htx r),?_,?_,?_⟩
  · rw [hm]
    exact .new
  · intro r hr
    rw [hm] at hr
    simp [BlockManager.new,BlockSuspender.new] at hr
  · intro r t ht
    rw [hm] at ht
    simp [BlockManager.new] at ht
  · rw [hg]
    exact forall_mem_nil _
  intro r
  rw [hg,hp,if_neg (htx r)]
  simp [passes]

theorem mem_present {dag : DagState ctx} {x : VerifiedBlockHeader} (hx : x ∈ headers) :
    x.reference ∈ presentHeaderAndAncestorRefsInDagState dag headers ↔
      dag.containsBlockHeader x.reference = true := by
  unfold presentHeaderAndAncestorRefsInDagState
  rw [ExtTreeSet.mem_ofList,contains_iff_mem,mem_filter,mem_flatMap]
  exact and_iff_right ⟨x,hx,mem_cons_self⟩

theorem mem_filterOut {dag : DagState ctx} {x : VerifiedBlockHeader} :
    x ∈ m.filterOutAlreadyProcessedAndSort headers
        (presentHeaderAndAncestorRefsInDagState dag headers) ↔
      x ∈ headers ∧ dag.containsBlockHeader x.reference = false ∧
        x.reference ∉ m.blockSuspender.suspendedHeaders := by
  unfold filterOutAlreadyProcessedAndSort
  rw [mem_mergeSort,mem_filter]
  refine and_congr_right fun hx => ?_
  have hs : m.blockSuspender.isBlockRefSuspended x.reference = false ↔
      x.reference ∉ m.blockSuspender.suspendedHeaders := by
    rw [BlockSuspender.isBlockRefSuspended,← Bool.not_eq_true,ExtTreeMap.contains_iff_mem]
  rw [Bool.not_eq_true',Bool.or_eq_false_iff,hs,← Bool.not_eq_true,
    ExtTreeSet.contains_iff_mem,mem_present hx,Bool.not_eq_true]

variable {U : Universe ctx}

theorem exists_processBlockHeaders (hl : m.blockSuspender.Linked)
    (dag : DagState ctx) (order : HashOrder VerifiedBlockHeader) (hU : ∀ x ∈ headers, x ∈ U) :
    ∃ accepted toFetch s', m.processBlockHeaders order headers
        (presentHeaderAndAncestorRefsInDagState dag headers) =
          .ok (accepted,toFetch,{ m with blockSuspender := s' }) ∧ s'.Linked ∧
      (∀ r, (r ∈ m.blockSuspender.suspendedHeaders ∨
          ∃ x ∈ headers, x.reference = r ∧ dag.containsBlockHeader r = false) ↔
        r ∈ s'.suspendedHeaders ∨ r ∈ accepted.map (·.reference)) ∧
      ∀ x ∈ accepted, x.reference ∉ s'.suspendedHeaders := by
  set present := presentHeaderAndAncestorRefsInDagState dag headers with hp
  set new := m.filterOutAlreadyProcessedAndSort headers present with hnw
  have hen : ∀ e ∈ findMissingAncestors order new present, e.1 ∈ new := by
    intro e he
    obtain ⟨x,hx,rfl⟩ := mem_map.mp he
    exact mem_toFinset.mp ((order.mem_iter _ _).mp hx)
  have hrf : (findMissingAncestors order new present).map (fun e => e.1.reference) =
      (order.iter new.toFinset).map (·.reference) := by
    rw [findMissingAncestors,map_map]
    rfl
  have hnd : ((findMissingAncestors order new present).map fun e => e.1.reference).Nodup := by
    rw [hrf]
    refine (order.nodup_iter _).map_on fun x hx y hy hxy => ?_
    have hm : ∀ z ∈ order.iter new.toFinset, z ∈ U := fun z hz =>
      hU z (mem_filterOut.mp (mem_toFinset.mp ((order.mem_iter _ _).mp hz))).1
    exact Universe.eq_of_reference_eq (hm x hx) (hm y hy) hxy
  obtain ⟨accepted,toFetch,s',hs',hl',hm,hd⟩ :=
    BlockSuspender.exists_acceptOrSuspend hl hnd fun e he =>
      (mem_filterOut.mp (hen e he)).2.2
  refine ⟨accepted,toFetch,s',?_,hl',fun r => ?_,hd⟩
  · unfold processBlockHeaders
    dsimp only
    rw [← hnw,hs']
    rfl
  rw [← hm]
  constructor
  · rintro (hr | ⟨x,hx,rfl,hn⟩)
    · exact .inl hr
    by_cases hs : x.reference ∈ m.blockSuspender.suspendedHeaders
    · exact .inl hs
    have hx' : x ∈ order.iter new.toFinset := by
      rw [order.mem_iter,mem_toFinset,hnw,hp,mem_filterOut]
      exact ⟨hx,hn,hs⟩
    exact .inr ⟨_,mem_map_of_mem hx',rfl⟩
  rintro (hr | ⟨e,he,rfl⟩)
  · exact .inl hr
  · obtain ⟨hx,hn,-⟩ := mem_filterOut.mp (hen e he)
    exact .inr ⟨e.1,hx,rfl,hn⟩

theorem Kept.deliver (htx : ∀ r, (txOf r).blockRef = some r)
    (h : Kept txOf st) {order : HashOrder VerifiedBlockHeader}
    {delivery : Delivery} {source : DataSource}
    (ha : Allowed U txOf st (.deliver order delivery source)) :
    (st.step (.deliver order delivery source)).Satisfies (fun e => ∃ p, e = .dagState p)
      (Kept txOf) := by
  obtain ⟨hU,hblocks⟩ := ha
  obtain ⟨accepted,toFetch,s',hs',hl',hm,hds⟩ := exists_processBlockHeaders h.linked st.dag order hU
  set present := presentHeaderAndAncestorRefsInDagState st.dag delivery.headersOf with hpr
  set m1 : BlockManager := { st.manager with blockSuspender := s' } with hm1
  have hrs : st.manager.resolve st.dag order delivery.headersOf delivery.blocksOf =
      .ok ⟨accepted,toFetch,(m1.resolveTransactions accepted present delivery.blocksOf).1,
        (m1.resolveTransactions accepted present delivery.blocksOf).2⟩ := by
    unfold resolve
    dsimp only
    rw [← hpr,hs']
    rfl
  unfold step tryAccept
  dsimp only
  rw [hrs,ok_bind]
  cases hwr : writeBlockHeadersAndTransactionsToDagState st.dag accepted
      (m1.resolveTransactions accepted present delivery.blocksOf).1 source with
  | error p => exact ⟨p,rfl⟩
  | ok dag' =>
    obtain ⟨hx',hcn⟩ := write_contains h.lookup hwr
    have hkeyed : Keyed txOf m1.suspendedTransactions := h.keyed
    have hss : (m1.resolveTransactions accepted present delivery.blocksOf).2.blockSuspender =
        s' := resolveTransactions_blockSuspender
    -- a block that is not in the DAG has its header among those that are suspended or accepted
    have hhd : ∀ b ∈ delivery.blocksOf.getD [], b.verifiedBlockHeader ∈ delivery.headersOf := by
      cases delivery with
      | blocks bs => exact fun b => mem_map_of_mem
      | headers hs => exact forall_mem_nil _
    have hp' : ∀ b ∈ delivery.blocksOf.getD [], b.reference ∈ present ↔
        st.dag.containsBlockHeader b.reference = true := fun b hb => mem_present (hhd b hb)
    refine ⟨?_,hx',?_,?_,hkeyed.resolveTransactions hblocks,?_,?_⟩
    · dsimp only
      rw [hss]
      exact hl'
    · dsimp only
      intro r hr
      rw [hss] at hr
      rw [← Bool.not_eq_true,hcn,not_or,Bool.not_eq_true]
      refine ⟨?_,fun hac => ?_⟩
      · obtain ho | ⟨x,hx,rfl,hn⟩ := (hm r).mpr (.inl hr)
        · exact h.suspended r ho
        · exact hn
      · obtain ⟨x,hx,rfl⟩ := mem_map.mp hac
        exact hds x hx hr
    · dsimp only
      intro r hr
      rw [hss]
      obtain ⟨hac,hr⟩ := mem_resolveTransactions.mp hr
      have hc : r ∈ st.manager.blockSuspender.suspendedHeaders ∨
          ∃ x ∈ delivery.headersOf, x.reference = r ∧ st.dag.containsBlockHeader r = false := by
        obtain ho | ⟨hp,b,hb,rfl,-⟩ := hr
        · exact .inl (h.waiting r ho)
        · rw [hp' b hb,Bool.not_eq_true] at hp
          exact .inr ⟨_,hhd b hb,rfl,hp⟩
      exact ((hm r).mp hc).resolve_right hac
    · dsimp only
      intro b hb hh
      rw [passes_append]
      obtain hb | hb := mem_append.mp hb
      · obtain hw | hps := h.passed b hb hh
        · by_cases hac : b.reference ∈ accepted.map (·.reference)
          · exact .inr (Nat.le_add_left_of_le
              (passes_resolveTransactions_pos htx hkeyed hblocks (.inl ⟨hw,hac⟩)))
          · exact .inl (mem_resolveTransactions.mpr ⟨hac,.inl hw⟩)
        · exact .inr (Nat.le_add_right_of_le hps)
      by_cases hd : b.reference ∈ accepted.map (·.reference) ∨ b.reference ∈ present
      · exact .inr (Nat.le_add_left_of_le
          (passes_resolveTransactions_pos htx hkeyed hblocks (.inr ⟨b,hb,rfl,hd⟩)))
      · rw [not_or] at hd
        exact .inl (mem_resolveTransactions.mpr ⟨hd.1,.inr ⟨hd.2,b,hb,rfl,hh⟩⟩)
    · dsimp only
      intro r
      have ho := h.count r
      have hnw : passes r (m1.resolveTransactions accepted present delivery.blocksOf).1 + _ ≤ _ :=
        passes_resolveTransactions_le htx hkeyed hblocks r
      have hsm : (if r ∈ m1.suspendedTransactions then 1 else 0) =
        if r ∈ st.manager.suspendedTransactions then 1 else 0 := rfl
      rw [passes_append,countP_append]
      omega

open BlockVerifier (soleContext)

end Session
end BlockManager
end Iota.Starfish
