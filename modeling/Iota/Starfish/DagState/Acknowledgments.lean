import Iota.Lib.Run
import Iota.Starfish.BlockVerifier
import Iota.Starfish.DagState.Write

/-! `take_acknowledgments` splits the pending set at the last reference it returns. The split keeps
that reference, so it is pending although it was taken. -/
namespace Iota.Starfish
open Except List BlockVerifier
open Std (ExtTreeSet)
variable {ctx : Context}

namespace DagState
variable {s : DagState ctx}

def minAckRound (s : DagState ctx) : Nat := s.thresholdClockRound - ctx.protocolConfig.gcDepth

theorem mem_evictPendingAcknowledgments {r : BlockRef} :
    r ∈ s.evictPendingAcknowledgments.pendingAcknowledgments ↔
      r ∈ s.pendingAcknowledgments ∧ s.minAckRound ≤ r.round := by
  rw [evictPendingAcknowledgments,ExtTreeSet.mem_splitOff]
  exact and_congr_right fun _ => BlockRef.isLE_compare_mk_zero _ r (Nat.zero_le _)

structure Takes (s : DagState ctx) (limit : Nat) (taken : List BlockRef) (s' : DagState ctx) :
    Prop where
  length_le : taken.length ≤ limit
  increasing : taken.Pairwise fun a b => compare a b = .lt
  pending : ∀ r ∈ taken, r ∈ s.pendingAcknowledgments ∧ s.minAckRound ≤ r.round
  left : ∀ r, r ∈ s'.pendingAcknowledgments ↔ r ∈ s.pendingAcknowledgments ∧
    s.minAckRound ≤ r.round ∧ (r ∉ taken ∨ taken.getLast? = some r)
  before : ∀ a ∈ taken, ∀ b ∈ s'.pendingAcknowledgments, (compare a b).isLE

theorem takeAcknowledgments_takes (s : DagState ctx) (limit : Nat) :
    Takes s limit (s.takeAcknowledgments limit).1 (s.takeAcknowledgments limit).2 := by
  unfold takeAcknowledgments
  dsimp only
  set kept := s.evictPendingAcknowledgments.pendingAcknowledgments
  set taken := (kept.toList.takeWhile
    fun r => r.round < s.evictPendingAcknowledgments.thresholdClockRound).take limit
  -- the references taken are the first ones of the kept set in its order
  obtain ⟨rest,hrs⟩ : taken <+: kept.toList := ( take_prefix _ _).trans ( takeWhile_prefix _)
  have hs : kept.toList.Pairwise fun a b => compare a b = .lt := kept.ordered_toList
  rw [← hrs,pairwise_append] at hs
  obtain ⟨hi,-,hrest_lt⟩ := hs
  have hm : ∀ r, r ∈ kept ↔ r ∈ taken ∨ r ∈ rest := fun r => by
    rw [← ExtTreeSet.mem_toList,← hrs,mem_append]
  have htaken_pending : ∀ r ∈ taken, r ∈ s.pendingAcknowledgments ∧ s.minAckRound ≤ r.round :=
    fun r hr => mem_evictPendingAcknowledgments.mp ((hm r).mpr (.inl hr))
  cases hl : taken.getLast? with
  | none =>
    have hn := getLast?_eq_none_iff.mp hl
    refine ⟨length_take_le _ _,hi,htaken_pending,fun r => ?_,by simp [hn]⟩
    rw [mem_evictPendingAcknowledgments,hn]
    simp
  | some last =>
    obtain ⟨init,hin⟩ := getLast?_eq_some_iff.mp hl
    have hle : ∀ a ∈ taken, (compare a last).isLE := by
      rw [hin,pairwise_append] at hi
      rw [hin]
      intro a ha
      rcases mem_append.mp ha with ha | ha
      · rw [hi.2.2 a ha last mem_cons_self]
        rfl
      · rw [mem_singleton.mp ha]
        exact Std.ReflOrd.isLE_rfl
    have hmem_last : last ∈ taken := by simp [hin]
    have hlf : ∀ r, r ∈ kept.splitOff last ↔ r ∈ kept ∧ (r ∉ taken ∨ last = r) := by
      intro r
      rw [ExtTreeSet.mem_splitOff]
      refine and_congr_right fun hr => ⟨fun hge => ?_,?_⟩
      · by_cases ht : r ∈ taken
        · exact .inr (Std.LawfulEqOrd.eq_of_compare (Std.OrientedCmp.isLE_antisymm hge (hle r ht)))
        · exact .inl ht
      rintro (ht | rfl)
      · rw [hrest_lt last hmem_last r (((hm r).mp hr).resolve_left ht)]
        rfl
      · exact Std.ReflOrd.isLE_rfl
    refine ⟨length_take_le _ _,hi,htaken_pending,fun r => ?_,fun a ha b hb => ?_⟩
    · rw [hlf,mem_evictPendingAcknowledgments,hl,Option.some_inj,and_assoc]
    obtain ⟨hb,hnt | rfl⟩ := (hlf b).mp hb
    · rw [hrest_lt a ha b (((hm b).mp hb).resolve_left hnt)]
      rfl
    · exact hle a ha

end DagState

/-- A DAG state with the acknowledgments added and taken so far, and the last one taken unless it
was added again. -/
structure AckState (ctx : Context) where
  dag : DagState ctx
  added : List BlockRef
  taken : List BlockRef
  spent : Option BlockRef

inductive AckOp
  | add (t : TransactionRef) (blockDigest : Option Nat)
  | take (limit : Nat)
  | evict
  | accept (h : VerifiedBlockHeader)

namespace AckState
variable {st st' : AckState ctx}

def addedRef (s : DagState ctx) (t : TransactionRef) : Option Nat → Option BlockRef
  | some digest => some ⟨t.round,t.author,digest⟩
  | none => s.resolveBlockRef t

def exec (st : AckState ctx) : AckOp → Except Panic (AckState ctx)
  | .add t blockDigest =>
    let ref := addedRef st.dag t blockDigest
    .ok ⟨st.dag.addPendingAcknowledgment t blockDigest,ref.toList ++ st.added,st.taken,
      if st.spent = ref then none else st.spent⟩
  | .take limit =>
    let (taken,dag) := st.dag.takeAcknowledgments limit
    .ok ⟨dag,st.added,taken ++ st.taken,taken.getLast?.or st.spent⟩
  | .evict => .ok { st with dag := st.dag.evictPendingAcknowledgments }
  | .accept h => (st.dag.acceptBlockHeader h).map fun dag => { st with dag := dag }

/-- Acknowledgments are taken once the last one taken before is too old. -/
def Spaced (st : AckState ctx) : AckOp → Prop
  | .take limit => limit = 0 ∨ ∀ r ∈ st.spent, r.round < st.dag.minAckRound
  | _ => True

def Initial (st : AckState ctx) : Prop :=
  st.dag.pendingAcknowledgments = ∅ ∧ st.added = [] ∧ st.taken = [] ∧ st.spent = none

/-- A pending reference that was not taken is one that was added more often than taken. -/
structure Counted (st : AckState ctx) : Prop where
  le : ∀ r, st.taken.count r ≤ st.added.count r
  lt : ∀ r ∈ st.dag.pendingAcknowledgments, st.spent ≠ some r →
    st.taken.count r < st.added.count r

theorem mem_addPendingAcknowledgment {s : DagState ctx} {t : TransactionRef} {blockDigest : Option Nat}
    {r : BlockRef} : r ∈ (s.addPendingAcknowledgment t blockDigest).pendingAcknowledgments ↔
      addedRef s t blockDigest = some r ∨ r ∈ s.pendingAcknowledgments := by
  unfold DagState.addPendingAcknowledgment addedRef
  cases blockDigest with
  | some digest => simp
  | none => cases s.resolveBlockRef t <;> simp

theorem Counted.take (h : Counted st) {limit : Nat} (hop : Spaced st (.take limit))
    {taken : List BlockRef} {dag : DagState ctx} (htk : st.dag.Takes limit taken dag) :
    Counted ⟨dag,st.added,taken ++ st.taken,taken.getLast?.or st.spent⟩ := by
  have hn : taken.Nodup := by
    refine htk.increasing.imp fun {a b} hab => ?_
    rintro rfl
    simp at hab
  -- what was taken last and not added again is neither taken nor left
  have hs : ∀ r, st.spent = some r → st.dag.minAckRound ≤ r.round →
      taken = [] := by
    rintro r hr hle
    rcases hop with rfl | hop
    · exact length_eq_zero_iff.mp (Nat.le_zero.mp htk.length_le)
    · exact absurd hle (Nat.not_le.mpr (hop r hr))
  refine ⟨fun r => ?_,fun r hr hne => ?_⟩
  · rw [count_append]
    by_cases ht : r ∈ taken
    · obtain ⟨hp,hle⟩ := htk.pending r ht
      have hlt := h.lt r hp fun hr => by simp [hs r hr hle] at ht
      rw [hn.count,if_pos ht,Nat.add_comm]
      exact hlt
    · rw [count_eq_zero_of_not_mem ht,Nat.zero_add]
      exact h.le r
  obtain ⟨hp,hle,hnt | hl⟩ := (htk.left r).mp hr
  · rw [count_append,count_eq_zero_of_not_mem hnt,Nat.zero_add]
    refine h.lt r hp fun hr => hne ?_
    rw [hs r hr hle]
    exact hr
  · exact absurd (by rw [hl]; rfl) hne

theorem Counted.exec (h : Counted st) {op : AckOp} (hop : Spaced st op)
    (hs : st.exec op = .ok st') : Counted st' := by
  cases op with
  | add t blockDigest =>
    cases hs
    have hc : ∀ r, (addedRef st.dag t blockDigest = some r → st.added.count r <
        ((addedRef st.dag t blockDigest).toList ++ st.added).count r) ∧
        st.added.count r ≤ ((addedRef st.dag t blockDigest).toList ++ st.added).count r := by
      intro r
      rw [count_append]
      exact ⟨fun hr => by simp [hr],Nat.le_add_left _ _⟩
    refine ⟨fun r => (h.le r).trans (hc r).2,fun r hr hsp => ?_⟩
    by_cases hrf : addedRef st.dag t blockDigest = some r
    · exact (h.le r).trans_lt ((hc r).1 hrf)
    have hp := (mem_addPendingAcknowledgment.mp hr).resolve_left hrf
    refine (h.lt r hp fun hr => hsp ?_).trans_le (hc r).2
    rw [if_neg (by rw [hr]; exact Ne.symm hrf),hr]
  | take limit =>
    cases hs
    exact h.take hop (st.dag.takeAcknowledgments_takes limit)
  | evict =>
    cases hs
    exact ⟨h.le,fun r hr => h.lt r (DagState.mem_evictPendingAcknowledgments.mp hr).1⟩
  | accept header =>
    obtain ⟨dag,hd,rfl⟩ := map_eq_ok.mp hs
    have hp : dag.pendingAcknowledgments = st.dag.pendingAcknowledgments := by
      unfold DagState.acceptBlockHeader at hd
      split_ifs at hd <;> rw [← ok.inj hd]
      rfl
    exact ⟨h.le,fun r hr => h.lt r (hp ▸ hr)⟩

/-- In a run that waits with the next call until what was taken last is too old, nothing is taken
more often than it was added. The references come in order, before those that stay, and what is
dropped without being taken is too old. -/
theorem acknowledgments_taken_once (h : Machine.Reached Initial exec Spaced st) :
    (∀ r, st.taken.count r ≤ st.added.count r) ∧
      (∀ limit, st.dag.Takes limit (st.dag.takeAcknowledgments limit).1
        (st.dag.takeAcknowledgments limit).2) ∧
      ∀ r ∈ st.dag.pendingAcknowledgments,
        r ∉ st.dag.evictPendingAcknowledgments.pendingAcknowledgments →
          r.round < st.dag.minAckRound := by
  have hc : Counted st := h.invariant
    (fun _ ⟨hp,had,ht,_⟩ => ⟨by simp [had,ht],by simp [hp]⟩)
    fun _ _ _ hi hop hs => hi.exec hop hs
  refine ⟨hc.le,st.dag.takeAcknowledgments_takes,fun r hr hn => ?_⟩
  rw [DagState.mem_evictPendingAcknowledgments,not_and] at hn
  exact Nat.not_le.mp (hn hr)

section Counterexample

theorem exec_take_single {r : BlockRef}
    (hp : st.dag.pendingAcknowledgments = (∅ : ExtTreeSet BlockRef).insert r)
    (hm : st.dag.minAckRound ≤ r.round) (hc : r.round < st.dag.thresholdClockRound) :
    st.exec (.take 1) = .ok ⟨st.dag,st.added,r :: st.taken,some r⟩ := by
  have hs : ∀ k : BlockRef, (compare k r).isLE →
      { st.dag with pendingAcknowledgments := st.dag.pendingAcknowledgments.splitOff k } = st.dag := by
    intro k hk
    have hsm : st.dag.pendingAcknowledgments.splitOff k = st.dag.pendingAcknowledgments := by
      refine ExtTreeSet.ext_mem fun x => ?_
      rw [ExtTreeSet.mem_splitOff,hp]
      refine and_iff_left_of_imp fun hx => ?_
      obtain rfl : r = x := by simpa using hx
      exact hk
    rw [hsm]
  have hkp : st.dag.evictPendingAcknowledgments = st.dag :=
    hs _ ((BlockRef.isLE_compare_mk_zero _ r (Nat.zero_le _)).mpr hm)
  have hl : st.dag.pendingAcknowledgments.toList = [r] := by
    rw [hp]
    rfl
  have ht : st.dag.takeAcknowledgments 1 = ([r],st.dag) := by
    unfold DagState.takeAcknowledgments
    simp only [hkp,hl,takeWhile_cons,hc,decide_true,if_true,takeWhile_nil]
    exact congrArg (Prod.mk [r]) (hs r Std.ReflOrd.isLE_rfl)
  simp [exec,ht]

theorem reached_taken : ∃ st : AckState soleContext, Machine.Reached Initial exec Spaced st ∧
    st.added = [⟨1,0,0⟩] ∧ st.taken = [⟨1,0,0⟩] ∧
    st.exec (.take 1) = .ok ⟨st.dag,[⟨1,0,0⟩],[⟨1,0,0⟩,⟨1,0,0⟩],some ⟨1,0,0⟩⟩ := by
  have h0 : Machine.Reached Initial exec Spaced
      ⟨.recovered soleContext 0 5 .empty .new,[],[],none⟩ := .init ⟨rfl,rfl,rfl,rfl⟩
  have h1 := h0.step (i := AckOp.accept ⟨craftedHeader 1 [⟨0,0,0⟩] 1 1,0,Nat.le_refl 1⟩) trivial rfl
  have h2 := h1.step (i := AckOp.add ⟨1,0,0⟩ (some 0)) trivial rfl
  have h3 := h2.step (i := AckOp.take 1) (.inr (by simp))
    (exec_take_single rfl (by decide) (by decide))
  exact ⟨_,h3,rfl,rfl,exec_take_single rfl (by decide) (by decide)⟩

/-- The next call returns the same reference. -/
theorem acknowledgment_taken_twice : ∃ st st' : AckState soleContext,
    Machine.Reached Initial exec Spaced st ∧ st.exec (.take 1) = .ok st' ∧
      st'.added = [⟨1,0,0⟩] ∧ st'.taken = [⟨1,0,0⟩,⟨1,0,0⟩] := by
  obtain ⟨st,hst,-,-,ht⟩ := reached_taken
  exact ⟨st,_,hst,ht,rfl,rfl⟩

theorem acknowledgment_taken_once : ∃ st : AckState soleContext,
    Machine.Reached Initial exec Spaced st ∧ st.taken = [⟨1,0,0⟩] ∧
      ∀ r, st.taken.count r ≤ st.added.count r := by
  obtain ⟨st,hst,-,ht,-⟩ := reached_taken
  exact ⟨st,hst,ht,(acknowledgments_taken_once hst).1⟩

end Counterexample
end AckState
end Iota.Starfish
