import Iota.System.ValidatorSet

/-! The selection of a committee: `take_top_n` finds the largest elements of a vector. -/
namespace Iota.System
open Except List Move
variable {α κ : Type} [LinearOrder κ] {key : Nat → κ} {n m i : Nat} {l : List Nat}

theorem insertTop_eq {smaller : Nat → Tx Bool}
    (h : ∀ k ∈ l, smaller k = .ok (decide (key k < key i))) :
    insertTop smaller i l = .ok (l.orderedInsert (key · ≤ key ·) i) := by
  induction l with
  | nil => rfl
  | cons k l ih =>
    unfold insertTop
    rw [h k mem_cons_self,ih fun k hk => h k (.tail _ hk),orderedInsert_cons]
    by_cases hk : key k < key i
    · simp [hk]
    · simp [hk,not_lt.mp hk]

theorem drop_orderedInsert (hs : l.Pairwise (key · ≤ key ·)) (d : Nat) :
    ((l.drop d).orderedInsert (key · ≤ key ·) i).drop 1 =
      (l.orderedInsert (key · ≤ key ·) i).drop (d+1) := by
  induction d generalizing l with
  | zero => rfl
  | succ d ih =>
    cases l with
    | nil => rfl
    | cons k l =>
      obtain ⟨hk,hs⟩ := pairwise_cons.mp hs
      rw [drop_succ_cons,orderedInsert_cons]
      split_ifs with hi
      · -- `i` also goes before what is left of `l`
        cases hd : l.drop d with
        | nil => grind
        | cons x xs => grind [mem_of_mem_drop]
      · exact ih hs

section
variable {v : List α} {lessThan : α → α → Tx Bool}
  (hv : ∀ k x m y, v[k]? = some x → v[m]? = some y → lessThan x y = .ok (decide (key k < key m)))
include hv

/-- The body of the loop drops the smallest element once there are more than `n`. -/
theorem takeTopStep_eq (hs : l.Pairwise (key · ≤ key ·)) (hl : ∀ k ∈ l, k < v.length)
    (hm : m < v.length) : takeTopStep v n lessThan (l.drop (m-n)) m =
      .ok ((l.orderedInsert (key · ≤ key ·) m).drop (m+1-n)) := by
  have hy := getElem?_eq_getElem hm
  have hc : ∀ k ∈ l.drop (m-n), (do lessThan (← get v k) v[m]) = .ok (decide (key k < key m)) := by
    intro k hk
    have hx := getElem?_eq_getElem (hl k (mem_of_mem_drop hk))
    rw [get_eq_ok.mpr hx,ok_bind,hv k _ _ _ hx hy]
  unfold takeTopStep
  rw [get_eq_ok.mpr hy,ok_bind]
  split_ifs with hmn
  · rw [insertTop_eq hc,Nat.sub_eq_zero_of_le hmn.le,Nat.sub_eq_zero_of_le hmn]
    rfl
  · rw [Nat.sub_add_comm (not_lt.mp hmn),← drop_orderedInsert hs]
    cases hd : l.drop (m-n) with
    | nil => rfl
    | cons k rest =>
      rw [hd] at hc
      dsimp only
      rw [hc k mem_cons_self,ok_bind,orderedInsert_cons,insertTop_eq fun k hk => hc k (.tail _ hk)]
      by_cases hk : key k < key m
      · simp [hk,not_le.mpr hk]
      · simp [hk,not_lt.mp hk]

theorem foldlM_takeTopStep (hn : 0 < n) (hm : m < v.length) : ∃ l : List Nat,
    l.Pairwise (key · ≤ key ·) ∧ l.Perm (range (m+1)) ∧
      (range' 1 m).foldlM (takeTopStep v n lessThan) [0] = .ok (l.drop (m+1-n)) := by
  induction m with
  | zero =>
    refine ⟨[0],pairwise_singleton _ _,.refl _,?_⟩
    rw [Nat.sub_eq_zero_of_le hn]
    rfl
  | succ m ih =>
    obtain ⟨l,hs,hp,hf⟩ := ih (by omega)
    refine ⟨_,hs.orderedInsert (m+1) l,(perm_orderedInsert _ _ l).trans ?_,?_⟩
    · rw [range_succ]
      exact (hp.cons _).trans (perm_append_singleton _ _).symm
    · rw [range'_1_concat,foldlM_append,hf,ok_bind,Nat.add_comm 1,foldlM_cons,
        takeTopStep_eq hv hs (fun k hk => ?_) hm]
      · rfl
      · have := mem_range.mp (hp.subset hk)
        omega

end

/-- With a comparison that decides the order of some keys, the positions of `n` elements are found,
or of all if there are fewer, and no other element has a larger key. -/
theorem takeTopN_largest (v : List α) (n : Nat) {lessThan : α → α → Tx Bool} {key : α → κ}
    (h : ∀ x ∈ v, ∀ y ∈ v, lessThan x y = .ok (decide (key x < key y))) : ∃ top rest,
      takeTopN v n lessThan = .ok top ∧ (top ++ rest).Perm (range v.length) ∧
      top.length = min n v.length ∧
      ∀ i ∈ top, ∀ j ∈ rest, ∀ x ∈ v[i]?, ∀ y ∈ v[j]?, key y ≤ key x := by
  unfold takeTopN
  split_ifs with hn h0
  · exact ⟨_,[],rfl,by simp,by simp [hn],by simp⟩
  · exact ⟨[],_,rfl,.refl _,by simp [h0],by simp⟩
  let key' (i : Nat) := key (v[i]?.getD v[0])
  have hv k x m y (hx : v[k]? = some x) (hy : v[m]? = some y) :
      lessThan x y = .ok (decide (key' k < key' m)) := by
    rw [h x (mem_of_getElem? hx) y (mem_of_getElem? hy)]
    simp [key',hx,hy]
  obtain ⟨l,hs,hp,hf⟩ :=
    foldlM_takeTopStep (m := v.length-1) hv (Nat.pos_of_ne_zero h0) (by omega)
  rw [Nat.sub_add_cancel (by omega)] at hp hf
  have hl := hp.length_eq
  rw [← take_append_drop (v.length-n) l] at hs hp
  obtain ⟨-,-,hs⟩ := pairwise_append.mp hs
  refine ⟨(l.drop (v.length-n)).reverse,l.take (v.length-n),?_,?_,?_,fun i hi j hj x hx y hy => ?_⟩
  · rw [range_eq_range',drop_range',hf]
    rfl
  · exact ((reverse_perm _).append_right _).trans (perm_append_comm.trans hp)
  · simp at hl ⊢
    omega
  · have := hs j hj i (mem_reverse.mp hi)
    simpa [key',Option.mem_def.mp hx,Option.mem_def.mp hy] using this

theorem takeTopN_largest_two : ∃ top rest, takeTopN [3,1,2] 2 (fun a b => .ok (a < b)) = .ok top ∧
    (top ++ rest).Perm [0,1,2] ∧ top.length = 2 ∧
      ∀ i ∈ top, ∀ j ∈ rest, ∀ x ∈ [3,1,2][i]?, ∀ y ∈ [3,1,2][j]?, y ≤ x :=
  takeTopN_largest _ _ fun _ _ _ _ => rfl

end Iota.System
