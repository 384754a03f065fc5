import Iota.Lib.Except

/-! Binary search in a slice as the standard library of Rust has it: a range is halved and compared
once at its end. It finds an entry that compares equal whenever there is one and the comparison is
monotone. Linear search through candidates in order finds the least solution of all of them. -/
namespace List
variable {α : Type*}

/-- The position the search ends at, from `base` among `size` entries. -/
def binarySearchBase (cmp : α → Ordering) (xs : List α) : Nat → Nat → Nat → Nat
  | 0, base, _ => base
  | fuel+1, base, size =>
    if 1 < size then
      let mid := base + size / 2
      let base := if (xs[mid]?).any (fun x => cmp x == .gt) then base else mid
      binarySearchBase cmp xs fuel base (size - size / 2)
    else base

/-- The index of an entry that compares equal, if the search ends at one. -/
def binarySearchBy (cmp : α → Ordering) (xs : List α) : Option Nat :=
  let base := binarySearchBase cmp xs xs.length 0 xs.length
  if (xs[base]?).any (fun x => cmp x == .eq) then some base else none

/-- The entry with a given key, if the search ends at one. -/
def binarySearchByKey (key : α → Nat) (xs : List α) (k : Nat) : Option α :=
  (binarySearchBy (fun x => compare (key x) k) xs).bind fun i => xs[i]?

variable {cmp : α → Ordering} {xs : List α}

theorem getElem?_of_binarySearchBy {i : Nat} (h : binarySearchBy cmp xs = some i) :
    ∃ x, xs[i]? = some x ∧ cmp x = .eq := by
  unfold binarySearchBy at h
  dsimp only at h
  split at h
  · next ha =>
    cases h
    cases hx : xs[binarySearchBase cmp xs xs.length 0 xs.length]? with
    | none => rw [hx] at ha; cases ha
    | some x => rw [hx] at ha; exact ⟨x,rfl,beq_iff_eq.mp ha⟩
  · cases h

theorem mem_of_binarySearchByKey {key : α → Nat} {k : Nat} {x : α}
    (h : binarySearchByKey key xs k = some x) : x ∈ xs ∧ key x = k := by
  obtain ⟨i,hi,hx⟩ := Option.bind_eq_some_iff.mp h
  obtain ⟨y,hy,hc⟩ := getElem?_of_binarySearchBy hi
  cases hx.symm.trans hy
  exact ⟨mem_of_getElem? hx,Nat.compare_eq_eq.mp hc⟩

/-- The entries below, at and above the searched one stand in this order. -/
def SearchOrdered (cmp : α → Ordering) (xs : List α) : Prop :=
  xs.Pairwise fun a b => (cmp a = .gt → cmp b = .gt) ∧ (cmp b = .lt → cmp a = .lt)

theorem SearchOrdered.lt_of_gt (hm : SearchOrdered cmp xs) {i j : Nat} {x y : α} (hi : xs[i]? = some x)
    (hj : xs[j]? = some y) (hx : cmp x = .eq) (hy : cmp y = .gt) : i < j := by
  by_contra hle
  rcases Nat.lt_or_eq_of_le (Nat.le_of_not_lt hle) with hlt | rfl
  · obtain ⟨hjl,rfl⟩ := getElem?_eq_some_iff.mp hj
    obtain ⟨hil,rfl⟩ := getElem?_eq_some_iff.mp hi
    have hgt := (pairwise_iff_getElem.mp hm j i hjl hil hlt).1 hy
    rw [hx] at hgt
    cases hgt
  cases hi.symm.trans hj
  rw [hx] at hy
  cases hy

theorem SearchOrdered.lt_of_lt (hm : SearchOrdered cmp xs) {i j : Nat} {x y : α} (hi : xs[i]? = some x)
    (hj : xs[j]? = some y) (hx : cmp x = .eq) (hy : cmp y = .lt) : j < i := by
  by_contra hle
  rcases Nat.lt_or_eq_of_le (Nat.le_of_not_lt hle) with hlt | rfl
  · obtain ⟨hjl,rfl⟩ := getElem?_eq_some_iff.mp hj
    obtain ⟨hil,rfl⟩ := getElem?_eq_some_iff.mp hi
    have hb := (pairwise_iff_getElem.mp hm i j hil hjl hlt).2 hy
    rw [hx] at hb
    cases hb
  cases hi.symm.trans hj
  rw [hx] at hy
  cases hy

theorem SearchOrdered.binarySearchBase_eq (hm : SearchOrdered cmp xs) :
    ∀ (fuel base size i : Nat) (x : α), size ≤ fuel+1 → base + size ≤ xs.length →
      base ≤ i → i < base + size → xs[i]? = some x → cmp x = .eq →
      ∃ y, xs[binarySearchBase cmp xs fuel base size]? = some y ∧ cmp y = .eq := by
  intro fuel
  induction fuel with
  | zero =>
    intro base size i x hs _ hl hh hx heq
    have hi : base = i := by omega
    exact ⟨x,hi ▸ hx,heq⟩
  | succ fuel ih =>
    intro base size i x hs hln hl hh hx heq
    rw [binarySearchBase]
    split
    · next ho =>
      have hmd : base + size / 2 < xs.length := by omega
      have hg : xs[base + size / 2]? = some xs[base + size / 2] := getElem?_eq_getElem hmd
      simp only [hg,Option.any_some]
      split
      · next hgt =>
        have hlt := hm.lt_of_gt hx hg heq (beq_iff_eq.mp hgt)
        exact ih base _ i x (by omega) (by omega) hl (by omega) hx heq
      · next hgt =>
        cases hc : cmp xs[base + size / 2] with
        | gt => rw [hc] at hgt; exact absurd rfl hgt
        | eq =>
          exact ih _ _ (base + size / 2) _ (by omega) (by omega) le_rfl (by omega) hg hc
        | lt =>
          have hlt := hm.lt_of_lt hx hg heq hc
          exact ih _ _ i x (by omega) (by omega) (by omega) (by omega) hx heq
    · have hi : base = i := by omega
      exact ⟨x,hi ▸ hx,heq⟩

theorem SearchOrdered.binarySearchBy_isSome (hm : SearchOrdered cmp xs) {x : α} (hx : x ∈ xs)
    (heq : cmp x = .eq) : ∃ i, binarySearchBy cmp xs = some i := by
  obtain ⟨i,hi⟩ := getElem?_of_mem hx
  have hl := (getElem?_eq_some_iff.mp hi).1
  obtain ⟨y,hy,hc⟩ := hm.binarySearchBase_eq xs.length 0 xs.length i x (by omega) (by omega)
    (by omega) (by omega) hi heq
  unfold binarySearchBy
  dsimp only
  rw [hy,if_pos (by simp [hc])]
  exact ⟨_,rfl⟩

def FirstIn (S : Set Nat) : Option Nat → Prop
  | some t => IsLeast S t
  | none => S = ∅

theorem exists_findSomeM?_firstIn {ε : Type} {f : α → Except ε (Option Nat)} {S : α → Set Nat}
    (hf : ∀ x ∈ xs, ∃ r, f x = .ok r ∧ FirstIn (S x) r)
    (ho : xs.Pairwise fun a b => ∀ t ∈ S a, ∀ u ∈ S b, t ≤ u) :
    ∃ r, xs.findSomeM? f = .ok r ∧ FirstIn {t | ∃ x ∈ xs, t ∈ S x} r := by
  induction xs with
  | nil => exact ⟨none,rfl,by simp [FirstIn]⟩
  | cons x rest ih =>
    obtain ⟨hfr,hrs⟩ := pairwise_cons.mp ho
    obtain ⟨r,hr,hx⟩ := hf x mem_cons_self
    rw [findSomeM?,hr,Except.ok_bind]
    cases r with
    | some t =>
      refine ⟨some t,rfl,⟨x,mem_cons_self,hx.1⟩,?_⟩
      rintro u ⟨y,hy,hu⟩
      rcases mem_cons.mp hy with rfl | hy
      · exact hx.2 hu
      · exact hfr y hy t hx.1 u hu
    | none =>
      obtain ⟨r,hr,hfn⟩ := ih (fun y hy => hf y (.tail _ hy)) hrs
      refine ⟨r,hr,?_⟩
      have hs : {t | ∃ y ∈ x :: rest, t ∈ S y} = {t | ∃ y ∈ rest, t ∈ S y} := by
        have he : S x = ∅ := hx
        ext t
        simp [he]
      rw [hs]
      exact hfn

end List
