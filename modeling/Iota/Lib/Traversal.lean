import Iota.Lib.Except

/-! A traversal that looks its nodes up by key, keeps the nodes still to visit on a stack and puts
every key there once. It ends with the nodes reachable from the first one, each once. -/
namespace Traversal
open List Relation
variable {α κ ε : Type} [DecidableEq κ]

section Definitions
variable (key : α → κ) (next : α → List κ) (get : κ → Except ε α) (twice noFuel : ε)

/-- The nodes go on the stack one after another; a key already seen is an error. -/
def push : List α → List α → Finset κ → Except ε (List α × Finset κ)
  | [], stack, seen => .ok (stack,seen)
  | x :: xs, stack, seen =>
    if key x ∈ seen then .error twice else push xs (x :: stack) (insert (key x) seen)

/-- The loop of the traversal, with the nodes visited so far. -/
def visit : Nat → List α → List α → Finset κ → Except ε (List α)
  | _, [], done, _ => .ok done
  | 0, _ :: _, _, _ => .error noFuel
  | fuel+1, x :: stack, done, seen => do
    let found ← ((next x).filter (· ∉ seen)).mapM get
    let (stack,seen) ← push key twice found stack seen
    visit fuel stack (done ++ [x]) seen

/-- Nodes that are found under their keys, and whose next keys are keys of such nodes. -/
structure Closed (nodes : α → Prop) : Prop where
  get_key : ∀ x, nodes x → get (key x) = .ok x
  next_mem : ∀ x, nodes x → ∀ k ∈ next x, ∃ y, nodes y ∧ key y = k
  nodup_next : ∀ x, nodes x → (next x).Nodup

def Edge (nodes : α → Prop) (x y : α) : Prop := nodes y ∧ key y ∈ next x

end Definitions
variable {key : α → κ} {next next' : α → List κ} {get get' : κ → Except ε α} {twice noFuel : ε}
  {nodes : α → Prop}

theorem push_ok {xs stack : List α} {seen : Finset κ} (hnd : (xs.map key).Nodup)
    (hn : ∀ x ∈ xs, key x ∉ seen) :
    push key twice xs stack seen = .ok (xs.reverse ++ stack,seen ∪ (xs.map key).toFinset) := by
  induction xs generalizing stack seen with
  | nil => simp [push]
  | cons x xs ih =>
    obtain ⟨hx,hxs⟩ := nodup_cons.mp hnd
    have hr : ∀ y ∈ xs, key y ∉ insert (key x) seen := by
      intro y hy hm
      rcases Finset.mem_insert.mp hm with he | hs
      · exact hx (he ▸ mem_map_of_mem hy)
      · exact hn y (.tail _ hy) hs
    rw [push,if_neg (hn x mem_cons_self),ih hxs hr]
    simp [Finset.insert_union,Finset.union_insert]

omit [DecidableEq κ] in
theorem Closed.eq_of_key_eq (hc : Closed key next get nodes) {x y : α} (hx : nodes x)
    (hy : nodes y) (h : key x = key y) : x = y := by
  have hg := hc.get_key x hx
  rw [h,hc.get_key y hy] at hg
  exact (Except.ok.inj hg).symm

theorem Closed.exists_found (hc : Closed key next get nodes) {x : α} (hx : nodes x)
    (seen : Finset κ) :
    ∃ ys : List α, ys.map key = (next x).filter (· ∉ seen) ∧ (∀ y ∈ ys, nodes y) ∧
      ((next x).filter (· ∉ seen)).mapM get = .ok ys := by
  have hl : ∀ ks : List κ, (∀ k ∈ ks, ∃ y, nodes y ∧ key y = k) →
      ∃ ys : List α, ys.map key = ks ∧ ∀ y ∈ ys, nodes y := by
    intro ks
    induction ks with
    | nil => exact fun _ => ⟨[],rfl,fun y hy => by cases hy⟩
    | cons k ks ih =>
      intro h
      obtain ⟨y,hy,rfl⟩ := h k mem_cons_self
      obtain ⟨ys,rfl,hys⟩ := ih fun k hk => h k (.tail _ hk)
      exact ⟨y :: ys,rfl,by simpa using ⟨hy,hys⟩⟩
  obtain ⟨ys,hky,hys⟩ := hl ((next x).filter (· ∉ seen)) fun k hk =>
    hc.next_mem x hx k (mem_of_mem_filter hk)
  refine ⟨ys,hky,hys,?_⟩
  rw [← hky]
  exact mapM_map_ok fun y hy => hc.get_key y (hys y hy)

variable {seen : Finset κ}

theorem Closed.push_found (hc : Closed key next get nodes) (twice : ε) {x : α} (hx : nodes x)
    {ys : List α} (hys : ys.map key = (next x).filter (· ∉ seen)) (stack : List α) :
    push key twice ys stack seen = .ok (ys.reverse ++ stack,seen ∪ (ys.map key).toFinset) := by
  refine push_ok ?_ ?_
  · rw [hys]
    exact (hc.nodup_next x hx).filter _
  intro y hy
  have hk : key y ∈ (next x).filter (· ∉ seen) := hys ▸ mem_map_of_mem hy
  simpa using (mem_filter.mp hk).2

/-- What holds before every step of the loop started at `x₀`. -/
structure Inv (key : α → κ) (next : α → List κ) (nodes : α → Prop) (x₀ : α) (done stack : List α)
    (seen : Finset κ) : Prop where
  start : x₀ ∈ done ++ stack
  reached : ∀ x ∈ done ++ stack, ReflTransGen (Edge key next nodes) x₀ x
  nodup : ((done ++ stack).map key).Nodup
  seen_iff : ∀ k, k ∈ seen ↔ k ∈ (done ++ stack).map key
  expanded : ∀ x ∈ done, ∀ k ∈ next x, k ∈ seen

omit [DecidableEq κ] in
theorem Inv.initial (x0 : α) : Inv key next nodes x0 [] [x0] {key x0} := by
  constructor
  · simp
  · intro x hx
    obtain rfl : x = x0 := by simpa using hx
    exact .refl
  · simp
  · simp
  · intro x hx
    cases hx

omit [DecidableEq κ] in
theorem nodes_of_reached {x0 x : α} (h0 : nodes x0)
    (hx : ReflTransGen (Edge key next nodes) x0 x) : nodes x := by
  cases hx with
  | refl => exact h0
  | tail _ he => exact he.1

theorem Inv.step {x0 x : α} {done stack ys : List α}
    (hi : Inv key next nodes x0 done (x :: stack) seen)
    (hky : ys.map key = (next x).filter (· ∉ seen)) (hys : ∀ y ∈ ys, nodes y)
    (hnd : (next x).Nodup) :
    Inv key next nodes x0 (done ++ [x]) (ys.reverse ++ stack)
      (seen ∪ (ys.map key).toFinset) := by
  have hn : ∀ y ∈ ys, key y ∈ next x ∧ key y ∉ seen := by
    intro y hy
    have hk : key y ∈ (next x).filter (· ∉ seen) := hky ▸ mem_map_of_mem hy
    simpa using mem_filter.mp hk
  have hp : (done ++ [x] ++ (ys.reverse ++ stack)).Perm (done ++ x :: stack ++ ys) := by
    have h1 : (ys.reverse ++ stack).Perm (stack ++ ys) :=
      (ys.reverse_perm.append_right stack).trans perm_append_comm
    simpa using (h1.cons x).append_left done
  constructor
  · exact hp.mem_iff.mpr (mem_append_left _ hi.start)
  · intro y hy
    rcases mem_append.mp (hp.mem_iff.mp hy) with ho | hy'
    · exact hi.reached y ho
    · exact (hi.reached x (by simp)).tail ⟨hys y hy',(hn y hy').1⟩
  · rw [(hp.map key).nodup_iff,map_append,nodup_append']
    refine ⟨hi.nodup,?_,?_⟩
    · rw [hky]
      exact hnd.filter _
    intro k ho hk
    obtain ⟨y,hy,rfl⟩ := mem_map.mp hk
    exact (hn y hy).2 ((hi.seen_iff _).mpr ho)
  · intro k
    rw [(hp.map key).mem_iff,map_append,mem_append,Finset.mem_union,hi.seen_iff,
      mem_toFinset]
  intro y hy k hk
  rw [Finset.mem_union,mem_toFinset,hky]
  rcases mem_append.mp hy with ho | hx
  · exact .inl (hi.expanded y ho k hk)
  obtain rfl := mem_singleton.mp hx
  by_cases hs : k ∈ seen
  · exact .inl hs
  · exact .inr (mem_filter.mpr ⟨hk,by simpa using hs⟩)

omit [DecidableEq κ] in
theorem Inv.mem_done_iff (hc : Closed key next get nodes) {x0 : α} {done : List α}
    (h0 : nodes x0) (hi : Inv key next nodes x0 done [] seen) (y : α) :
    y ∈ done ↔ ReflTransGen (Edge key next nodes) x0 y := by
  constructor
  · exact fun hy => hi.reached y (by simpa using hy)
  intro hy
  induction hy with
  | refl => simpa using hi.start
  | tail _ he ih =>
    have hs := hi.expanded _ ih _ he.2
    rw [hi.seen_iff,append_nil] at hs
    obtain ⟨z,hz,hk⟩ := mem_map.mp hs
    have hzn : nodes z := nodes_of_reached h0 (hi.reached z (by simpa using hz))
    rw [← hc.eq_of_key_eq hzn he.1 hk]
    exact hz

theorem Inv.visit_ok (hc : Closed key next get nodes) {x0 : α} (h0 : nodes x0) {keys : Finset κ}
    (hky : ∀ x, nodes x → key x ∈ keys) {fuel : Nat} {done stack : List α}
    (hi : Inv key next nodes x0 done stack seen) (hfl : keys.card ≤ fuel + done.length) :
    ∃ l seen', visit key next get twice noFuel fuel stack done seen = .ok l ∧
      Inv key next nodes x0 l [] seen' := by
  induction fuel generalizing done stack seen with
  | zero =>
    cases stack with
    | nil => exact ⟨done,seen,by rw [visit],hi⟩
    | cons x stack =>
      -- more distinct keys on the stack and visited than there are
      exfalso
      have hs : ((done ++ x :: stack).map key).toFinset ⊆ keys := by
        intro k hk
        obtain ⟨y,hy,rfl⟩ := mem_map.mp (mem_toFinset.mp hk)
        exact hky y (nodes_of_reached h0 (hi.reached y hy))
      have hcr := Finset.card_le_card hs
      rw [toFinset_card_of_nodup hi.nodup] at hcr
      simp at hcr
      omega
  | succ fuel ih =>
    cases stack with
    | nil => exact ⟨done,seen,by rw [visit],hi⟩
    | cons x stack =>
      have hx : nodes x := nodes_of_reached h0 (hi.reached x (by simp))
      obtain ⟨ys,hys,hyn,hf⟩ := hc.exists_found hx seen
      have hp := hc.push_found twice hx hys stack
      have hn := hi.step hys hyn (hc.nodup_next x hx)
      obtain ⟨l,seen',hl,hd⟩ := ih hn (by simp; omega)
      refine ⟨l,seen',?_,hd⟩
      rw [visit,hf,Except.ok_bind,hp]
      exact hl

theorem visit_start_ok (twice noFuel : ε) (hc : Closed key next get nodes) {x0 : α}
    (h0 : nodes x0) {keys : Finset κ} (hk : ∀ x, nodes x → key x ∈ keys) {fuel : Nat}
    (hf : keys.card ≤ fuel) :
    ∃ l, visit key next get twice noFuel fuel [x0] [] {key x0} = .ok l ∧ (l.map key).Nodup ∧
      ∀ y, y ∈ l ↔ ReflTransGen (Edge key next nodes) x0 y := by
  obtain ⟨l,seen,hl,hi⟩ := (Inv.initial x0).visit_ok hc h0 hk (by simpa using hf)
  exact ⟨l,hl,by simpa using hi.nodup,hi.mem_done_iff hc h0⟩

theorem visit_congr (hc : Closed key next get nodes) (hc' : Closed key next' get' nodes)
    (hn : ∀ x, nodes x → next' x = next x) {fuel : Nat} {done stack : List α}
    (hs : ∀ x ∈ stack, nodes x) :
    visit key next' get' twice noFuel fuel stack done seen =
      visit key next get twice noFuel fuel stack done seen := by
  induction fuel generalizing done stack seen with
  | zero =>
    cases stack with
    | nil => rw [visit,visit]
    | cons x stack => rw [visit,visit]
  | succ fuel ih =>
    cases stack with
    | nil => rw [visit,visit]
    | cons x stack =>
      have hx := hs x mem_cons_self
      obtain ⟨ys,hys,hyn,hf⟩ := hc.exists_found hx seen
      have hf' : ((next x).filter (· ∉ seen)).mapM get' = .ok ys := by
        rw [← hys]
        exact mapM_map_ok fun y hy => hc'.get_key y (hyn y hy)
      rw [visit,visit,hn x hx,hf,hf',Except.ok_bind,Except.ok_bind,
        hc.push_found twice hx hys stack]
      refine ih fun y hy => ?_
      rcases mem_append.mp hy with hy | hy
      · exact hyn y (mem_reverse.mp hy)
      · exact hs y (.tail _ hy)

theorem visit_mono {fuel fuel' : Nat} (hle : fuel ≤ fuel') {done stack l : List α}
    (hl : visit key next get twice noFuel fuel stack done seen = .ok l) :
    visit key next get twice noFuel fuel' stack done seen = .ok l := by
  induction fuel generalizing fuel' done stack seen with
  | zero =>
    cases stack with
    | nil =>
      rw [visit] at hl ⊢
      exact hl
    | cons x stack =>
      cases hl
  | succ fuel ih =>
    obtain ⟨k,rfl⟩ := Nat.exists_eq_add_of_le' hle
    cases stack with
    | nil =>
      exact hl
    | cons x stack =>
      obtain ⟨ys,hf,hl⟩ := Except.of_bind hl
      obtain ⟨p,hp,hl⟩ := Except.of_bind hl
      rw [← Nat.add_assoc,visit,hf,Except.ok_bind,hp]
      exact ih (Nat.le_add_left fuel k) hl

end Traversal
