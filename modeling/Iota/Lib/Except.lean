import Mathlib

/-! Equations for sequencing in `Except`, and loops over lists whose steps all succeed or keep an
invariant. -/
namespace Except
variable {ε α β : Type}

@[simp] theorem ok_bind (a : α) (f : α → Except ε β) : (ok a >>= f) = f a := rfl

@[simp] theorem error_bind (e : ε) (f : α → Except ε β) : (error e >>= f) = error e := rfl

variable {x : Except ε α} {f : α → Except ε β}

theorem bind_eq_ok {b : β} : (x >>= f) = ok b ↔ ∃ a, x = ok a ∧ f a = ok b := by
  cases x with
  | error e => simp
  | ok a => simp

theorem of_bind {b : β} (h : (x >>= f) = ok b) : ∃ a, x = ok a ∧ f a = ok b := bind_eq_ok.mp h

theorem ok_of_bind {b : β} (h : (x >>= f) = ok b) : ∃ a, f a = ok b :=
  let ⟨a,_,ha⟩ := of_bind h
  ⟨a,ha⟩

theorem bind_eq_error {e : ε} :
    (x >>= f) = error e ↔ x = error e ∨ ∃ a, x = ok a ∧ f a = error e := by
  cases x with
  | error e => simp
  | ok a => simp

@[simp] theorem ok_map (f : α → β) (a : α) : (ok a : Except ε α).map f = ok (f a) := rfl

@[simp] theorem error_map (f : α → β) (e : ε) : (error e : Except ε α).map f = error e := rfl

theorem map_eq_ok {f : α → β} {b : β} : x.map f = ok b ↔ ∃ a, x = ok a ∧ f a = b := by
  cases x with
  | error e => simp
  | ok a => simp

/-- A computation on concrete input can be evaluated, and properties of its result be decided. -/
instance decidableExistsOk {p : α → Prop} [∀ a,Decidable (p a)] :
    Decidable (∃ a, x = ok a ∧ p a) :=
  match x with
  | ok a => decidable_of_iff (p a) (by simp)
  | error _ => isFalse (by simp)

instance decidableEqError [DecidableEq ε] (e : ε) : Decidable (x = error e) :=
  match x with
  | ok _ => isFalse nofun
  | error e' => decidable_of_iff (e' = e) (by simp)

/-- Pre- and postconditions: every result satisfies `post`, every failure is one of `errs`. -/
def Satisfies (x : Except ε α) (errs : ε → Prop) (post : α → Prop) : Prop :=
  match x with
  | ok a => post a
  | error e => errs e

section Satisfies
variable {x : Except ε α} {f : α → Except ε β} {errs : ε → Prop} {p : α → Prop} {q : β → Prop}

@[simp] theorem satisfies_ok {a : α} : (ok a : Except ε α).Satisfies errs p ↔ p a := Iff.rfl

@[simp] theorem satisfies_error {e : ε} : (error e : Except ε α).Satisfies errs p ↔ errs e :=
  Iff.rfl

theorem Satisfies.bind (hx : x.Satisfies errs p) (hf : ∀ a, p a → (f a).Satisfies errs q) :
    (x >>= f).Satisfies errs q := by
  cases x with
  | error e => exact hx
  | ok a => exact hf a hx

theorem Satisfies.mono {p' : α → Prop} (hx : x.Satisfies errs p) (h : ∀ a, p a → p' a) :
    x.Satisfies errs p' := by
  cases x with
  | error e => exact hx
  | ok a => exact h a hx

theorem Satisfies.weaken {errs' : ε → Prop} (hx : x.Satisfies errs p)
    (h : ∀ e, errs e → errs' e) : x.Satisfies errs' p := by
  cases x with
  | error e => exact h e hx
  | ok a => exact hx

theorem Satisfies.of_ok {a : α} (hx : x.Satisfies errs p) (h : x = .ok a) : p a := by
  subst h
  exact hx

theorem Satisfies.of_error {e : ε} (hx : x.Satisfies errs p) (h : x = .error e) : errs e := by
  subst h
  exact hx

theorem Satisfies.bind_ok {a : α} (hx : x = .ok a) (hf : (f a).Satisfies errs q) :
    (x >>= f).Satisfies errs q := by
  subst hx
  exact hf

end Satisfies
end Except
namespace List
variable {ε α β σ : Type} {f : σ → α → Except ε σ} {xs : List α}

theorem foldlM_ok_inv {inv : σ → Prop}
    (hst : ∀ x ∈ xs, ∀ s s', inv s → f s x = .ok s' → inv s') {s s' : σ} (hs : inv s)
    (h : xs.foldlM f s = .ok s') : inv s' := by
  induction xs generalizing s with
  | nil =>
    obtain rfl : s = s' := by simpa [pure,Except.pure] using h
    exact hs
  | cons x xs ih =>
    rw [List.foldlM_cons,Except.bind_eq_ok] at h
    obtain ⟨s1,hx,hr⟩ := h
    exact ih (fun y hy => hst y (.tail _ hy)) (hst x mem_cons_self s s1 hs hx) hr

theorem foldlM_keeps (p : σ → Prop)
    (hst : ∀ x ∈ xs, ∀ s s', p s → f s x = .ok s' → p s') {s s' : σ} (hs : p s)
    (h : xs.foldlM f s = .ok s') : p s' :=
  foldlM_ok_inv hst hs h

/-- The loop rule with an invariant over the elements already taken. -/
theorem foldlM_done (p : List α → σ → Prop)
    (hst : ∀ done x s s', p done s → f s x = .ok s' → p (done ++ [x]) s') {s s' : σ}
    (hs : p [] s) (h : xs.foldlM f s = .ok s') : p xs s' := by
  induction xs using reverseRecOn generalizing s' with
  | nil =>
    cases h
    exact hs
  | append_singleton xs x ih =>
    rw [foldlM_append,Except.bind_eq_ok] at h
    obtain ⟨s1,hx,hr⟩ := h
    obtain ⟨_,hr,h⟩ := Except.bind_eq_ok.mp hr
    cases h
    exact hst xs x s1 _ (ih hx) hr

theorem foldlM_satisfies (p : List α → σ → Prop) {errs : ε → Prop}
    (hst : ∀ x xs s, p (x :: xs) s → (f s x).Satisfies errs (p xs)) {s : σ}
    (hs : p xs s) : (xs.foldlM f s).Satisfies errs (p []) := by
  induction xs generalizing s with
  | nil => exact hs
  | cons x xs ih =>
    exact (hst x xs s hs).bind fun _ hn => ih hn

variable {f : α → Except ε β}

theorem mapM_eq_error {e : ε} (h : xs.mapM f = .error e) : ∃ x ∈ xs, f x = .error e := by
  induction xs with
  | nil => cases h
  | cons x xs ih =>
    rw [mapM_cons] at h
    rcases Except.bind_eq_error.mp h with hx | ⟨y,-,h⟩
    · exact ⟨x,mem_cons_self,hx⟩
    rcases Except.bind_eq_error.mp h with hxs | ⟨ys,-,h⟩
    · obtain ⟨z,hz,he⟩ := ih hxs
      exact ⟨z,mem_cons_of_mem _ hz,he⟩
    · cases h

theorem exists_mapM_forall₂ {r : α → β → Prop}
    (h : ∀ x ∈ xs, ∃ y, f x = .ok y ∧ r x y) : ∃ ys, xs.mapM f = .ok ys ∧ Forall₂ r xs ys := by
  induction xs with
  | nil => exact ⟨[],rfl,.nil⟩
  | cons x xs ih =>
    obtain ⟨y,hy,hxy⟩ := h x mem_cons_self
    obtain ⟨ys,hr,hys⟩ := ih fun z hz => h z (.tail _ hz)
    refine ⟨y :: ys,?_,.cons hxy hys⟩
    rw [mapM_cons,hy,hr]
    rfl

theorem exists_of_mem_mapM {ys : List β}
    (h : xs.mapM f = .ok ys) {y : β} (hy : y ∈ ys) : ∃ x ∈ xs, f x = .ok y := by
  induction xs generalizing ys with
  | nil =>
    cases h
    cases hy
  | cons x xs ih =>
    rw [mapM_cons] at h
    obtain ⟨z,hz,h⟩ := Except.of_bind h
    obtain ⟨zs,hzs,h⟩ := Except.of_bind h
    cases h
    rcases mem_cons.mp hy with rfl | hy
    · exact ⟨x,mem_cons_self,hz⟩
    · obtain ⟨x',hx',hf⟩ := ih hzs hy
      exact ⟨x',mem_cons_of_mem _ hx',hf⟩

theorem map_eq_of_mapM {γ : Type} {g : β → γ} {k : α → γ}
    {ys : List β} (hf : ∀ x y, f x = .ok y → g y = k x) (h : xs.mapM f = .ok ys) :
    ys.map g = xs.map k := by
  induction xs generalizing ys with
  | nil =>
    obtain rfl : ys = [] := by simpa [pure,Except.pure,eq_comm] using h
    rfl
  | cons x xs ih =>
    rw [mapM_cons] at h
    obtain ⟨y,hy,h⟩ := Except.of_bind h
    obtain ⟨zs,hzs,h⟩ := Except.of_bind h
    cases h
    rw [map_cons,map_cons,hf x y hy,ih hzs]

theorem mapM_eq_ok_map {g : α → β} (h : ∀ x ∈ xs, f x = .ok (g x)) :
    xs.mapM f = .ok (xs.map g) := by
  induction xs with
  | nil => rfl
  | cons x xs ih =>
    rw [mapM_cons,h x mem_cons_self,ih fun y hy => h y (.tail _ hy)]
    rfl

theorem mapM_map_ok {get : β → Except ε α} {key : α → β}
    (h : ∀ x ∈ xs, get (key x) = .ok x) : (xs.map key).mapM get = .ok xs := by
  rw [mapM_map]
  exact (mapM_eq_ok_map h).trans (congrArg _ (map_id' xs))

theorem findSomeM?_eq_ok {f : α → Except ε (Option β)} {g : α → Option β}
    (h : ∀ x ∈ xs, f x = .ok (g x)) : xs.findSomeM? f = .ok (xs.findSome? g) := by
  induction xs with
  | nil => rfl
  | cons x xs ih =>
    have hr := ih fun y hy => h y (.tail _ hy)
    rw [findSomeM?_cons,h x mem_cons_self,findSome?_cons]
    cases g x with
    | none => exact hr
    | some y => rfl

end List
