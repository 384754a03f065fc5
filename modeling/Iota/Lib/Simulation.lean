/-! Two machines are called with the same calls. A call that fails leaves the state as it was. -/
namespace Machine
variable {σ τ ι ρ ε : Type} {R : σ → τ → Prop} {f : σ → ι → Except ε (ρ × σ)}
  {g : τ → ι → Except ε (ρ × τ)}

/-- The same result, with states that are related after it. -/
inductive Agree (R : σ → τ → Prop) : Except ε (ρ × σ) → Except ε (ρ × τ) → Prop
  | ok {r s t} : R s t → Agree R (.ok (r,s)) (.ok (r,t))
  | error {e} : Agree R (.error e) (.error e)

def call (f : σ → ι → Except ε (ρ × σ)) (s : σ) (i : ι) : Except ε ρ × σ :=
  match f s i with
  | .ok (r,s) => (.ok r,s)
  | .error e => (.error e,s)

/-- The results of some calls, and the state after them. -/
def calls (f : σ → ι → Except ε (ρ × σ)) : σ → List ι → List (Except ε ρ) × σ
  | s, [] => ([],s)
  | s, i :: is => ((call f s i).1 :: (calls f (call f s i).2 is).1, (calls f (call f s i).2 is).2)

theorem call_agree {s : σ} {t : τ} {i : ι} (h : R s t) (ha : Agree R (f s i) (g t i)) :
    (call f s i).1 = (call g t i).1 ∧ R (call f s i).2 (call g t i).2 := by
  unfold call
  generalize f s i = x, g t i = y at ha
  cases ha with
  | ok hR => exact ⟨rfl,hR⟩
  | error => exact ⟨rfl,h⟩

theorem calls_agree (ha : ∀ s t i, R s t → Agree R (f s i) (g t i)) (is : List ι) {s : σ} {t : τ}
    (h : R s t) : (calls f s is).1 = (calls g t is).1 ∧ R (calls f s is).2 (calls g t is).2 := by
  induction is generalizing s t with
  | nil => exact ⟨rfl,h⟩
  | cons i is ih =>
    obtain ⟨hr,hR⟩ := call_agree h (ha s t i h)
    obtain ⟨hrs,hRs⟩ := ih hR
    exact ⟨by simp only [calls,hr,hrs],hRs⟩

end Machine
