import Iota.Lib.Except

/-! The states a machine reaches when each step is allowed in the state it is taken in. -/
namespace Machine
variable {σ ι ε : Type}

inductive Reached (init : σ → Prop) (step : σ → ι → Except ε σ) (allowed : σ → ι → Prop) : σ → Prop
  | init {s} : init s → Reached init step allowed s
  | step {s i s'} : Reached init step allowed s → allowed s i → step s i = .ok s' →
      Reached init step allowed s'

variable {init : σ → Prop} {step : σ → ι → Except ε σ} {allowed : σ → ι → Prop}

theorem Reached.invariant {inv : σ → Prop} (hi : ∀ s, init s → inv s)
    (hst : ∀ s i s', inv s → allowed s i → step s i = .ok s' → inv s') {s : σ}
    (hs : Reached init step allowed s) : inv s := by
  induction hs with
  | init h => exact hi _ h
  | step _ ha hs ih => exact hst _ _ _ ih ha hs

theorem Reached.foldlM {is : List ι} (ha : ∀ i ∈ is, ∀ s, allowed s i) {s s' : σ}
    (hs : Reached init step allowed s) (h : is.foldlM step s = .ok s') :
    Reached init step allowed s' :=
  List.foldlM_ok_inv (fun i hi s _ hs hst => .step hs (ha i hi s) hst) hs h

end Machine
