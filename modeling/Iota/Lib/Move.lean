import Iota.Lib.Except

/-! The checked operations of the Move virtual machine on `u64` and on vectors. An operation that
leaves its range aborts the transaction. Products and quotients taken in `u128` cannot overflow
there, so they are plain operations on naturals followed by a cast. -/
namespace Move

/-- Why a transaction aborts: an error of the machine or of the standard library, or an error code
`e` of a module. -/
inductive Abort (ε : Type)
  | underflow
  | overflow
  | divisionByZero
  | vectorIndex
  | dynamicField
  | keyAlreadyExists
  | keyDoesNotExist
  | code (e : ε)
deriving DecidableEq, Repr

variable {ε α β σ : Type}

def add (a b : Nat) : Except (Abort ε) Nat :=
  if a + b < 2 ^ 64 then .ok (a + b) else .error .overflow

def sub (a b : Nat) : Except (Abort ε) Nat :=
  if b ≤ a then .ok (a - b) else .error .underflow

def div (a b : Nat) : Except (Abort ε) Nat :=
  if b = 0 then .error .divisionByZero else .ok (a / b)

def castU64 (a : Nat) : Except (Abort ε) Nat :=
  if a < 2 ^ 64 then .ok a else .error .overflow

def divideAndRoundUp (a b : Nat) : Except (Abort ε) Nat :=
  if b = 0 then .error .divisionByZero
  else if a % b = 0 then .ok (a / b) else .ok (a / b + 1)

def assert (p : Prop) [Decidable p] (e : ε) : Except (Abort ε) Unit :=
  if p then .ok () else .error (.code e)

def get (v : List α) (i : Nat) : Except (Abort ε) α :=
  match v[i]? with
  | some x => .ok x
  | none => .error .vectorIndex

def set (v : List α) (i : Nat) (x : α) : Except (Abort ε) (List α) :=
  if i < v.length then .ok (v.set i x) else .error .vectorIndex

def modify (v : List α) (i : Nat) (f : α → Except (Abort ε) α) : Except (Abort ε) (List α) := do
  let x ← get v i
  let y ← f x
  set v i y

def remove (v : List α) (i : Nat) : Except (Abort ε) (α × List α) :=
  match v[i]? with
  | some x => .ok (x,v.eraseIdx i)
  | none => .error .vectorIndex

section Equations

theorem add_eq_ok {a b c : Nat} : (add a b : Except (Abort ε) Nat) = .ok c ↔
    a + b < 2 ^ 64 ∧ a + b = c := by
  unfold add
  split <;> simp_all

/-- A loop that adds a weight of each element comes to the sum when that fits. -/
theorem foldlM_add {f : Nat → α → Except (Abort ε) Nat} {w : α → Nat} {xs : List α}
    (hst : ∀ x ∈ xs, ∀ sum, f sum x = add sum (w x)) (sum : Nat)
    (hb : sum + (xs.map w).sum < 2 ^ 64) : xs.foldlM f sum = .ok (sum + (xs.map w).sum) := by
  induction xs generalizing sum with
  | nil => rfl
  | cons x xs ih =>
    rw [List.map_cons,List.sum_cons] at hb ⊢
    have ha : (add sum (w x) : Except (Abort ε) Nat) = .ok (sum + w x) :=
      add_eq_ok.mpr ⟨by omega,rfl⟩
    rw [List.foldlM_cons,hst x List.mem_cons_self,ha,Except.ok_bind,
      ih (fun y hy => hst y (.tail _ hy)) _ (by omega),Nat.add_assoc]

theorem sub_eq_ok {a b c : Nat} : (sub a b : Except (Abort ε) Nat) = .ok c ↔
    b ≤ a ∧ a - b = c := by
  unfold sub
  split <;> simp_all

theorem div_eq_ok {a b c : Nat} : (div a b : Except (Abort ε) Nat) = .ok c ↔
    b ≠ 0 ∧ a / b = c := by
  unfold div
  split <;> simp_all

theorem castU64_eq_ok {a b : Nat} : (castU64 a : Except (Abort ε) Nat) = .ok b ↔
    a < 2 ^ 64 ∧ a = b := by
  unfold castU64
  split <;> simp_all

theorem assert_eq_ok {p : Prop} [Decidable p] {e : ε} {u : Unit} : assert p e = .ok u ↔ p := by
  unfold assert
  split <;> simp_all

theorem get_eq_ok {v : List α} {i : Nat} {x : α} :
    (get v i : Except (Abort ε) α) = .ok x ↔ v[i]? = some x := by
  unfold get
  cases v[i]? <;> simp

theorem set_eq_ok {v w : List α} {i : Nat} {x : α} :
    (set v i x : Except (Abort ε) (List α)) = .ok w ↔ i < v.length ∧ v.set i x = w := by
  unfold set
  split <;> simp_all

theorem remove_eq_ok {v w : List α} {i : Nat} {x : α} :
    (remove v i : Except (Abort ε) (α × List α)) = .ok (x,w) ↔
      v[i]? = some x ∧ v.eraseIdx i = w := by
  unfold remove
  cases v[i]? <;> simp

theorem remove_perm {v w : List α} {i : Nat} {x : α}
    (h : (remove v i : Except (Abort ε) (α × List α)) = .ok (x,w)) : v.Perm (x :: w) := by
  obtain ⟨hx,rfl⟩ := remove_eq_ok.mp h
  obtain ⟨hi,rfl⟩ := List.getElem?_eq_some_iff.mp hx
  exact (List.getElem_cons_eraseIdx_perm hi).symm

end Equations

section Rules

/-- The abort of an amount that leaves the range of `u64`. -/
def Overflows (e : Abort ε) : Prop := e = .overflow

theorem add_satisfies (a b : Nat) :
    (add a b : Except (Abort ε) Nat).Satisfies Overflows (fun c => c = a + b) := by
  unfold add
  split
  · exact rfl
  · exact rfl

theorem castU64_satisfies (a : Nat) :
    (castU64 a : Except (Abort ε) Nat).Satisfies Overflows (fun c => c = a ∧ a < 2 ^ 64) := by
  unfold castU64
  split
  · exact ⟨rfl,‹_›⟩
  · exact rfl

theorem sub_ok {a b : Nat} (h : b ≤ a) : (sub a b : Except (Abort ε) Nat) = .ok (a - b) :=
  sub_eq_ok.mpr ⟨h,rfl⟩

theorem assert_ok {p : Prop} [Decidable p] {e : ε} (h : p) : assert p e = .ok () :=
  assert_eq_ok.mpr h

end Rules
end Move
