/-! The parts of a certificate that consensus reads before it is executed. -/
namespace Iota

abbrev ObjectID := Nat
abbrev TransactionDigest := Nat
abbrev CommitRound := Nat

/-- An assertion, an `expect` or a checked operation of the source fails. -/
inductive Panic
  | panic
deriving DecidableEq, Repr

structure SharedInputObject where
  id : ObjectID
  initialSharedVersion : Nat
  mutable : Bool
deriving DecidableEq, Repr

structure Certificate where
  digest : TransactionDigest
  gasBudget : Nat
  gasPrice : Nat
  sharedInputObjects : List SharedInputObject
deriving DecidableEq, Repr

namespace Certificate

/-- The shared objects a certificate takes by mutable reference. -/
def mutableInputs (cert : Certificate) : List ObjectID :=
  (cert.sharedInputObjects.filter SharedInputObject.mutable).map SharedInputObject.id

/-- The shared inputs of a certificate are distinct objects. -/
def DistinctInputs (cert : Certificate) : Prop :=
  (cert.sharedInputObjects.map SharedInputObject.id).Nodup

end Certificate
end Iota
