import Iota.Network.StateSync.Authentic

/-! `verify_checkpoint` looks up the committee of the epoch that a summary claims before it checks
anything else about it. A summary of an epoch whose committee is not known stops the node; any other
one that cannot be accepted only ends the run. -/
namespace Iota
open Except
open Std (ExtTreeMap)

namespace Network

namespace StateSync
variable (crypto : Crypto) (pinned : PinnedCheckpoints)
  (signed : AuthorityName → CheckpointSummary → Prop) (committees : Nat → Committee)

variable {crypto pinned signed committees} {s : State} {opened : Nat}

variable {c : Checkpoint}

section Runs

theorem sole_sorted : (([(1,10000)] : List (AuthorityName × Nat)).map Prod.fst).Pairwise (· < ·) :=
  List.pairwise_singleton _ _

def soleCommittee (epoch : Nat) : Committee :=
  ⟨epoch,[(1,10000)],sole_sorted⟩

end Runs
end StateSync
end Network
end Iota
