import Iota.Starfish.Commit

/-! The configuration of an epoch and the genesis headers. -/
namespace Iota.Starfish

structure ProtocolConfig where
  gcDepth : Nat
  consensusFastCommitSync : Bool
  consensusCommitTransactionsOnlyForTraversedHeaders : Bool
  maxAcknowledgmentsPerBlock : Nat
  badNodesStakeThreshold : Nat
  /-- Asserted where the fast commit sync flag is read. -/
  fastSync_traversed : consensusFastCommitSync = true →
    consensusCommitTransactionsOnlyForTraversedHeaders = true

/-- What the authorities of an epoch have in common. Hashing, signature checking and the seeded
random choices of the leader schedule are third-party and enter as functions. -/
structure Context where
  epochStartTimestampMs : Nat
  committee : Committee
  protocolConfig : ProtocolConfig
  hash : SignedBlockHeader → Nat
  hashCommit : Commit → Nat
  verifySignature : SignedBlockHeader → Bool
  /-- Weighted choice of a leader seeded by the round, with the leader offset. -/
  electLeaderStakeBased : Nat → Nat → Nat
  /-- Shuffle seeded by a commit index. -/
  shuffle : Nat → List (Nat × Nat) → List (Nat × Nat)
  /-- Choice among the good nodes seeded by round and leader offset. -/
  choose : Nat → Nat → List Nat → Nat

namespace Context
variable (ctx : Context)

def genesisBlockHeader (author : Nat) : BlockHeader where
  epoch := ctx.committee.epoch
  round := genesisRound
  author := author
  timestampMs := ctx.epochStartTimestampMs
  references := []
  overlapStartIndex := 0
  overlapEndIndex := 0
  transactionsCommitment := 0
  commitVotes := []

def genesisHeader (author : Nat) : VerifiedBlockHeader where
  signed := ⟨ctx.genesisBlockHeader author,0⟩
  digest := ctx.hash ⟨ctx.genesisBlockHeader author,0⟩
  inRange := Nat.le_refl 0

def genesisHeaders : List VerifiedBlockHeader :=
  (List.range ctx.committee.size).map ctx.genesisHeader

theorem mem_genesisHeaders {h : VerifiedBlockHeader} :
    h ∈ ctx.genesisHeaders ↔ ∃ a < ctx.committee.size, ctx.genesisHeader a = h := by
  simp [genesisHeaders]

end Context
end Iota.Starfish
