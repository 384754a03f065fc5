import Iota.Starfish.DagState.Write

/-! Leaders are drawn by stake for each round; a leader among the worst scorers of the last window
is replaced by one of the best. -/
namespace Iota.Starfish

/-- `LeaderSwapTable`, without the host names and stakes kept for debugging. -/
structure LeaderSwapTable where
  goodNodes : List Nat
  badNodes : List Nat
  reputationScoresDesc : List (Nat × Nat)
  reputationScores : ReputationScores
deriving DecidableEq, Repr

namespace LeaderSwapTable

def default : LeaderSwapTable := ⟨[],[],[],⟨[],⟨0,0⟩⟩⟩

/-- The authorities up to the first that takes the accumulated stake above the threshold. -/
def retrieveFirstNodes (c : Committee) (stakeThreshold : Nat) :
    List (Nat × Nat) → Nat → List Nat
  | [], _ => []
  | (a,_) :: rest, stake =>
    if stakeThreshold * c.totalStake / 100 < stake + c.stake a then []
    else a :: retrieveFirstNodes c stakeThreshold rest (stake + c.stake a)

def new (ctx : Context) (commitIndex : Nat) (scores : ReputationScores) :
    Except Panic LeaderSwapTable :=
  let threshold := ctx.protocolConfig.badNodesStakeThreshold
  if 33 < threshold then .error .swapThresholdOutOfRange
  else if scores.scoresPerAuthority = [] then .ok default
  else if scores.scoresPerAuthority.length ≠ ctx.committee.size then
    .error .scoresPerAuthorityLength
  else
    -- shuffled before a stable sort, so that equal scores are in random order
    let byScore := (ctx.shuffle commitIndex scores.authoritiesByScore).insertionSort
      fun a b => b.2 ≤ a.2
    .ok ⟨retrieveFirstNodes ctx.committee threshold byScore 0,
      retrieveFirstNodes ctx.committee threshold byScore.reverse 0,byScore,scores⟩

def swap (ctx : Context) (table : LeaderSwapTable) (leader leaderRound leaderOffset : Nat) :
    Except Panic (Option Nat) :=
  if leader ∈ table.badNodes then
    if leaderOffset ≠ 0 then .error .multiLeaderSwap
    else if table.goodNodes = [] then .error .noGoodNode
    else .ok (some (ctx.choose leaderRound leaderOffset table.goodNodes))
  else .ok none

end LeaderSwapTable

def consensusCommitsPerSchedule : Nat := 300

structure LeaderSchedule where
  leaderSwapTable : LeaderSwapTable
  numCommitsPerSchedule : Nat
deriving DecidableEq, Repr

namespace LeaderSchedule

def new (table : LeaderSwapTable) : LeaderSchedule := ⟨table,consensusCommitsPerSchedule⟩

def recoverLeaderSwapTable (ctx : Context) (store : Store) : Except Panic LeaderSwapTable :=
  match store.readLastCommitInfo with
  | none => .ok .default
  | some (ref,info) =>
    let last := info.reputationScores.commitRange.last
    LeaderSwapTable.new ctx (if last = genesisCommitIndex then ref.index else last)
      info.reputationScores

def fromStore (ctx : Context) (store : Store) : Except Panic LeaderSchedule :=
  (recoverLeaderSwapTable ctx store).map new

variable {ctx : Context} (schedule : LeaderSchedule)

def reinitializeTable (s : DagState ctx) : Except Panic LeaderSchedule :=
  (recoverLeaderSwapTable ctx s.store).map fun table => { schedule with leaderSwapTable := table }

def commitsUntilLeaderScheduleUpdate (s : DagState ctx) : Nat :=
  schedule.numCommitsPerSchedule - s.scoringSubdag.scoredSubdagsCount

def leaderScheduleUpdated (s : DagState ctx) : Bool := s.scoringSubdag.isEmpty

def electLeader (ctx : Context) (round leaderOffset : Nat) : Except Panic Nat := do
  let leader := ctx.electLeaderStakeBased round leaderOffset
  let swapped ← schedule.leaderSwapTable.swap ctx leader round leaderOffset
  .ok (swapped.getD leader)

/-- A new table follows the range of the old one, unless that is the default range. -/
def rangeValidation (new old : LeaderSwapTable) : Except Panic Unit :=
  let oldRange := old.reputationScores.commitRange
  let newRange := new.reputationScores.commitRange
  if oldRange ≠ ⟨0,0⟩ ∧ ¬(oldRange.isNextRange newRange ∧ oldRange.isEqualSize newRange) then
    .error .invalidCommitRange
  else .ok ()

def persistScores (s : DagState ctx) (scores : ReputationScores) : Except Panic (DagState ctx) :=
  s.clearScoringSubdag.addCommitInfo scores

def updateLeaderSchedule (s : DagState ctx) : Except Panic (LeaderSchedule × DagState ctx) := do
  let scores ← s.scoringSubdag.calculateDistributedVoteScores
  let table ← LeaderSwapTable.new ctx scores.commitRange.last scores
  let s ← persistScores s scores
  rangeValidation table schedule.leaderSwapTable
  .ok ({ schedule with leaderSwapTable := table },s)

/-- Update from the scores a commit carries, used by fast sync. They are those of the window that
ends before the commit. -/
def updateFromCommitScores (s : DagState ctx) (commitIndex : Nat) (scoresDesc : List (Nat × Nat)) :
    Except Panic (LeaderSchedule × DagState ctx) :=
  let rangeEnd := commitIndex - 1
  if rangeEnd = genesisCommitIndex then .ok (schedule,s)
  else if rangeEnd ≤ s.lastCommitInfoIndex then .ok (schedule,s)
  else do
    let range := CommitRange.new (rangeEnd - (schedule.numCommitsPerSchedule - 1)) rangeEnd
    let scores ← ReputationScores.fromScoresDesc ctx.committee.size range scoresDesc
    let table ← LeaderSwapTable.new ctx rangeEnd scores
    let s ← persistScores s scores
    .ok ({ schedule with leaderSwapTable := table },s)

end LeaderSchedule
end Iota.Starfish
