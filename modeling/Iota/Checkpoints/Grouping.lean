import Iota.Checkpoints.Complete
import Iota.Lib.Run

/-! What a builder creates next is a function of what it has built and of the pending checkpoints,
however many of these have arrived. -/
namespace Iota.Checkpoints
open Except
open Std (ExtTreeMap)
open Iota.Authority
namespace Builder
variable {env : BuilderEnv} {pendings : List PendingCheckpoint} {scores : List Nat}

/-- The first group, its last pending checkpoint and those after it. -/
def firstGroup (env : BuilderEnv) (lastTimestamp : Option Nat) :
    List PendingCheckpoint → List PendingCheckpoint →
      Option (List PendingCheckpoint × PendingCheckpoint × List PendingCheckpoint)
  | [], _ => none
  | pending :: rest, grouped =>
    if canBuild env lastTimestamp pending rest.head? then some (grouped ++ [pending],pending,rest)
    else firstGroup env lastTimestamp rest (grouped ++ [pending])

variable {lastTimestamp : Option Nat} {last : PendingCheckpoint}
variable {l grouped group rest : List PendingCheckpoint}

theorem firstGroup_split (h : firstGroup env lastTimestamp l grouped = some (group,last,rest)) :
    ∃ front, l = front ++ last :: rest ∧ group = grouped ++ front ++ [last] := by
  induction l generalizing grouped with
  | nil => cases h
  | cons pending l ih =>
    unfold firstGroup at h
    split at h
    · cases h
      exact ⟨[],rfl,by simp⟩
    · obtain ⟨front,rfl,rfl⟩ := ih h
      exact ⟨pending :: front,rfl,by simp⟩

theorem firstGroup_mem
    (h : firstGroup env lastTimestamp l grouped = some (group,last,rest)) : last ∈ l := by
  obtain ⟨front,rfl,-⟩ := firstGroup_split h
  simp

theorem firstGroup_of_prefix {l l' grouped group rest : List PendingCheckpoint}
    (hp : l <+: l') (h : firstGroup env lastTimestamp l grouped = some (group,last,rest)) :
    ∃ rest', firstGroup env lastTimestamp l' grouped = some (group,last,rest') := by
  induction l generalizing l' grouped with
  | nil => cases h
  | cons pending l ih =>
    obtain ⟨more,rfl⟩ := hp
    rw [List.cons_append]
    unfold firstGroup at h ⊢
    split at h
    · next hc =>
      have hc' : canBuild env lastTimestamp pending (l ++ more).head? = true := by
        cases l with
        | nil =>
          simp only [canBuild,List.head?_nil,Option.any_none,Bool.or_false,
            Bool.or_eq_true] at hc
          simp only [canBuild,Bool.or_eq_true]
          obtain hd | hl := hc
          · exact .inl (.inl hd)
          · exact .inr hl
        | cons next l => exact hc
      rw [if_pos hc']
      cases h
      exact ⟨_,rfl⟩
    · next hc =>
      cases l with
      | nil => cases h
      | cons next l =>
        have hc' : ¬ canBuild env lastTimestamp pending (next :: l ++ more).head? = true := hc
        rw [if_neg hc']
        exact ih (List.prefix_append _ _) h

theorem buildLoop_eq (w : WakeUp) (l : List PendingCheckpoint) (lastTimestamp : Option Nat)
    (grouped : List PendingCheckpoint) (builds : Nat) (b : Builder) :
    buildLoop env w l lastTimestamp grouped builds b =
      match firstGroup env lastTimestamp l grouped with
      | none => .ok b
      | some (group,last,rest) =>
        match builds with
        | 0 =>
          if w.written then
            (b.createCheckpoints env w group last.details).mapError .create >>= b.writeComputed
          else .ok b
        | builds+1 =>
          b.makeCheckpoint env w group last.details >>=
            buildLoop env w rest (some last.details.timestampMs) [] builds := by
  induction l generalizing grouped with
  | nil => rfl
  | cons pending l ih =>
    unfold buildLoop firstGroup
    split
    · rfl
    · exact ih _

def ofBuilt (built : List BuiltCheckpoint) : Builder := ⟨built,0,∅⟩

def wakeUpOf (order : HashOrder) (scores : List Nat) : WakeUp := ⟨0,0,false,order,scores⟩

theorem createFrom_scores {scores scores' : List Nat} (h : env.scoresOf scores = env.scoresOf scores')
    (details : PendingCheckpointInfo) (last : Option CheckpointSummary)
    (chunks : List (List TransactionEffects)) :
    env.createFrom scores details last chunks = env.createFrom scores' details last chunks := by
  induction chunks generalizing last with
  | nil => rfl
  | cons chunk rest ih =>
    have ho : env.createCheckpoint scores details last rest.isEmpty chunk =
        env.createCheckpoint scores' details last rest.isEmpty chunk := by
      unfold BuilderEnv.createCheckpoint
      rw [h]
    unfold BuilderEnv.createFrom
    rw [ho]
    exact congrArg _ (ih _)

theorem createCheckpoints_congr {b b' : Builder} {w w' : WakeUp} {group : List PendingCheckpoint}
    {details : PendingCheckpointInfo} {created created' : List (CheckpointSummary × CheckpointContents)}
    (hb : b.built = b'.built) (hsc : env.scoresOf w.currentScores = env.scoresOf w'.currentScores)
    (hok : b.createCheckpoints env w group details = .ok created)
    (hok' : b'.createCheckpoints env w' group details = .ok created') : created = created' := by
  have hi : b.included = b'.included := by
    funext d
    rw [included,included,hb]
  obtain ⟨sorted,hs,hok⟩ := of_bind hok
  obtain ⟨sorted',hs',hok'⟩ := of_bind hok'
  obtain ⟨last,hl,hok⟩ := of_bind hok
  obtain ⟨last',hl',hok'⟩ := of_bind hok'
  cases hok
  cases hok'
  rw [hi] at hs
  rw [loadLastBuiltCheckpointSummary,hb] at hl
  cases hl.symm.trans hl'
  rw [resolveAll_congr (fun _ => Iff.rfl) hs hs',createFrom_scores hsc]

/-- The built checkpoints of a group, as the builder keeps them. -/
def entries (height : CheckpointHeight) (created : List (CheckpointSummary × CheckpointContents)) :
    List BuiltCheckpoint :=
  created.zipIdx.map fun c => ⟨⟨c.1.1,some height,c.2⟩,c.1.2⟩

/-- One group further, when all pending checkpoints have arrived. -/
def Advances (env : BuilderEnv) (pendings : List PendingCheckpoint) (scores : List Nat)
    (c c' : List BuiltCheckpoint) : Prop :=
  ∃ group last rest order created,
    firstGroup env (ofBuilt c).lastTimestamp
      (getPendingCheckpoints pendings (ofBuilt c).lastHeight) [] = some (group,last,rest) ∧
    (ofBuilt c).createCheckpoints env (wakeUpOf order scores) group last.details = .ok created ∧
    c' = c ++ entries last.height created

theorem advances_rightUnique : Relator.RightUnique (Advances env pendings scores) := by
  rintro c - - ⟨group,last,rest,order,created,hg,hc,rfl⟩
    ⟨group',last',rest',order',created',hg',hc',rfl⟩
  rw [hg] at hg'
  cases hg'
  have hs : env.scoresOf (wakeUpOf order scores).currentScores =
    env.scoresOf (wakeUpOf order' scores).currentScores := rfl
  rw [createCheckpoints_congr rfl hs hc hc']

/-- What builders reach: group after group from the start of the epoch. -/
def Chain (env : BuilderEnv) (pendings : List PendingCheckpoint) (scores : List Nat)
    (c : List BuiltCheckpoint) : Prop :=
  Relation.ReflTransGen (Advances env pendings scores) env.genesis.toList c

theorem prefix_of_advances {c c' : List BuiltCheckpoint}
    (h : Relation.ReflTransGen (Advances env pendings scores) c c') : c <+: c' := by
  induction h with
  | refl => exact List.prefix_rfl
  | tail _ hs ih =>
    obtain ⟨group,-,-,-,-,-,-,rfl⟩ := hs
    exact ih.trans (List.prefix_append _ _)

theorem Chain.comparable {c c' : List BuiltCheckpoint} (h : Chain env pendings scores c)
    (h' : Chain env pendings scores c') : c <+: c' ∨ c' <+: c := by
  obtain h | h := Relation.ReflTransGen.total_of_right_unique advances_rightUnique h h'
  · exact .inl (prefix_of_advances h)
  · exact .inr (prefix_of_advances h)

end Builder
end Iota.Checkpoints
