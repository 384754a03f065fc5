import Iota.Lib.Run
import Iota.Types.Basic

/-! A peer that sends invalid signatures is no longer allowed, as long as the shares of the ignored
peers stay within a bound. The fields of the event loop that decide about this are written by
`update_epoch` and `maybe_ignore_byzantine_peer` only. -/
namespace Iota.Network
open Except
open Std (ExtTreeMap)

/-- What is read of the output of the key generation of an epoch. -/
structure DkgOutput where
  shareIdsOf : Nat → Option (List Nat)
  totalWeight : Nat

structure RandomnessEventLoop where
  epoch : Nat
  allowedPeersSet : Finset Nat
  peerShareIds : Option (ExtTreeMap Nat (List Nat))
  blockedShareIdCount : Nat
  dkgOutput : Option DkgOutput

inductive RandomnessMessage
  /-- The authorities of the new epoch are given by their peers and parties. -/
  | updateEpoch (newEpoch : Nat) (authorityInfo : List (Nat × Nat)) (dkgOutput : DkgOutput)
  | maybeIgnoreByzantinePeer (epoch peerId : Nat)
  /-- A message about rounds and signatures, which leaves the fields alone. -/
  | aboutRounds

namespace RandomnessEventLoop

def new : RandomnessEventLoop := ⟨0,∅,none,0,none⟩

variable (s : RandomnessEventLoop)

def shareTable (dkgOutput : DkgOutput) (authorityInfo : List (Nat × Nat)) :
    Except Panic (ExtTreeMap Nat (List Nat)) :=
  authorityInfo.foldlM (fun acc (peerId,partyId) =>
    match dkgOutput.shareIdsOf partyId with
    | some ids => .ok (acc.insert peerId ids)
    | none => .error .panic) ∅

def updateEpoch (newEpoch : Nat) (authorityInfo : List (Nat × Nat)) (dkgOutput : DkgOutput) :
    Except Panic RandomnessEventLoop := do
  if s.dkgOutput.isSome && newEpoch ≤ s.epoch then .error .panic
  let peerShareIds ← shareTable dkgOutput authorityInfo
  .ok { s with
    peerShareIds := some peerShareIds
    allowedPeersSet := (authorityInfo.map Prod.fst).toFinset
    epoch := newEpoch
    dkgOutput := some dkgOutput }

/-- `maxIgnored` is the share of the total weight that may be ignored. -/
def maybeIgnoreByzantinePeer (maxIgnored : Nat → Nat) (epoch peerId : Nat) :
    RandomnessEventLoop :=
  if epoch ≠ s.epoch then s
  else match s.dkgOutput with
    | none => s
    | some dkgOutput =>
      if peerId ∉ s.allowedPeersSet then s
      else match s.peerShareIds.bind (·[peerId]?) with
        | none => s
        | some peerShares =>
          if maxIgnored dkgOutput.totalWeight < s.blockedShareIdCount + peerShares.length then s
          else { s with
            blockedShareIdCount := s.blockedShareIdCount + peerShares.length
            allowedPeersSet := s.allowedPeersSet.erase peerId }

def handleMessage (maxIgnored : Nat → Nat) : RandomnessMessage → Except Panic RandomnessEventLoop
  | .updateEpoch newEpoch authorityInfo dkgOutput =>
    s.updateEpoch newEpoch authorityInfo dkgOutput
  | .maybeIgnoreByzantinePeer epoch peerId =>
    .ok (s.maybeIgnoreByzantinePeer maxIgnored epoch peerId)
  | .aboutRounds => .ok s

def sharesOf (peerId : Nat) : Nat := ((s.peerShareIds.bind (·[peerId]?)).getD []).length

/-- The peers of the current committee that are not allowed. -/
def ignoredPeers : Finset Nat := (s.peerShareIds.getD ∅).keys.toFinset \ s.allowedPeersSet

def ignoredShares : Nat := ∑ peerId ∈ s.ignoredPeers, s.sharesOf peerId

def NoneBlocked : RandomnessMessage → Prop
  | .updateEpoch .. => s.blockedShareIdCount = 0
  | _ => True

variable {s} {s' : RandomnessEventLoop} {maxIgnored : Nat → Nat} {authorityInfo : List (Nat × Nat)}

theorem mem_of_shareTable {dkgOutput : DkgOutput}
    {table : ExtTreeMap Nat (List Nat)} (h : shareTable dkgOutput authorityInfo = .ok table) :
    ∀ peerId ∈ table, peerId ∈ authorityInfo.map Prod.fst := by
  unfold shareTable at h
  refine List.foldlM_keeps (fun table : ExtTreeMap Nat (List Nat) =>
    ∀ peerId ∈ table, peerId ∈ authorityInfo.map Prod.fst) ?_
    (fun _ hm => absurd hm ExtTreeMap.not_mem_empty) h
  rintro ⟨peerId,partyId⟩ hm acc acc' ha hs other ho
  dsimp only at hs
  split at hs
  · cases hs
    rcases ExtTreeMap.mem_insert.mp ho with heq | hol
    · cases compare_eq_iff_eq.mp heq
      exact List.mem_map_of_mem hm
    · exact ha other hol
  · cases hs

theorem updateEpoch_ignoredShares {newEpoch : Nat}
    {dkgOutput : DkgOutput} (h : s.updateEpoch newEpoch authorityInfo dkgOutput = .ok s') :
    s'.ignoredShares = 0 ∧ s'.blockedShareIdCount = s.blockedShareIdCount := by
  unfold updateEpoch at h
  split at h
  · cases h
  obtain ⟨table,ht,h⟩ := of_bind h
  cases h
  refine ⟨?_,rfl⟩
  have hn : (table.keys.toFinset \ (authorityInfo.map Prod.fst).toFinset) = ∅ := by
    rw [Finset.sdiff_eq_empty_iff_subset]
    intro peerId hp
    rw [List.mem_toFinset] at hp ⊢
    exact mem_of_shareTable ht peerId (ExtTreeMap.mem_keys.mp hp)
  rw [ignoredShares,ignoredPeers,Option.getD_some,hn,Finset.sum_empty]

theorem ignoredShares_erase {peerId : Nat} {shares : List Nat} {blocked : Nat}
    (hs : s.peerShareIds.bind (·[peerId]?) = some shares) (hm : peerId ∈ s.allowedPeersSet) :
    ignoredShares { s with
      blockedShareIdCount := blocked
      allowedPeersSet := s.allowedPeersSet.erase peerId } = s.ignoredShares + shares.length := by
  obtain ⟨table,ht,hg⟩ := Option.bind_eq_some_iff.mp hs
  have hk : peerId ∈ (s.peerShareIds.getD ∅).keys.toFinset := by
    rw [ht,Option.getD_some,List.mem_toFinset,ExtTreeMap.mem_keys]
    exact ExtTreeMap.mem_iff_isSome_getElem?.mpr (hg ▸ rfl)
  have hl : s.sharesOf peerId = shares.length := by rw [sharesOf,hs,Option.getD_some]
  unfold ignoredShares ignoredPeers
  rw [Finset.sdiff_erase hk,Finset.sum_insert (by simp [hm]),Nat.add_comm,← hl]
  rfl

theorem handleMessage_exact {message : RandomnessMessage}
    (h : s.blockedShareIdCount = s.ignoredShares) (hn : s.NoneBlocked message)
    (hs : s.handleMessage maxIgnored message = .ok s') :
    s'.blockedShareIdCount = s'.ignoredShares := by
  cases message with
  | updateEpoch newEpoch authorityInfo dkgOutput =>
    obtain ⟨hz,hsm⟩ := updateEpoch_ignoredShares hs
    rw [hz,hsm]
    exact hn
  | aboutRounds =>
    cases hs
    exact h
  | maybeIgnoreByzantinePeer epoch peerId =>
    cases hs
    unfold maybeIgnoreByzantinePeer
    split
    · exact h
    split
    · exact h
    split
    · exact h
    · next hm =>
      split
      · exact h
      · next shares hsh =>
        split
        · exact h
        · rw [ignoredShares_erase hsh (not_not.mp hm),← h]

/-- In every run in which no peer is blocked when an epoch changes, the count is that of the ignored
shares of the current committee, and a peer stays allowed only if ignoring it would exceed the
bound. -/
theorem blocked_shares_exact
    (h : Machine.Reached (· = new) (fun s => s.handleMessage maxIgnored) NoneBlocked s) :
    s.blockedShareIdCount = s.ignoredShares ∧
      ∀ dkgOutput peerId shares, s.dkgOutput = some dkgOutput →
        s.peerShareIds.bind (·[peerId]?) = some shares →
        peerId ∈ (s.maybeIgnoreByzantinePeer maxIgnored s.epoch peerId).allowedPeersSet →
        maxIgnored dkgOutput.totalWeight < s.ignoredShares + shares.length := by
  have he : s.blockedShareIdCount = s.ignoredShares :=
    h.invariant (fun _ hnw => hnw ▸ rfl) fun _ _ _ hs hn hst => handleMessage_exact hs hn hst
  refine ⟨he,fun dkgOutput peerId shares hd hsh hm => ?_⟩
  by_contra hle
  unfold maybeIgnoreByzantinePeer at hm
  by_cases ho : peerId ∈ s.allowedPeersSet
  · simp [hd,ho,hsh,he,hle] at hm
  · simp [hd,ho] at hm

/-- Two shares for each party; half of the weight may be ignored. -/
def twoShares : DkgOutput := ⟨fun _ => some [0,1],4⟩

theorem blocked_shares_exact_one :
    ∃ s, Machine.Reached (· = new) (fun s => s.handleMessage (· / 2)) NoneBlocked s ∧
      s.blockedShareIdCount = 2 ∧ s.ignoredShares = 2 := by
  obtain ⟨s1,h1,s,h2,ht⟩ : ∃ s1,
      new.handleMessage (· / 2) (.updateEpoch 1 [(1,0),(2,1)] twoShares) = .ok s1 ∧
      ∃ s, s1.handleMessage (· / 2) (.maybeIgnoreByzantinePeer 1 1) = .ok s ∧
        s.blockedShareIdCount = 2 := by decide +kernel
  have hr : Machine.Reached (· = new) (fun s => s.handleMessage (· / 2)) NoneBlocked s :=
    .step (.step (.init rfl) (by rfl) h1) (by trivial) h2
  exact ⟨s,hr,ht,(blocked_shares_exact hr).1.symm.trans ht⟩

/-- A peer blocked in the first epoch still counts in the second, where no other can be blocked. -/
theorem blocked_shares_kept_over_epochs :
    ∃ s, Machine.Reached (· = new) (fun s => s.handleMessage (· / 2)) (fun _ _ => True) s ∧
      s.blockedShareIdCount = 2 ∧ s.ignoredShares = 0 ∧
      2 ∈ (s.maybeIgnoreByzantinePeer (· / 2) s.epoch 2).allowedPeersSet := by
  obtain ⟨s,hr,hs⟩ : ∃ s, [.updateEpoch 1 [(1,0),(2,1)] twoShares,
        .maybeIgnoreByzantinePeer 1 1,.updateEpoch 2 [(1,0),(2,1)] twoShares].foldlM
        (fun s => s.handleMessage (· / 2)) new = .ok s ∧
      s.blockedShareIdCount = 2 ∧ s.ignoredShares = 0 ∧
      2 ∈ (s.maybeIgnoreByzantinePeer (· / 2) s.epoch 2).allowedPeersSet := by decide +kernel
  exact ⟨s,.foldlM (fun _ _ _ => trivial) (.init rfl) hr,hs⟩

end RandomnessEventLoop
end Iota.Network
