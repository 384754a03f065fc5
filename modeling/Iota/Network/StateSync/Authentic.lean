import Iota.Network.StateSync

/-! Every checkpoint that `sync_to_checkpoint` inserts is the successor of a stored one, and is the
pinned one or follows from it by digest, epoch and a quorum of signatures, as long as the unasked
summaries at pinned sequence numbers are the pinned ones. -/
namespace Iota.Network
open Encodable Except List Option
open Std (ExtTreeMap)

theorem checkedSucc_ok {n m : Nat} (h : checkedSucc n = .ok m) : m = n+1 := by
  unfold checkedSucc at h
  split at h
  · exact (ok.inj h).symm
  · cases h

variable {n : Nat}
namespace StateSync
variable (crypto : Crypto) (pinned : PinnedCheckpoints)

/-- A summary that a peer brings unasked and that enters the cache. -/
def Unasked (s : State) : Event → Checkpoint → Prop
  | .push peer checkpoint, c => s.heights.Listens peer ∧ c = checkpoint
  | .availability peer checkpoint _, c => s.heights.Listens peer ∧ c = checkpoint
  | _, _ => False

/-- Unasked summaries at pinned sequence numbers are the pinned ones. -/
def Vetted (s : State) (event : Event) : Prop :=
  ∀ c, Unasked s event c → ∀ d, (c.sequenceNumber,d) ∈ pinned → c.digest crypto = d

theorem pinnedDigest_mem {pinned : PinnedCheckpoints} {d : CheckpointDigest}
    (h : pinnedDigest pinned n = some d) : (n,d) ∈ pinned := by
  obtain ⟨⟨m,e⟩,he,rfl⟩ := Option.map_eq_some_iff.mp h
  obtain ⟨hm,rfl⟩ := mem_of_binarySearchByKey he
  exact (mergeSort_perm _ _).mem_iff.mp hm

/-- The digest is the pinned one, if the sequence number is pinned. -/
def Matches (n : Nat) (digest : CheckpointDigest) : Prop :=
  ∀ d, pinnedDigest pinned n = some d → d = digest

end StateSync

variable {c : Checkpoint}
section Cache
open StateSync
variable {crypto : Crypto} {pinned : PinnedCheckpoints}

/-- What the cache holds under a digest has it, and what it lists at a sequence number has that
number and meets the pinned digest. -/
structure PeerHeights.Consistent (crypto : Crypto) (pinned : PinnedCheckpoints)
    (heights : PeerHeights) : Prop where
  keyed : ∀ d (c : Checkpoint), heights.unprocessedCheckpoints[d]? = some c → c.digest crypto = d
  filed : ∀ n d, heights.sequenceNumberToDigest[n]? = some d →
    ∃ summary : CheckpointSummary,
      crypto.digest summary = d ∧ summary.sequenceNumber = n ∧ Matches pinned n d

namespace PeerHeights.Consistent
variable {heights : PeerHeights}

theorem empty : Consistent crypto pinned .empty :=
  ⟨fun d c h => by simp [PeerHeights.empty] at h,fun n d h => by simp [PeerHeights.empty] at h⟩

section
variable (hc : heights.Consistent crypto pinned)

include hc

theorem of_cache {other : PeerHeights}
    (hu : other.unprocessedCheckpoints = heights.unprocessedCheckpoints)
    (hs : other.sequenceNumberToDigest = heights.sequenceNumberToDigest) :
    other.Consistent crypto pinned :=
  ⟨by rw [hu]; exact hc.keyed,by rw [hs]; exact hc.filed⟩

theorem get (hi : Function.Injective crypto.digest)
    (h : heights.getCheckpointBySequenceNumber n = some c) :
    c.sequenceNumber = n ∧ Matches pinned n (c.digest crypto) := by
  obtain ⟨d,hd,hg⟩ := Option.bind_eq_some_iff.mp h
  have hdg := hc.keyed d c hg
  obtain ⟨summary,hs,hn,hm⟩ := hc.filed n d hd
  have heq : c.summary = summary := hi (hdg.trans hs.symm)
  refine ⟨?_,hdg ▸ hm⟩
  rw [CertifiedCheckpointSummary.sequenceNumber,heq,hn]

theorem insertCheckpoint (hm : Matches pinned c.sequenceNumber (c.digest crypto)) :
    (heights.insertCheckpoint crypto c).Consistent crypto pinned where
  keyed d c' h := by
    simp only [PeerHeights.insertCheckpoint,ExtTreeMap.getElem?_insert_eq] at h
    split at h
    · next hd => rw [← some.inj h,hd]
    · exact hc.keyed d c' h
  filed n d h := by
    simp only [PeerHeights.insertCheckpoint,ExtTreeMap.getElem?_insert_eq] at h
    split at h
    · next hn =>
      cases hn
      cases h
      exact ⟨c.summary,rfl,rfl,hm⟩
    · exact hc.filed n d h

theorem removeCheckpoint (d : CheckpointDigest) :
    (heights.removeCheckpoint d).Consistent crypto pinned := by
  unfold PeerHeights.removeCheckpoint
  split
  · exact hc
  constructor
  · intro d' c' h
    rw [ExtTreeMap.getElem?_erase_eq] at h
    split at h
    · cases h
    · exact hc.keyed d' c' h
  intro n d' h
  rw [ExtTreeMap.getElem?_erase_eq] at h
  split at h
  · cases h
  · exact hc.filed n d' h

theorem cleanupOldCheckpoints (n : Nat) :
    (heights.cleanupOldCheckpoints n).Consistent crypto pinned where
  keyed d c h := by
    simp only [PeerHeights.cleanupOldCheckpoints,ExtTreeMap.getElem?_filter] at h
    exact hc.keyed d c (pfilter_eq_some_iff.mp h).1
  filed m d h := by
    simp only [PeerHeights.cleanupOldCheckpoints,ExtTreeMap.getElem?_filter] at h
    exact hc.filed m d (pfilter_eq_some_iff.mp h).1

theorem updatePeerInfo {peer : PeerId} {low : Option Nat}
    (hm : heights.Listens peer → Matches pinned c.sequenceNumber (c.digest crypto)) :
    (heights.updatePeerInfo crypto peer c low).Consistent crypto pinned := by
  unfold PeerHeights.updatePeerInfo
  split
  · exact hc
  · next info hi =>
    split
    · next hs =>
      refine Consistent.insertCheckpoint ?_ (hm ⟨info,hi,hs⟩)
      exact hc.of_cache rfl rfl
    · exact hc

theorem markPeerAsNotOnSameChain (peer : PeerId) :
    (heights.markPeerAsNotOnSameChain peer).Consistent crypto pinned := by
  unfold PeerHeights.markPeerAsNotOnSameChain
  split
  · exact hc
  · exact hc.of_cache rfl rfl

end
end PeerHeights.Consistent
end Cache
namespace Store
variable {crypto : Crypto} {store : Store}

/-- The committee that the summary announces is the one of the next epoch. -/
def Announced (store : Store) (summary : CheckpointSummary) : Prop :=
  ∀ rights, summary.nextEpochCommittee = some rights →
    ∃ committee, Committee.new (summary.epoch+1) rights = .ok committee ∧
      store.committees[summary.epoch+1]? = some committee

def Stored (crypto : Crypto) (store : Store) (summary : CheckpointSummary) : Prop :=
  ∃ c, store.checkpointByDigest[crypto.digest summary]? = some c ∧ c.summary = summary

/-- Checkpoints are filed under their digests, and the committee announced by the highest verified
checkpoint is known. -/
structure Consistent (crypto : Crypto) (store : Store) : Prop where
  keyed : ∀ d (c : Checkpoint), store.checkpointByDigest[d]? = some c → c.digest crypto = d
  announced : ∀ summary, crypto.digest summary = store.highestVerified.2 →
    store.Announced summary

/-- What a store loses on the way to a later one: nothing. -/
structure Kept (crypto : Crypto) (store later : Store) : Prop where
  stored : ∀ summary, store.Stored crypto summary → later.Stored crypto summary
  committees : ∀ (e : Nat) k, store.committees[e]? = some k → later.committees[e]? = some k

theorem Kept.refl : Kept crypto store store := ⟨fun _ h => h,fun _ _ h => h⟩

theorem Kept.trans {later latest : Store} (h : Kept crypto store later)
    (h' : Kept crypto later latest) : Kept crypto store latest :=
  ⟨fun c hc => h'.stored c (h.stored c hc),fun e k hk => h'.committees e k (h.committees e k hk)⟩

variable {summary : CheckpointSummary}

theorem Announced.kept {later : Store}
    (ha : store.Announced summary) (hk : Kept crypto store later) : later.Announced summary := by
  intro rights hr
  obtain ⟨committee,hn,hat⟩ := ha rights hr
  exact ⟨committee,hn,hk.committees _ _ hat⟩

theorem epoch_of_new {epoch : Nat} {rights : List (AuthorityName × Nat)} {committee : Committee}
    (h : Committee.new epoch rights = .ok committee) : committee.epoch = epoch := by
  unfold Committee.new at h
  dsimp only at h
  split at h
  · cases h
  · rw [← ok.inj h]

variable {store' : Store}

theorem insertNextCommittee_cases (h : store.insertNextCommittee summary = .ok store') :
    store'.Announced summary ∧ store'.checkpointByDigest = store.checkpointByDigest ∧
      store'.highestVerified = store.highestVerified ∧
      ∀ (e : Nat) k, store.committees[e]? = some k → store'.committees[e]? = some k := by
  unfold insertNextCommittee at h
  split at h
  · next hn =>
    cases h
    refine ⟨fun rights hr => ?_,rfl,rfl,fun _ _ h => h⟩
    rw [hn] at hr
    cases hr
  · next rights hr =>
    obtain ⟨epoch,he,h⟩ := of_bind h
    cases checkedSucc_ok he
    split at h
    · cases h
    · next committee hnw =>
      have hc := epoch_of_new hnw
      -- the announced committee is known afterwards, whether or not it was before
      suffices hs : store'.committees[committee.epoch]? = some committee ∧
          store'.checkpointByDigest = store.checkpointByDigest ∧
          store'.highestVerified = store.highestVerified ∧
          ∀ (e : Nat) k, store.committees[e]? = some k → store'.committees[e]? = some k by
        refine ⟨fun other ho => ?_,hs.2⟩
        rw [hr] at ho
        cases ho
        exact ⟨committee,hnw,hc ▸ hs.1⟩
      unfold insertNewCommittee at h
      split at h
      · next old hol =>
        split at h
        · next heq =>
          cases h
          exact ⟨heq ▸ hol,rfl,rfl,fun _ _ h => h⟩
        · cases h
      · next hn =>
        cases h
        refine ⟨by simp,rfl,rfl,fun e k hk => ?_⟩
        rw [ExtTreeMap.getElem?_insert_eq]
        split
        · next heq => rw [heq,hk] at hn; cases hn
        · exact hk

section
variable (hs : store.Consistent crypto)

include hs

theorem Consistent.insertCertifiedCheckpoint
    (hi : Function.Injective crypto.digest) (c : Checkpoint) :
    (store.insertCertifiedCheckpoint crypto c).Consistent crypto ∧
      Kept crypto store (store.insertCertifiedCheckpoint crypto c) ∧
      (store.insertCertifiedCheckpoint crypto c).Stored crypto c.summary := by
  have hg : ∀ d, (store.insertCertifiedCheckpoint crypto c).checkpointByDigest[d]? =
      if c.digest crypto = d then some c else store.checkpointByDigest[d]? := by
    intro d
    unfold Store.insertCertifiedCheckpoint
    rw [ExtTreeMap.getElem?_insert_eq]
  refine ⟨⟨?_,hs.announced⟩,⟨?_,fun _ _ h => h⟩,c,?_,rfl⟩
  · intro d c' h
    rw [hg] at h
    split at h
    · next hd => rw [← some.inj h,hd]
    · exact hs.keyed d c' h
  · rintro - ⟨c',hc',rfl⟩
    by_cases hd : c.digest crypto = crypto.digest c'.summary
    · exact ⟨c,by rw [hg,if_pos hd],hi hd⟩
    · exact ⟨c',by rw [hg,if_neg hd,hc'],rfl⟩
  · rw [hg]
    exact if_pos rfl

theorem Consistent.updateHighestVerifiedCheckpoint
    (hi : Function.Injective crypto.digest) (ha : store.Announced c.summary) :
    (store.updateHighestVerifiedCheckpoint crypto c).Consistent crypto ∧
      Kept crypto store (store.updateHighestVerifiedCheckpoint crypto c) := by
  unfold Store.updateHighestVerifiedCheckpoint
  split
  · refine ⟨⟨hs.keyed,fun summary hsm => ?_⟩,fun _ h => h,fun _ _ h => h⟩
    cases hi hsm
    exact ha
  · exact ⟨hs,Kept.refl⟩

theorem Consistent.insertNextCommittee (h : store.insertNextCommittee summary = .ok store') :
    store'.Consistent crypto ∧ Kept crypto store store' ∧ store'.Announced summary := by
  obtain ⟨ha,hby,hh,hc⟩ := insertNextCommittee_cases h
  have hk : Kept crypto store store' := ⟨fun _ hst => by unfold Stored; rw [hby]; exact hst,hc⟩
  refine ⟨⟨by rw [hby]; exact hs.keyed,fun other ho => ?_⟩,hk,ha⟩
  rw [hh] at ho
  exact (hs.announced other ho).kept hk

theorem Consistent.insertCheckpoint (hi : Function.Injective crypto.digest)
    (h : store.insertCheckpoint crypto c = .ok store') :
    store'.Consistent crypto ∧ Kept crypto store store' ∧ store'.Announced c.summary ∧
      store'.Stored crypto c.summary := by
  obtain ⟨mid,hm,h⟩ := of_bind h
  cases h
  obtain ⟨hcm,hkm,ham⟩ := hs.insertNextCommittee hm
  obtain ⟨hci,hki,hsi⟩ := hcm.insertCertifiedCheckpoint hi c
  obtain ⟨hcu,hku⟩ := hci.updateHighestVerifiedCheckpoint hi (ham.kept hki)
  exact ⟨hcu,hkm.trans (hki.trans hku),ham.kept (hki.trans hku),hku.stored _ hsi⟩

end
end Store
namespace StateSync
variable {crypto : Crypto} {pinned : PinnedCheckpoints}
  {signed : AuthorityName → CheckpointSummary → Prop}

/-- The checkpoint follows from the previous one: it names its digest, is of its epoch or of the
next one when the previous one closes its epoch, and a quorum of the committee of its epoch has
signed it; the committee of a next epoch is the one that the previous checkpoint announces. -/
structure Follows (crypto : Crypto) (signed : AuthorityName → CheckpointSummary → Prop)
    (store : Store) (previous checkpoint : CheckpointSummary) : Prop where
  previousDigest : checkpoint.previousDigest = some (crypto.digest previous)
  epoch : checkpoint.epoch = previous.epoch ∨
    checkpoint.epoch = previous.epoch+1 ∧ ∃ rights committee,
      previous.nextEpochCommittee = some rights ∧
      Committee.new checkpoint.epoch rights = .ok committee ∧
      store.committees[checkpoint.epoch]? = some committee
  quorum : ∃ committee, store.committees[checkpoint.epoch]? = some committee ∧
    SignedByQuorum signed committee checkpoint

structure Authentic (crypto : Crypto) (signed : AuthorityName → CheckpointSummary → Prop)
    (pinned : PinnedCheckpoints) (store : Store) (previous checkpoint : Checkpoint) : Prop where
  stored : store.Stored crypto previous.summary
  next : checkpoint.sequenceNumber = previous.sequenceNumber+1
  origin : (checkpoint.sequenceNumber,checkpoint.digest crypto) ∈ pinned ∨
    Follows crypto signed store previous.summary checkpoint.summary

theorem Authentic.kept {store later : Store} {previous checkpoint : Checkpoint}
    (ha : Authentic crypto signed pinned store previous checkpoint)
    (hk : Store.Kept crypto store later) :
    Authentic crypto signed pinned later previous checkpoint := by
  refine ⟨hk.stored _ ha.stored,ha.next,ha.origin.imp_right fun hf => ?_⟩
  refine ⟨hf.previousDigest,hf.epoch.imp_right ?_,?_⟩
  · rintro ⟨he,rights,committee,hr,hn,hat⟩
    exact ⟨he,rights,committee,hr,hn,hk.committees _ _ hat⟩
  · obtain ⟨committee,hat,hs⟩ := hf.quorum
    exact ⟨committee,hk.committees _ _ hat,hs⟩

theorem follows_of_verifyCheckpoint (hsn : crypto.Sound signed) {store : Store}
    {current checkpoint : Checkpoint} (ha : store.Announced current.summary)
    (h : verifyCheckpoint crypto store current checkpoint = .ok true) :
    Follows crypto signed store current.summary checkpoint.summary := by
  unfold verifyCheckpoint at h
  split at h
  · cases h
  · next committee hcm =>
    obtain ⟨next,h⟩ := ok_of_bind h
    split at h
    · cases h
    split at h
    · cases h
    · next hd =>
      obtain ⟨nextEpoch,hn,h⟩ := of_bind h
      have hsc := checkedSucc_ok hn
      split at h
      · cases h
      · next he =>
        split at h
        · cases h
        · next hc =>
          split at h
          · next hv =>
            refine ⟨(not_not.mp hd).symm,?_,committee,hcm,
              CertifiedCheckpointSummary.signedByQuorum_of_verify hsn hv⟩
            by_cases hs : checkpoint.summary.epoch = current.summary.epoch
            · exact .inl hs
            have hl : checkpoint.summary.epoch = nextEpoch := not_not.mp fun hne => he ⟨hs,hne⟩
            obtain ⟨rights,hr⟩ := ne_none_iff_exists'.mp fun hnn =>
              hc ⟨hl,isNone_iff_eq_none.mpr hnn⟩
            obtain ⟨announced,hnw,hat⟩ := ha rights hr
            rw [hl,hsc]
            exact .inr ⟨rfl,rights,announced,hr,hnw,hat⟩
          · cases h

/-- A task works from a stored checkpoint, and its requests ended with summaries of the requested
sequence numbers that meet the pinned digests. -/
structure SyncTask.Sane (crypto : Crypto) (pinned : PinnedCheckpoints) (store : Store)
    (task : SyncTask) : Prop where
  stored : store.Stored crypto task.current.summary
  announced : store.Announced task.current.summary
  requests : ∀ (n : Nat) (c : Checkpoint) peer, task.requests[n]? = some (.done (some c) peer) →
    c.sequenceNumber = n ∧ Matches pinned n (c.digest crypto)

structure Sane (crypto : Crypto) (pinned : PinnedCheckpoints)
    (signed : AuthorityName → CheckpointSummary → Prop) (s : State) : Prop where
  heights : s.heights.Consistent crypto pinned
  store : s.store.Consistent crypto
  task : ∀ task, s.task = some task → SyncTask.Sane crypto pinned s.store task
  synced : ∀ e ∈ s.synced, Authentic crypto signed pinned s.store e.1 e.2

variable {task : SyncTask}

theorem SyncTask.Sane.kept {store later : Store}
    (ht : SyncTask.Sane crypto pinned store task) (hk : Store.Kept crypto store later) :
    SyncTask.Sane crypto pinned later task :=
  ⟨hk.stored _ ht.stored,ht.announced.kept hk,ht.requests⟩

theorem SyncTask.Sane.insert {store : Store}
    (ht : SyncTask.Sane crypto pinned store task) {fetch : Fetch}
    (hf : ∀ c peer, fetch = .done (some c) peer →
      c.sequenceNumber = n ∧ Matches pinned n (c.digest crypto)) :
    SyncTask.Sane crypto pinned store { task with requests := task.requests.insert n fetch } := by
  refine ⟨ht.stored,ht.announced,fun m c peer h => ?_⟩
  rw [ExtTreeMap.getElem?_insert_eq] at h
  split at h
  · next heq => exact heq ▸ hf c peer (some.inj h)
  · exact ht.requests m c peer h

namespace Sane
variable {s s' : State}

section
variable (hs : Sane crypto pinned signed s)

include hs

theorem withHeights {heights : PeerHeights} (hh : heights.Consistent crypto pinned) :
    Sane crypto pinned signed { s with heights := heights } :=
  ⟨hh,hs.store,hs.task,hs.synced⟩

theorem withTask {task : Option SyncTask}
    (ht : ∀ t, task = some t → SyncTask.Sane crypto pinned s.store t) :
    Sane crypto pinned signed { s with task := task } :=
  ⟨hs.heights,hs.store,ht,hs.synced⟩

theorem withStore {store : Store}
    (hc : store.Consistent crypto) (hk : Store.Kept crypto s.store store) :
    Sane crypto pinned signed { s with store := store } :=
  ⟨hs.heights,hc,fun t ht => (hs.task t ht).kept hk,fun e he => (hs.synced e he).kept hk⟩

theorem highest (h : s.store.getHighestVerifiedCheckpoint = .ok c) :
    s.store.Stored crypto c.summary ∧ s.store.Announced c.summary := by
  unfold Store.getHighestVerifiedCheckpoint at h
  split at h
  · next checkpoint hat =>
    cases h
    have hd := hs.store.keyed _ _ hat
    exact ⟨⟨c,by rw [← hat,← hd]; rfl,rfl⟩,hs.store.announced _ hd⟩
  · cases h

theorem connect {peer : PeerId} {genesis : Option Checkpoint}
    (h : connect crypto s peer genesis = .ok s') : Sane crypto pinned signed s' := by
  unfold StateSync.connect at h
  split at h
  · cases h
  · cases h
    exact hs.withHeights (hs.heights.of_cache rfl rfl)

theorem consensus (hi : Function.Injective crypto.digest)
    (h : handleCheckpointFromConsensus crypto s c = .ok s') : Sane crypto pinned signed s' := by
  unfold handleCheckpointFromConsensus at h
  split at h
  · cases h
  split at h
  · cases h
  split at h
  · cases h
  obtain ⟨latest,h⟩ := ok_of_bind h
  split at h
  · cases h
    exact hs
  obtain ⟨store,hst,h⟩ := of_bind h
  cases h
  obtain ⟨hc,hk,ha⟩ := hs.store.insertNextCommittee hst
  obtain ⟨hcu,hku⟩ := hc.updateHighestVerifiedCheckpoint hi ha
  exact hs.withStore hcu (hk.trans hku)

theorem start (h : start s = .ok s') : Sane crypto pinned signed s' := by
  unfold StateSync.start at h
  split at h
  · cases h
    exact hs
  obtain ⟨current,hc,h⟩ := of_bind h
  obtain ⟨hst,ha⟩ := hs.highest hc
  split at h
  · cases h
    exact hs
  split at h
  · cases h
    refine hs.withTask fun t ht => ?_
    cases ht
    exact ⟨hst,ha,fun n c peer hn => by simp at hn⟩
  · cases h
    exact hs

theorem poll (hi : Function.Injective crypto.digest)
    (h : poll s n = .ok s') : Sane crypto pinned signed s' := by
  unfold StateSync.poll at h
  split at h
  · cases h
  · next task hts =>
    split at h
    · cases h
    cases h
    refine hs.withTask fun t ht => ?_
    cases ht
    refine (hs.task task hts).insert fun c peer hf => ?_
    split at hf
    · next checkpoint hg =>
      cases hf
      exact hs.heights.get hi hg
    · cases hf

theorem answer {peer : PeerId}
    (h : answer crypto pinned s n peer c = .ok s') : Sane crypto pinned signed s' := by
  unfold StateSync.answer at h
  split at h
  · cases h
  · next task hts =>
    split at h
    · split at h
      · cases h
        exact hs
      · next hn =>
        split at h
        · cases h
          exact hs
        · next hp =>
          cases h
          have hm : Matches pinned c.sequenceNumber (c.digest crypto) := by
            intro d hd
            by_contra hne
            exact hp (by rw [hd]; simpa using hne)
          refine (hs.withHeights (hs.heights.insertCheckpoint hm)).withTask fun t ht => ?_
          cases ht
          refine (hs.task task hts).insert fun c' peer' hf => ?_
          cases hf
          exact ⟨not_not.mp hn,not_not.mp hn ▸ hm⟩
    · cases h

theorem exhausted (h : exhausted s n = .ok s') : Sane crypto pinned signed s' := by
  unfold StateSync.exhausted at h
  split at h
  · cases h
  · next task hts =>
    split at h
    · cases h
      refine hs.withTask fun t ht => ?_
      cases ht
      exact (hs.task task hts).insert nofun
    · cases h

theorem origin_of_accepts (hsn : crypto.Sound signed) (ht : s.task = some task)
    (hm : Matches pinned c.sequenceNumber (c.digest crypto))
    (h : accepts crypto pinned s task.current c = .ok true) :
    (c.sequenceNumber,c.digest crypto) ∈ pinned ∨
      Follows crypto signed s.store task.current.summary c.summary := by
  unfold accepts at h
  split at h
  · next hsm =>
    obtain ⟨d,hd⟩ := Option.isSome_iff_exists.mp hsm
    exact .inl (hm d hd ▸ pinnedDigest_mem hd)
  · exact .inr (follows_of_verifyCheckpoint hsn (hs.task task ht).announced h)

theorem process (hsn : crypto.Sound signed)
    (h : process crypto pinned s = .ok s') : Sane crypto pinned signed s' := by
  unfold StateSync.process at h
  split at h
  · cases h
  · next task hts =>
    have ht := hs.task task hts
    split at h
    · cases h
      exact hs.withTask nofun
    · next c peer hrq =>
      obtain ⟨hn,hm⟩ := ht.requests _ c peer hrq
      rw [← hn] at hm
      obtain ⟨accepted,ha,h⟩ := of_bind h
      split at h
      · next hy =>
        obtain ⟨store,hst,h⟩ := of_bind h
        cases h
        have ho := hs.origin_of_accepts hsn hts hm (hy ▸ ha)
        obtain ⟨hc,hk,han,hsr⟩ := hs.store.insertCheckpoint hsn.digest_injective hst
        refine ⟨hs.heights,hc,fun t ht' => ?_,fun e he => ?_⟩
        · cases ht'
          exact ⟨hsr,han,ht.requests⟩
        rcases mem_cons.mp he with rfl | he
        · exact Authentic.kept ⟨ht.stored,hn,ho⟩ hk
        · exact (hs.synced e he).kept hk
      · cases h
        refine (hs.withHeights ?_).withTask nofun
        have hr := hs.heights.removeCheckpoint (c.digest crypto)
        cases peer with
        | none => exact hr
        | some peer => exact hr.markPeerAsNotOnSameChain peer
    · cases h

theorem finish (h : finish s = .ok s') : Sane crypto pinned signed s' := by
  unfold StateSync.finish at h
  split at h
  · cases h
  split at h
  · cases h
    exact (hs.withHeights (hs.heights.cleanupOldCheckpoints _)).withTask nofun
  · cases h

theorem step (hsn : crypto.Sound signed) {event : Event}
    (hv : Vetted crypto pinned s event) (h : step crypto pinned s event = .ok s') :
    Sane crypto pinned signed s' := by
  have hi := hsn.digest_injective
  cases event with
  | connect peer genesis => exact hs.connect h
  | lost peer =>
    cases h
    exact hs.withHeights (hs.heights.of_cache rfl rfl)
  | push peer c =>
    cases h
    refine hs.withHeights (hs.heights.updatePeerInfo fun hl d hd => ?_)
    exact (hv c ⟨hl,rfl⟩ d (pinnedDigest_mem hd)).symm
  | availability peer c lowest =>
    cases h
    refine hs.withHeights (hs.heights.updatePeerInfo fun hl d hd => ?_)
    exact (hv c ⟨hl,rfl⟩ d (pinnedDigest_mem hd)).symm
  | certified c =>
    cases h
    obtain ⟨hc,hk,-⟩ := hs.store.insertCertifiedCheckpoint hi c
    exact hs.withStore hc hk
  | consensus c => exact hs.consensus hi h
  | start => exact hs.start h
  | poll n => exact hs.poll hi h
  | answer n peer c => exact hs.answer h
  | exhausted n => exact hs.exhausted h
  | process => exact hs.process hsn h
  | finish => exact hs.finish h
  | restart =>
    cases h
    exact (hs.withHeights .empty).withTask nofun

end
end Sane

def Initial (crypto : Crypto) (s : State) : Prop :=
  s.store.Consistent crypto ∧ s.heights = .empty ∧ s.task = none ∧ s.synced = []

theorem Initial.sane {s : State} (h : Initial crypto s) : Sane crypto pinned signed s := by
  obtain ⟨hs,hh,hts,hsy⟩ := h
  refine ⟨hh ▸ .empty,hs,fun t ht => ?_,fun e he => ?_⟩
  · rw [hts] at ht
    cases ht
  · rw [hsy] at he
    cases he

/-- State sync stores only authentic checkpoints, when the unasked summaries at pinned sequence
numbers are the pinned ones. -/
theorem synced_authentic (hsound : crypto.Sound signed) {s : State}
    (h : Machine.Reached (Initial crypto) (step crypto pinned) (Vetted crypto pinned) s) :
    ∀ e ∈ s.synced, Authentic crypto signed pinned s.store e.1 e.2 := by
  have hsn : Sane crypto pinned signed s :=
    h.invariant (fun _ hi => hi.sane) fun _ _ _ hs ha hst => hs.step hsound ha hst
  exact hsn.synced

section Runs

def plainSummary (sequenceNumber contentDigest : Nat) (previous : Option CheckpointDigest) :
    CheckpointSummary where
  epoch := 0
  sequenceNumber := sequenceNumber
  networkTotalTransactions := 0
  contentDigest := contentDigest
  previousDigest := previous
  epochRollingGasCostSummary := ⟨0,0,0,0,0⟩
  timestampMs := 0
  checkpointCommitments := []
  endOfEpochData := none
  versionSpecificData := []

/-- Summaries hash to their codes; an aggregate is accepted if its signature is `good`. -/
def toyCrypto (good : Option Nat) : Crypto :=
  ⟨encode,fun _ _ _ signature => some signature = good⟩

theorem toyCrypto_sound (good : Option Nat) : (toyCrypto good).Sound fun _ _ => good ≠ none := by
  refine ⟨encode_injective,fun _ _ _ signature h _ _ => ?_⟩
  have hg : some signature = good := of_decide_eq_true h
  rw [← hg]
  exact some_ne_none _

def plainCheckpoint (summary : CheckpointSummary) : Checkpoint :=
  ⟨summary,0,1,[0],pairwise_singleton _ _⟩

def plainGenesis : Checkpoint := plainCheckpoint (plainSummary 0 0 none)

def successor (previous : Checkpoint) (contentDigest : Nat) : Checkpoint :=
  plainCheckpoint (plainSummary (previous.sequenceNumber+1) contentDigest
    (some (encode previous.summary)))

/-- A node that knows the genesis checkpoint and the committee of epoch zero. -/
def genesisState : State where
  heights := .empty
  store :=
    { certifiedCheckpoints := (∅ : ExtTreeMap Nat Checkpoint).insert 0 plainGenesis
      checkpointByDigest := (∅ : ExtTreeMap CheckpointDigest Checkpoint).insert
        (encode plainGenesis.summary) plainGenesis
      highestVerified := (0,encode plainGenesis.summary)
      committees := (∅ : ExtTreeMap Nat Committee).insert 0
        ⟨0,[(1,10000)],pairwise_singleton _ _⟩ }
  task := none
  synced := []

theorem genesisState_initial (good : Option Nat) : Initial (toyCrypto good) genesisState := by
  refine ⟨⟨fun d c h => ?_,fun summary hs rights hr => ?_⟩,rfl,rfl,rfl⟩
  · unfold genesisState at h
    simp only [ExtTreeMap.getElem?_insert_eq] at h
    split at h
    · next hd =>
      cases h
      exact hd
    · simp at h
  have hg : summary = plainGenesis.summary := encode_injective hs
  rw [hg] at hr
  cases hr

def pinnedFirst : Checkpoint := successor plainGenesis 7

def verifiedSecond : Checkpoint := successor pinnedFirst 8

/-- A peer brings a pinned checkpoint and its successor, and both are synced. -/
def honestRun : List Event :=
  [.connect 5 (some plainGenesis),.push 5 pinnedFirst,.availability 5 verifiedSecond (some 0),
    .start,.poll 1,.poll 2,.process,.process,.finish]

theorem honestRun_vetted : ∀ event ∈ honestRun, ∀ s, Vetted (toyCrypto (some 1))
    [(1,Encodable.encode pinnedFirst.summary)] s event := by
  intro event he s c hc d hd
  have hp : c.sequenceNumber = 1 ∧ d = Encodable.encode pinnedFirst.summary := by
    simpa using hd
  simp only [honestRun,mem_cons,not_mem_nil,or_false] at he
  rcases he with rfl | rfl | rfl | rfl | rfl | rfl | rfl | rfl | rfl <;> try exact hc.elim
  · rw [hc.2,hp.2]
    rfl
  · rw [hc.2] at hp
    cases hp.1

theorem synced_authentic_honestRun : ∃ s,
    Machine.Reached (Initial (toyCrypto (some 1)))
      (step (toyCrypto (some 1)) [(1,Encodable.encode pinnedFirst.summary)])
      (Vetted (toyCrypto (some 1)) [(1,Encodable.encode pinnedFirst.summary)]) s ∧
    s.synced = [(pinnedFirst,verifiedSecond),(plainGenesis,pinnedFirst)] ∧
    ∀ e ∈ s.synced, Authentic (toyCrypto (some 1)) (fun _ _ => some 1 ≠ none)
      [(1,Encodable.encode pinnedFirst.summary)] s.store e.1 e.2 := by
  obtain ⟨s,hrn,hs⟩ : ∃ s, honestRun.foldlM
        (step (toyCrypto (some 1)) [(1,encode pinnedFirst.summary)]) genesisState = .ok s ∧
      s.synced = [(pinnedFirst,verifiedSecond),(plainGenesis,pinnedFirst)] := by decide +kernel
  have hr := Machine.Reached.foldlM honestRun_vetted (.init (genesisState_initial (some 1))) hrn
  exact ⟨s,hr,hs,synced_authentic (toyCrypto_sound (some 1)) hr⟩

/-- A peer pushes a summary of its own at the pinned sequence number, which no authority signed and
which names no previous checkpoint; it is stored. -/
def forgedRun : List Event :=
  [.connect 5 (some plainGenesis),.push 5 (plainCheckpoint (plainSummary 1 9 none)),.start,
    .poll 1,.process]

theorem forged_pinned_checkpoint_stored : ∃ s,
    (toyCrypto none).Sound (fun _ _ => (none : Option Nat) ≠ none) ∧
    Machine.Reached (Initial (toyCrypto none))
      (step (toyCrypto none) [(1,Encodable.encode pinnedFirst.summary)]) (fun _ _ => True) s ∧
    s.synced = [(plainGenesis,plainCheckpoint (plainSummary 1 9 none))] ∧
    ¬ ∀ e ∈ s.synced, Authentic (toyCrypto none) (fun _ _ => (none : Option Nat) ≠ none)
      [(1,Encodable.encode pinnedFirst.summary)] s.store e.1 e.2 := by
  obtain ⟨s,hrn,hs⟩ : ∃ s, forgedRun.foldlM
        (step (toyCrypto none) [(1,encode pinnedFirst.summary)]) genesisState = .ok s ∧
      s.synced = [(plainGenesis,plainCheckpoint (plainSummary 1 9 none))] := by decide +kernel
  have hal : ∀ event ∈ forgedRun, ∀ s : State, (fun (_ : State) (_ : Event) => True) s event :=
    fun _ _ _ => trivial
  have hr := Machine.Reached.foldlM hal (.init (genesisState_initial none)) hrn
  refine ⟨s,toyCrypto_sound none,hr,hs,fun ha => ?_⟩
  have hb := ha _ (by rw [hs]; exact mem_cons_self)
  rcases hb.origin with hp | hf
  · have heq : encode (plainSummary 1 9 none) = encode pinnedFirst.summary :=
      (Prod.mk.inj (mem_singleton.mp hp)).2
    have hc := congrArg CheckpointSummary.contentDigest (encode_injective heq)
    cases hc
  · cases hf.previousDigest

end Runs
end StateSync
end Iota.Network
