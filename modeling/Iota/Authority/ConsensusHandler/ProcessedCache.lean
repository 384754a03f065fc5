import Iota.Authority.ConsensusHandler
import Iota.Lib.Run

/-! Before the transactions of a commit are verified, the handler skips those whose key it has seen
before, as far as a cache of bounded size remembers. What the epoch store has recorded as processed
is skipped as well, and that record is made only for transactions that were verified and not
ignored. So the cache changes what is accepted, unless keys are first used by a transaction that is
recorded. -/
namespace Iota.Authority.ProcessedCache
open List

/-- The consensus messages, with the data that keys, verification and recording read. -/
inductive ConsensusTransactionKind
  | certifiedTransaction (digest : TransactionDigest) (epoch : Nat)
  | checkpointSignature (authority : AuthorityName) (sequenceNumber : Nat)
  | endOfPublish (authority : AuthorityName)
  | capabilityNotificationV1 (authority : AuthorityName) (generation : Nat)
  | signedCapabilityNotificationV1 (authority : AuthorityName) (generation : Nat)
  | newJWKFetched (authority : AuthorityName) (id jwk : Nat)
  | randomnessDkgMessage (authority : AuthorityName) (bytes : List Nat)
  | randomnessDkgConfirmation (authority : AuthorityName) (bytes : List Nat)
  | misbehaviorReport (authority : AuthorityName) (digest checkpointSeq : Nat)
deriving DecidableEq, Repr

inductive SequencedConsensusTransactionKind
  | external (kind : ConsensusTransactionKind)
  | system (digest : TransactionDigest)
deriving DecidableEq, Repr

inductive ConsensusTransactionKey
  | certificate (digest : TransactionDigest)
  | checkpointSignature (authority : AuthorityName) (sequenceNumber : Nat)
  | endOfPublish (authority : AuthorityName)
  | capabilityNotification (authority : AuthorityName) (generation : Nat)
  | newJWKFetched (authority : AuthorityName) (id jwk : Nat)
  | randomnessDkgMessage (authority : AuthorityName)
  | randomnessDkgConfirmation (authority : AuthorityName)
  | misbehaviorReport (authority : AuthorityName) (digest checkpointSeq : Nat)
deriving DecidableEq, Repr

inductive SequencedConsensusTransactionKey
  | external (key : ConsensusTransactionKey)
  | system (digest : TransactionDigest)
deriving DecidableEq, Repr

def ConsensusTransactionKind.key : ConsensusTransactionKind → ConsensusTransactionKey
  | .certifiedTransaction digest _ => .certificate digest
  | .checkpointSignature authority seq => .checkpointSignature authority seq
  | .endOfPublish authority => .endOfPublish authority
  | .capabilityNotificationV1 authority generation
  | .signedCapabilityNotificationV1 authority generation =>
    .capabilityNotification authority generation
  | .newJWKFetched authority id jwk => .newJWKFetched authority id jwk
  | .randomnessDkgMessage authority _ => .randomnessDkgMessage authority
  | .randomnessDkgConfirmation authority _ => .randomnessDkgConfirmation authority
  | .misbehaviorReport authority digest seq => .misbehaviorReport authority digest seq

def SequencedConsensusTransactionKind.key :
    SequencedConsensusTransactionKind → SequencedConsensusTransactionKey
  | .external kind => .external kind.key
  | .system digest => .system digest

/-- A transaction with the authority whose block carried it and its place in the commit. -/
structure SequencedConsensusTransaction where
  certificateAuthor : AuthorityName
  transactionIndex : Nat
  transaction : SequencedConsensusTransactionKind
deriving DecidableEq, Repr

def SequencedConsensusTransaction.key (tx : SequencedConsensusTransaction) :
    SequencedConsensusTransactionKey := tx.transaction.key

/-- The transactions of a commit, each with the authority whose block carried it. -/
abbrev CommitTransactions := List (SequencedConsensusTransactionKind × AuthorityName)

def sequence (commit : CommitTransactions) : List SequencedConsensusTransaction :=
  commit.mapIdx fun i tx => ⟨tx.2,i+1,tx.1⟩

structure MessageConfig extends HandlerConfig where
  trackNonCommitteeEligibleValidators : Bool
  checkTotalJwkSize : Nat → Nat → Bool

/-- What the epoch store keeps of the messages: the keys recorded as processed, in the quarantine or
in the tables, the authorities that have ended publishing, and whether certificates are accepted. -/
structure EpochMessages where
  processed : List SequencedConsensusTransactionKey
  endOfPublish : List AuthorityName
  reconfig : ReconfigCertStatus
deriving DecidableEq, Repr

def EpochMessages.initial : EpochMessages := ⟨[],[],.acceptAllCerts⟩

namespace MessageConfig
variable (cfg : MessageConfig)

/-- `verify_consensus_transaction`, apart from the check for processed messages. -/
def verifySender (tx : SequencedConsensusTransaction) : Bool :=
  match tx.transaction with
  | .external (.certifiedTransaction _ _) => true
  | .external (.checkpointSignature authority _) => tx.certificateAuthor = authority
  | .external (.endOfPublish authority) => tx.certificateAuthor = authority
  | .external (.misbehaviorReport authority _ _) => tx.certificateAuthor = authority
  | .external (.capabilityNotificationV1 authority _) => tx.certificateAuthor = authority
  | .external (.signedCapabilityNotificationV1 _ _) => cfg.trackNonCommitteeEligibleValidators
  | .external (.newJWKFetched authority id jwk) =>
    tx.certificateAuthor = authority && cfg.checkTotalJwkSize id jwk
  | .external (.randomnessDkgMessage authority _) => tx.certificateAuthor = authority
  | .external (.randomnessDkgConfirmation authority _) => tx.certificateAuthor = authority
  | .system _ => true

def verifyConsensusTransaction (s : EpochMessages) (tx : SequencedConsensusTransaction) : Bool :=
  tx.key ∉ s.processed && cfg.verifySender tx

/-- Whether `process_consensus_transaction` ignores a verified transaction; it does so only with
certificates. Previously deferred certificates are recorded, so they are not verified again. -/
def ignored (s : EpochMessages) (tx : SequencedConsensusTransaction) : Bool :=
  match tx.transaction with
  | .external (.certifiedTransaction _ epoch) =>
    epoch ≠ cfg.epoch || s.endOfPublish.contains tx.certificateAuthor ||
      !s.reconfig.shouldAcceptConsensusCerts
  | _ => false

def endOfPublishAuthority (tx : SequencedConsensusTransaction) : Option AuthorityName :=
  match tx.transaction with
  | .external (.endOfPublish authority) => some authority
  | _ => none

/-- What processing the verified transactions of a commit records. End-of-publish messages come
last. -/
def process (s : EpochMessages) (verified : List SequencedConsensusTransaction) : EpochMessages :=
  let (senders,reconfig) := (verified.filterMap endOfPublishAuthority).foldl
    (HandlerState.endOfPublishStep cfg.toHandlerConfig) (s.endOfPublish,s.reconfig)
  { processed := s.processed ++
      (verified.filter fun tx => !cfg.ignored s tx).map SequencedConsensusTransaction.key
    endOfPublish := senders
    reconfig := reconfig }

end MessageConfig

/-- `LruCache::put`, on the keys from the most to the least recently used one: whether the key was
there, and the cache after it. -/
def lruPut (capacity : Nat) (cache : List SequencedConsensusTransactionKey)
    (key : SequencedConsensusTransactionKey) : Bool × List SequencedConsensusTransactionKey :=
  (key ∈ cache,(key :: cache.erase key).take capacity)

def processedCacheCap : Nat := 1024 * 1024

/-- The loop of `handle_consensus_output` over the transactions of a commit. -/
def skipSeen (capacity : Nat) :
    (processedSet processedCache : List SequencedConsensusTransactionKey) →
    List SequencedConsensusTransaction →
    List SequencedConsensusTransaction × List SequencedConsensusTransactionKey
  | _, processedCache, [] => ([],processedCache)
  | processedSet, processedCache, tx :: txs =>
    let inSet := tx.key ∈ processedSet
    let (inCache,processedCache) := lruPut capacity processedCache tx.key
    let (all,processedCache) := skipSeen capacity (tx.key :: processedSet) processedCache txs
    (if inSet || inCache then all else tx :: all, processedCache)

/-- What a commit is done with: the transactions accepted for processing, and the store after it. -/
abbrev Outcome := List SequencedConsensusTransaction × EpochMessages

/-- A handler, with the outcomes of the commits it has handled. -/
structure MessageHandler where
  processedCache : List SequencedConsensusTransactionKey
  history : List Outcome

namespace MessageHandler
variable (cfg : MessageConfig) (capacity : Nat) (commits : List CommitTransactions)

def storeAfter (s : EpochMessages) (history : List Outcome) : EpochMessages :=
  (history.getLast?.map Prod.snd).getD s

def handleConsensusOutput (h : MessageHandler) (commit : CommitTransactions) : MessageHandler :=
  let s := storeAfter .initial h.history
  let (all,processedCache) := skipSeen capacity [] h.processedCache (sequence commit)
  let verified := all.filter fun tx => cfg.verifyConsensusTransaction s tx
  ⟨processedCache,h.history ++ [(verified,cfg.process s verified)]⟩

/-- The next commit is handled, or the node restarts from the store after some of the commits. -/
inductive Event
  | commit
  | restart (handled : Nat)

def exec (h : MessageHandler) : Event → Except Panic MessageHandler
  | .commit => .ok (match commits[h.history.length]? with
    | some commit => h.handleConsensusOutput cfg capacity commit
    | none => h)
  | .restart handled => .ok ⟨[],h.history.take handled⟩

/-- The states of a handler that is fed some commits, with restarts in between. -/
def Reached (h : MessageHandler) : Prop :=
  Machine.Reached (· = ⟨[],[]⟩) (exec cfg capacity commits) (fun _ _ => True) h

end MessageHandler

namespace MessageConfig
variable (cfg : MessageConfig)

/-- Transactions accepted one by one, against the record of the store alone. A transaction is
recorded when it is accepted, unless it is ignored. -/
def acceptAll (s : EpochMessages) : (recorded : List SequencedConsensusTransactionKey) →
    List SequencedConsensusTransaction → List SequencedConsensusTransaction
  | _, [] => []
  | recorded, tx :: txs =>
    if tx.key ∈ recorded ∨ cfg.verifySender tx = false then acceptAll s recorded txs
    else tx :: acceptAll s (if cfg.ignored s tx then recorded else tx.key :: recorded) txs

/-- The outcomes of commits by the record of the store alone. -/
def reference (s : EpochMessages) : List CommitTransactions → List Outcome
  | [] => []
  | commit :: commits =>
    let accepted := cfg.acceptAll s s.processed (sequence commit)
    (accepted,cfg.process s accepted) :: reference (cfg.process s accepted) commits

/-- The cache is transparent for some commits: with every capacity, and whenever the node restarts,
each commit has the outcome that the record alone gives. -/
def CacheTransparent (commits : List CommitTransactions) : Prop :=
  ∀ capacity, 0 < capacity → ∀ h, MessageHandler.Reached cfg capacity commits h →
    h.history = (cfg.reference .initial commits).take h.history.length

/-- In a commit, each transaction that is accepted by the record alone is the first with its key. -/
def FirstUseIn (s : EpochMessages) : (seen recorded : List SequencedConsensusTransactionKey) →
    List SequencedConsensusTransaction → Prop
  | _, _, [] => True
  | seen, recorded, tx :: txs =>
    if tx.key ∈ recorded ∨ cfg.verifySender tx = false then
      FirstUseIn s (tx.key :: seen) recorded txs
    else
      tx.key ∉ seen ∧ FirstUseIn s (tx.key :: seen)
        (if cfg.ignored s tx then recorded else tx.key :: recorded) txs

def keys (commit : CommitTransactions) : List SequencedConsensusTransactionKey :=
  commit.map fun tx => tx.1.key

/-- No transaction that is rejected or ignored comes before one with the same key that the record
alone accepts: those accepted are the first with their keys, in all commits. -/
def FirstUse (seen : List SequencedConsensusTransactionKey) (s : EpochMessages) :
    List CommitTransactions → Prop
  | [] => True
  | commit :: commits =>
    cfg.FirstUseIn s seen s.processed (sequence commit) ∧
      FirstUse (seen ++ keys commit)
        (cfg.process s (cfg.acceptAll s s.processed (sequence commit))) commits

end MessageConfig

section Commit
variable {cfg : MessageConfig} {s : EpochMessages} {capacity : Nat}
  {cache set seen recorded : List SequencedConsensusTransactionKey}
  {key k : SequencedConsensusTransactionKey} {tx : SequencedConsensusTransaction}
  {txs : List SequencedConsensusTransaction}

theorem mem_of_mem_lruPut (h : k ∈ (lruPut capacity cache key).2) : k = key ∨ k ∈ cache := by
  obtain rfl | h := mem_cons.mp (mem_of_mem_take h)
  · exact .inl rfl
  · exact .inr (mem_of_mem_erase h)

theorem length_erase_lt (h : cache.length < capacity) :
    (key :: cache.erase key).length ≤ capacity := by
  have := length_erase_le (a := key) (l := cache)
  rw [length_cons]
  omega

theorem mem_lruPut (h : cache.length < capacity) :
    k ∈ (lruPut capacity cache key).2 ↔ k = key ∨ k ∈ cache := by
  refine ⟨mem_of_mem_lruPut,?_⟩
  intro hk
  rw [lruPut,take_of_length_le (length_erase_lt h),mem_cons]
  by_cases heq : k = key
  · exact .inl heq
  · exact .inr ((mem_erase_of_ne heq).mpr (hk.resolve_left heq))

theorem length_lruPut_le (capacity : Nat) (cache : List SequencedConsensusTransactionKey)
    (key : SequencedConsensusTransactionKey) :
    (lruPut capacity cache key).2.length ≤ cache.length+1 := by
  have := length_erase_le (a := key) (l := cache)
  rw [lruPut,length_take,length_cons]
  omega

theorem skipSeen_cons_fst : (skipSeen capacity set cache (tx :: txs)).1 =
    if tx.key ∈ set ∨ tx.key ∈ cache then
      (skipSeen capacity (tx.key :: set) (lruPut capacity cache tx.key).2 txs).1
    else tx :: (skipSeen capacity (tx.key :: set) (lruPut capacity cache tx.key).2 txs).1 := by
  simp [skipSeen,lruPut]

theorem skipSeen_cons_snd : (skipSeen capacity set cache (tx :: txs)).2 =
    (skipSeen capacity (tx.key :: set) (lruPut capacity cache tx.key).2 txs).2 := rfl

theorem mem_skipSeen (h : tx ∈ (skipSeen capacity set cache txs).1) : tx ∈ txs := by
  induction txs generalizing set cache with
  | nil => exact h
  | cons tx' txs ih =>
    rw [skipSeen_cons_fst] at h
    split at h
    · exact mem_cons_of_mem _ (ih h)
    obtain rfl | h := mem_cons.mp h
    · exact mem_cons_self
    · exact mem_cons_of_mem _ (ih h)

theorem mem_cache_of_skipSeen (h : k ∈ (skipSeen capacity set cache txs).2) :
    k ∈ cache ∨ k ∈ txs.map SequencedConsensusTransaction.key := by
  induction txs generalizing set cache with
  | nil => exact .inl h
  | cons tx txs ih =>
    rw [map_cons,mem_cons]
    obtain h | h := ih h
    · obtain h | h := mem_of_mem_lruPut h
      · exact .inr (.inl h)
      · exact .inl h
    · exact .inr (.inr h)

theorem mem_skipSeen_cache (set : List SequencedConsensusTransactionKey)
    (h : cache.length + txs.length ≤ capacity) :
    (k ∈ (skipSeen capacity set cache txs).2 ↔
        k ∈ cache ∨ k ∈ txs.map SequencedConsensusTransaction.key) ∧
      (skipSeen capacity set cache txs).2.length ≤ cache.length + txs.length := by
  induction txs generalizing set cache with
  | nil => simp [skipSeen]
  | cons tx txs ih =>
    rw [length_cons] at h
    have hl := length_lruPut_le capacity cache tx.key
    have hr : (lruPut capacity cache tx.key).2.length + txs.length ≤ capacity := by omega
    obtain ⟨hm,hle⟩ := ih (tx.key :: set) hr
    rw [skipSeen_cons_snd,length_cons]
    refine ⟨?_,by omega⟩
    rw [hm,mem_lruPut (by omega),map_cons,mem_cons,or_comm (a := k = tx.key),or_assoc]

/-- The record within a commit: what the store has recorded, and some keys of the commit. -/
def Records (s : EpochMessages) (set recorded : List SequencedConsensusTransactionKey) : Prop :=
  (∀ k ∈ s.processed, k ∈ recorded) ∧ ∀ k ∈ recorded, k ∈ s.processed ∨ k ∈ set

theorem Records.accept (h : Records s set recorded) (keep : Bool) (key) :
    Records s (key :: set) (if keep then recorded else key :: recorded) := by
  cases keep with
  | true =>
    refine ⟨h.1,fun k hk => ?_⟩
    exact (h.2 k hk).imp_right (mem_cons_of_mem _)
  | false =>
    refine ⟨fun k hk => mem_cons_of_mem _ (h.1 k hk),fun k hk => ?_⟩
    obtain rfl | hk := mem_cons.mp hk
    · exact .inr mem_cons_self
    · exact (h.2 k hk).imp_right (mem_cons_of_mem _)

theorem Records.verify_iff (h : Records s set recorded) (hs : tx.key ∉ set) :
    cfg.verifyConsensusTransaction s tx = true ↔
      ¬(tx.key ∈ recorded ∨ cfg.verifySender tx = false) := by
  have hm : tx.key ∈ recorded ↔ tx.key ∈ s.processed :=
    ⟨fun hk => (h.2 _ hk).resolve_right hs,h.1 _⟩
  rw [hm]
  simp [MessageConfig.verifyConsensusTransaction]

theorem Records.skip (h : Records s set recorded) (key) : Records s (key :: set) recorded :=
  h.accept true key

theorem filter_skipSeen_of_firstUseIn (hf : cfg.FirstUseIn s seen recorded txs)
    (hc : ∀ k ∈ cache, k ∈ seen) (hst : set ⊆ seen) (hr : Records s set recorded) :
    (skipSeen capacity set cache txs).1.filter (fun tx => cfg.verifyConsensusTransaction s tx) =
      cfg.acceptAll s recorded txs := by
  induction txs generalizing set cache seen recorded with
  | nil => rfl
  | cons tx txs ih =>
    have hc' : ∀ k ∈ (lruPut capacity cache tx.key).2, k ∈ tx.key :: seen := by
      intro k hk
      obtain rfl | hk := mem_of_mem_lruPut hk
      · exact mem_cons_self
      · exact mem_cons_of_mem _ (hc k hk)
    have hs' := cons_subset_cons tx.key hst
    unfold MessageConfig.FirstUseIn at hf
    unfold MessageConfig.acceptAll
    rw [skipSeen_cons_fst]
    by_cases hrj : tx.key ∈ recorded ∨ cfg.verifySender tx = false
    · rw [if_pos hrj] at hf ⊢
      have hrs := ih hf hc' hs' (hr.skip tx.key)
      split
      · exact hrs
      · next hs =>
        have hv := (hr.verify_iff (not_or.mp hs).1).not.mpr (not_not.mpr hrj)
        rw [filter_cons_of_neg hv]
        exact hrs
    rw [if_neg hrj] at hf ⊢
    obtain ⟨hn,hf⟩ := hf
    have hs : ¬(tx.key ∈ set ∨ tx.key ∈ cache) := fun h => hn (h.elim (fun h => hst h) (hc _))
    have hv := (hr.verify_iff (not_or.mp hs).1).mpr hrj
    rw [if_neg hs,filter_cons_of_pos hv,ih hf hc' hs' (hr.accept _ tx.key)]

theorem firstUseIn_of_filter_skipSeen (hn : txs.Nodup)
    (hrm : cache.length + txs.length ≤ capacity) (hc : ∀ k, k ∈ cache ↔ k ∈ seen)
    (hst : set ⊆ seen) (hr : Records s set recorded)
    (h : (skipSeen capacity set cache txs).1.filter
      (fun tx => cfg.verifyConsensusTransaction s tx) = cfg.acceptAll s recorded txs) :
    cfg.FirstUseIn s seen recorded txs := by
  induction txs generalizing set cache seen recorded with
  | nil => trivial
  | cons tx txs ih =>
    obtain ⟨hnn,hn⟩ := nodup_cons.mp hn
    rw [length_cons] at hrm
    have hl := length_lruPut_le capacity cache tx.key
    have hr' : (lruPut capacity cache tx.key).2.length + txs.length ≤ capacity := by omega
    have hc' : ∀ k, k ∈ (lruPut capacity cache tx.key).2 ↔ k ∈ tx.key :: seen := by
      intro k
      rw [mem_lruPut (by omega),mem_cons,hc]
    have hs' := cons_subset_cons tx.key hst
    unfold MessageConfig.acceptAll at h
    unfold MessageConfig.FirstUseIn
    rw [skipSeen_cons_fst] at h
    by_cases hrj : tx.key ∈ recorded ∨ cfg.verifySender tx = false
    · rw [if_pos hrj] at h ⊢
      refine ih hn hr' hc' hs' (hr.skip tx.key) ?_
      split at h
      · exact h
      · next hs =>
        have hv := (hr.verify_iff (not_or.mp hs).1).not.mpr (not_not.mpr hrj)
        rw [filter_cons_of_neg hv] at h
        exact h
    rw [if_neg hrj] at h ⊢
    split at h
    · -- a transaction that is skipped is not accepted
      have hm : tx ∈ (skipSeen capacity (tx.key :: set)
          (lruPut capacity cache tx.key).2 txs).1.filter (cfg.verifyConsensusTransaction s) := by
        rw [h]
        exact mem_cons_self
      exact absurd (mem_skipSeen (mem_filter.mp hm).1) hnn
    · next hs =>
      obtain ⟨hns,hnt⟩ := not_or.mp hs
      have hv := (hr.verify_iff hns).mpr hrj
      rw [filter_cons_of_pos hv] at h
      refine ⟨fun hm => hnt ((hc _).mpr hm),?_⟩
      exact ih hn hr' hc' hs' (hr.accept _ tx.key) (List.cons.inj h).2

end Commit

section Commits
variable {cfg : MessageConfig} {commits : List CommitTransactions} {commit : CommitTransactions}
  {capacity n : Nat} {seen : List SequencedConsensusTransactionKey} {s : EpochMessages}

open MessageHandler (storeAfter)

theorem storeAfter_cons (s : EpochMessages) (o : Outcome) (history : List Outcome) :
    storeAfter s (o :: history) = storeAfter o.2 history := by
  unfold storeAfter
  rw [List.getLast?_cons]
  cases history.getLast? with
  | none => rfl
  | some last => rfl

theorem nodup_sequence (commit : CommitTransactions) : (sequence commit).Nodup := by
  refine List.Nodup.of_map SequencedConsensusTransaction.transactionIndex ?_
  have hi : (sequence commit).map SequencedConsensusTransaction.transactionIndex =
      List.range' 1 commit.length := by
    refine ext_getElem (by simp [sequence]) ?_
    intro i _ _
    simp [sequence,Nat.add_comm]
  rw [hi]
  exact nodup_range'

theorem map_key_sequence (commit : CommitTransactions) :
    (sequence commit).map SequencedConsensusTransaction.key = MessageConfig.keys commit := by
  refine ext_getElem (by simp [sequence,MessageConfig.keys]) ?_
  intro i _ _
  simp [sequence,MessageConfig.keys,SequencedConsensusTransaction.key]

def storeBefore (cfg : MessageConfig) (s : EpochMessages) (commits : List CommitTransactions)
    (n : Nat) : EpochMessages := storeAfter s ((cfg.reference s commits).take n)

theorem storeBefore_succ (n : Nat) : storeBefore cfg s (commit :: commits) (n+1) =
    storeBefore cfg (cfg.process s (cfg.acceptAll s s.processed (sequence commit))) commits n :=
  storeAfter_cons _ _ _

theorem reference_getElem? (cfg : MessageConfig) (s : EpochMessages)
    (h : commits[n]? = some commit) :
    let before := storeBefore cfg s commits n
    let accepted := cfg.acceptAll before before.processed (sequence commit)
    (cfg.reference s commits)[n]? = some (accepted,cfg.process before accepted) := by
  induction commits generalizing s n with
  | nil => cases h
  | cons first commits ih =>
    cases n with
    | zero =>
      cases h
      rfl
    | succ n =>
      rw [storeBefore_succ]
      exact ih _ h

theorem firstUse_iff : cfg.FirstUse seen s commits ↔ ∀ n commit, commits[n]? = some commit →
    cfg.FirstUseIn (storeBefore cfg s commits n)
      (seen ++ (commits.take n).flatMap MessageConfig.keys)
      (storeBefore cfg s commits n).processed (sequence commit) := by
  induction commits generalizing seen s with
  | nil => simp [MessageConfig.FirstUse]
  | cons first commits ih =>
    unfold MessageConfig.FirstUse
    rw [ih]
    constructor
    · rintro ⟨hf,hr⟩ n commit hn
      cases n with
      | zero =>
        cases hn
        simpa [storeBefore,storeAfter] using hf
      | succ n =>
        rw [storeBefore_succ,take_succ_cons,flatMap_cons,← append_assoc]
        exact hr n commit hn
    intro h
    constructor
    · simpa [storeBefore,storeAfter] using h 0 first rfl
    intro n commit hn
    have := h (n+1) commit hn
    rwa [storeBefore_succ,take_succ_cons,flatMap_cons,← append_assoc] at this

/-- A handler has the outcomes that the record alone gives. -/
def Follows (cfg : MessageConfig) (commits : List CommitTransactions) (h : MessageHandler) : Prop :=
  h.history = (cfg.reference .initial commits).take h.history.length

theorem follows_handle_iff {h : MessageHandler} (hf : Follows cfg commits h)
    (hn : commits[h.history.length]? = some commit) :
    let before := storeBefore cfg .initial commits h.history.length
    Follows cfg commits (h.handleConsensusOutput cfg capacity commit) ↔
      (skipSeen capacity [] h.processedCache (sequence commit)).1.filter
          (fun tx => cfg.verifyConsensusTransaction before tx) =
        cfg.acceptAll before before.processed (sequence commit) := by
  intro before
  have hs : storeAfter .initial h.history = before := congrArg (storeAfter .initial) hf
  have hnx := reference_getElem? cfg .initial hn
  unfold Follows MessageHandler.handleConsensusOutput
  rw [hs,length_append,length_singleton,take_add_one,hnx,← hf,
    Option.toList_some,append_right_inj,singleton_inj,Prod.mk.injEq]
  exact ⟨fun he => he.1,fun he => ⟨he,congrArg (cfg.process before) he⟩⟩

theorem records_nil (s : EpochMessages) : Records s [] s.processed :=
  ⟨fun _ h => h,fun _ h => .inl h⟩

/-- What a handler keeps if keys are first used by transactions that are recorded: it follows the
record, and its cache has keys of the commits it has handled. -/
def Steady (cfg : MessageConfig) (commits : List CommitTransactions) (h : MessageHandler) : Prop :=
  Follows cfg commits h ∧
    h.processedCache ⊆ (commits.take h.history.length).flatMap MessageConfig.keys

theorem steady_of_reached (hfr : cfg.FirstUse [] .initial commits) {h : MessageHandler}
    (hh : MessageHandler.Reached cfg capacity commits h) : Steady cfg commits h := by
  refine Machine.Reached.invariant ?_ ?_ hh
  · rintro h rfl
    exact ⟨rfl,nil_subset _⟩
  rintro h event h' ⟨hf,hc⟩ - he
  cases event with
  | restart ha =>
    cases he
    refine ⟨?_,nil_subset _⟩
    unfold Follows
    rw [length_take,← take_take,← hf]
  | commit =>
    cases he
    cases hn : commits[h.history.length]? with
    | none => exact ⟨hf,hc⟩
    | some commit =>
      have hin := firstUse_iff.mp hfr _ _ hn
      constructor
      · refine (follows_handle_iff hf hn).mpr ?_
        exact filter_skipSeen_of_firstUseIn hin hc (nil_subset _) (records_nil _)
      intro k hk
      have hl : (h.handleConsensusOutput cfg capacity commit).history.length =
          h.history.length+1 := length_append
      rw [hl,take_add_one,hn,flatMap_append,mem_append]
      refine (mem_cache_of_skipSeen hk).imp (fun hk => hc hk) ?_
      intro hk
      rw [map_key_sequence] at hk
      simpa using hk

theorem flatMap_keys_take_succ (hn : commits[n]? = some commit) :
    (commits.take (n+1)).flatMap MessageConfig.keys =
      (commits.take n).flatMap MessageConfig.keys ++ MessageConfig.keys commit := by
  rw [take_add_one,hn,flatMap_append]
  simp

theorem length_sequence (commit : CommitTransactions) :
    (sequence commit).length = (MessageConfig.keys commit).length := by
  rw [← map_key_sequence,length_map]

theorem room_for_commit (hr : (commits.flatMap MessageConfig.keys).length ≤ capacity)
    (hn : commits[n]? = some commit) {size : Nat}
    (hsz : size ≤ ((commits.take n).flatMap MessageConfig.keys).length) :
    size + (sequence commit).length ≤ capacity := by
  have hs := congrArg (List.flatMap MessageConfig.keys) (take_append_drop (n+1) commits)
  rw [flatMap_append,flatMap_keys_take_succ hn] at hs
  rw [← hs,length_append,length_append] at hr
  rw [length_sequence]
  omega

theorem exists_reached_full (cfg : MessageConfig) {commits : List CommitTransactions}
    (capacity : Nat) (hr : (commits.flatMap MessageConfig.keys).length ≤ capacity) (hn : n ≤ commits.length) :
    ∃ h, MessageHandler.Reached cfg capacity commits h ∧ h.history.length = n ∧
      h.processedCache.length ≤ ((commits.take n).flatMap MessageConfig.keys).length ∧
      ∀ k, k ∈ h.processedCache ↔ k ∈ (commits.take n).flatMap MessageConfig.keys := by
  induction n with
  | zero => exact ⟨⟨[],[]⟩,.init rfl,rfl,Nat.le_refl 0,fun k => by simp⟩
  | succ n ih =>
    obtain ⟨h,hrc,hl,hs,hm⟩ := ih (Nat.le_of_lt hn)
    have hg := List.getElem?_eq_getElem hn
    have hk := flatMap_keys_take_succ hg
    have hc := room_for_commit hr hg hs
    refine ⟨h.handleConsensusOutput cfg capacity commits[n],?_,?_,?_,?_⟩
    · refine .step (i := .commit) hrc trivial ?_
      simp only [MessageHandler.exec,hl,hg]
    · simp [MessageHandler.handleConsensusOutput,hl]
    · have hb := (mem_skipSeen_cache (k := .system 0) [] hc).2
      rw [hk,length_append,← length_sequence]
      exact hb.trans (Nat.add_le_add_right hs _)
    intro k
    rw [hk,mem_append,← hm,← map_key_sequence]
    exact (mem_skipSeen_cache [] hc).1

end Commits

/-- The cache is transparent exactly if no transaction that is rejected or ignored comes before one
with the same key that the record alone accepts. -/
theorem cacheTransparent_iff (cfg : MessageConfig) (commits : List CommitTransactions) :
    cfg.CacheTransparent commits ↔ cfg.FirstUse [] .initial commits := by
  constructor
  · intro ht
    refine firstUse_iff.mpr ?_
    intro n commit hn
    -- a handler that forgets nothing, before and after the commit
    let capacity := (commits.flatMap MessageConfig.keys).length+1
    have hlt : n < commits.length := (List.getElem?_eq_some_iff.mp hn).1
    obtain ⟨h,hr,rfl,hs,hm⟩ := exists_reached_full cfg capacity (Nat.le_succ _) hlt.le
    have hfl : Follows cfg commits h := ht capacity (Nat.succ_pos _) h hr
    have hr' : MessageHandler.Reached cfg capacity commits
        (h.handleConsensusOutput cfg capacity commit) := by
      refine .step (i := .commit) hr trivial ?_
      simp only [MessageHandler.exec,hn]
    have hf' := (follows_handle_iff hfl hn).mp (ht capacity (Nat.succ_pos _) _ hr')
    exact firstUseIn_of_filter_skipSeen (nodup_sequence commit)
      (room_for_commit (Nat.le_succ _) hn hs) hm (nil_subset _) (records_nil _) hf'
  · intro hf capacity _ h hr
    exact (steady_of_reached hf hr).1

/-- Authority 0 sends an end-of-publish message in the name of authority 1, which then sends its
own. -/
def forgedEndOfPublish : List CommitTransactions :=
  [[(.external (.endOfPublish 1),0)],[(.external (.endOfPublish 1),1)]]

def forgedConfig : MessageConfig where
  epoch := 0
  congestionControlGasPriceFeedbackMechanism := true
  congestionControlEnabled := true
  maxDeferralRoundsForCongestionControl := 10
  orderByGasPrice := true
  isQuorum senders := 2 < senders.length
  trackNonCommitteeEligibleValidators := true
  checkTotalJwkSize _ _ := true

/-- The forged message is rejected, but a node that runs on also skips the genuine one, while one
that restarts in between accepts it. -/
theorem forged_message_silences :
    ∃ h h', MessageHandler.Reached forgedConfig processedCacheCap forgedEndOfPublish h ∧
      MessageHandler.Reached forgedConfig processedCacheCap forgedEndOfPublish h' ∧
      h.history.map Prod.fst = [[],[]] ∧
      h'.history.map Prod.fst = [[],[⟨1,1,.external (.endOfPublish 1)⟩]] := by
  have hr : ∀ (events : List MessageHandler.Event) (h : MessageHandler), events.foldlM
      (MessageHandler.exec forgedConfig processedCacheCap forgedEndOfPublish) ⟨[],[]⟩ = .ok h →
      MessageHandler.Reached forgedConfig processedCacheCap forgedEndOfPublish h :=
    fun _ _ hf => .foldlM (fun _ _ _ => trivial) (.init rfl) hf
  exact ⟨_,_,hr [.commit,.commit] _ rfl,hr [.commit,.restart 1,.commit] _ rfl,rfl,rfl⟩

end Iota.Authority.ProcessedCache
