import Iota.Starfish.BlockHeader

/-! What the ancestors and acknowledgments of a header are when they are read back from its
references. -/
namespace Iota.Starfish
open List
variable {o : HashOrder BlockRef} {first : BlockRef} {rest acks : List BlockRef}

def storedAncestors (first : BlockRef) (rest acks : List BlockRef) : List BlockRef :=
  first :: rest.filter (· ∉ acks) ++ rest.filter (· ∈ acks)

def storedAcknowledgments (o : HashOrder BlockRef) (first : BlockRef) (rest acks : List BlockRef) :
    List BlockRef :=
  rest.filter (· ∈ acks) ++ (o.iter acks.toFinset).filter (· ∉ first :: rest) ++
    if first ∈ acks then [first] else []

theorem storedAncestors_perm : (storedAncestors first rest acks).Perm (first :: rest) := by
  have hp := filter_append_perm (fun r => decide (r ∉ acks)) rest
  simp only [decide_not,Bool.not_not] at hp
  simpa [storedAncestors] using hp

theorem mem_storedAcknowledgments {r : BlockRef} :
    r ∈ storedAcknowledgments o first rest acks ↔ r ∈ acks := by
  simp only [storedAcknowledgments,mem_append,mem_filter,decide_eq_true_eq,o.mem_iter,
    mem_toFinset,mem_ite_nil_right,mem_cons]
  by_cases hf : r = first
  · simp [hf]
  · tauto

theorem nodup_storedAcknowledgments (h : (first :: rest).Nodup) :
    (storedAcknowledgments o first rest acks).Nodup := by
  obtain ⟨hf,hr⟩ := nodup_cons.mp h
  refine ((hr.filter _).append ((o.nodup_iter _).filter _) ?_).append ?_ ?_
  · intro r hr hi
    simp_all
  · split <;> simp
  · intro r hr hz
    simp_all

theorem compressReferences_eq (h : (first :: rest).length < 256) :
    compressReferences o (first :: rest) acks =
      (first :: rest.filter (· ∉ acks) ++ storedAcknowledgments o first rest acks,
        (first :: rest.filter (· ∉ acks)).length, (first :: rest).length) := by
  have hl : (first :: rest.filter (· ∉ acks)).length + (rest.filter (· ∈ acks)).length =
      (first :: rest).length := by
    rw [← length_append]
    exact storedAncestors_perm.length_eq
  simp only [compressReferences,mem_toFinset,storedAcknowledgments,append_assoc]
  rw [hl,Nat.mod_eq_of_lt h,Nat.mod_eq_of_lt (by omega)]

/-- A first ancestor that is acknowledged is stored twice, and without ancestors repeated
acknowledgments are stored as they are. -/
theorem references_repeated :
    (BlockHeader.new (.sorted compare) 0 2 0 0 [⟨1,0,0⟩] [⟨1,0,0⟩] [] 0).references =
      [⟨1,0,0⟩,⟨1,0,0⟩] ∧
    (BlockHeader.new (.sorted compare) 0 2 0 0 [] [⟨1,0,0⟩,⟨1,0,0⟩] [] 0).acknowledgments =
      .ok [⟨1,0,0⟩,⟨1,0,0⟩] := by
  decide +kernel

/-- Ancestors by distinct authorities and acknowledgments are read back. Each reference is stored
once, and the first ancestor once more at the end if it is acknowledged. -/
theorem references_roundTrip (o : HashOrder BlockRef) (committee : Committee)
    (epoch round author timestampMs : Nat) (first : BlockRef) (rest acks : List BlockRef)
    (commitVotes : List CommitRef) (transactionsCommitment : Nat)
    (hauthors : ((first :: rest).map BlockRef.author).Nodup)
    (hvalid : ∀ r ∈ first :: rest, r.author < committee.size) :
    let header := BlockHeader.new o epoch round author timestampMs (first :: rest) acks
      commitVotes transactionsCommitment
    ∃ ancestors acknowledgments distinct, header.ancestors = .ok ancestors ∧
      ancestors.Perm (first :: rest) ∧ ancestors.head? = some first ∧
      header.acknowledgments = .ok acknowledgments ∧ acknowledgments.Nodup ∧
      (∀ r, r ∈ acknowledgments ↔ r ∈ acks) ∧
      header.references = distinct ++ (if first ∈ acks then [first] else []) ∧ distinct.Nodup ∧
      header.overlapStartIndex = (first :: rest.filter (· ∉ acks)).length ∧
      header.overlapEndIndex = (first :: rest).length := by
  have hn : (first :: rest).Nodup := .of_map _ hauthors
  have hl : (first :: rest).length < 256 := by
    have hs : (first :: rest).map BlockRef.author ⊆ List.range committee.size := by
      intro a ha
      obtain ⟨r,hr,rfl⟩ := mem_map.mp ha
      exact mem_range.mpr (hvalid r hr)
    have hle := (hauthors.subperm hs).length_le
    have hc := committee.length_lt
    rw [length_map,length_range] at hle
    unfold Committee.size at hle
    omega
  have hp : (storedAncestors first rest acks).Perm (first :: rest) := storedAncestors_perm
  have hs : first :: rest.filter (· ∉ acks) ++ storedAcknowledgments o first rest acks =
      storedAncestors first rest acks ++ (o.iter acks.toFinset).filter (· ∉ first :: rest) ++
        if first ∈ acks then [first] else [] := by
    simp only [storedAcknowledgments,storedAncestors,append_assoc]
  simp only [BlockHeader.new,BlockHeader.ancestors,BlockHeader.acknowledgments,
    compressReferences_eq hl]
  refine ⟨_,storedAcknowledgments o first rest acks,_,?_,hp,rfl,?_,nodup_storedAcknowledgments hn,
    fun r => mem_storedAcknowledgments,hs,?_,trivial,trivial⟩
  · rw [hs,append_assoc,if_pos,← hp.length_eq,take_left]
    rw [length_append,hp.length_eq]
    omega
  · rw [if_pos,drop_left]
    rw [length_append]
    omega
  refine (hp.nodup_iff.mpr hn).append ((o.nodup_iter _).filter _) fun r hr hi => ?_
  simp only [mem_filter,decide_eq_true_eq] at hi
  exact hi.2 (hp.mem_iff.mp hr)

theorem references_roundTrip_acknowledged : ∃ ancestors acknowledgments,
    (BlockHeader.new (.sorted compare) 0 2 0 0 [⟨1,0,0⟩] [⟨1,0,0⟩] [] 0).ancestors =
      .ok ancestors ∧ ancestors.Perm [⟨1,0,0⟩] ∧
    (BlockHeader.new (.sorted compare) 0 2 0 0 [⟨1,0,0⟩] [⟨1,0,0⟩] [] 0).acknowledgments =
      .ok acknowledgments ∧ acknowledgments.Nodup := by
  obtain ⟨as,ks,_,ha,hp,-,hk,hn,-⟩ := references_roundTrip (.sorted compare)
    ⟨0,[1],by decide,by decide,by decide⟩ 0 2 0 0 ⟨1,0,0⟩ [] [⟨1,0,0⟩] [] 0 (by decide)
    (by decide)
  exact ⟨as,ks,ha,hp,hk,hn⟩

end Iota.Starfish
