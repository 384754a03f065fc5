import Iota.Starfish.BlockManager

/-! A batch of headers is split into headers that are accepted and headers that stay suspended, and
a header that was suspended is accepted or stays suspended. The assertions hold. -/
namespace Iota.Starfish
open Except List Std.ExtTreeMap
open Std (ExtTreeMap ExtTreeSet)
namespace BlockSuspender
variable {s s' : BlockSuspender}

def Waits (s : BlockSuspender) (a r : BlockRef) : Prop :=
  ∃ dependents, s.missingAncestors[a]? = some dependents ∧ r ∈ dependents

/-- `r` is suspended and `a` is one of its missing ancestors. -/
def Lacks (s : BlockSuspender) (r a : BlockRef) : Prop :=
  ∃ b, s.suspendedHeaders[r]? = some b ∧ a ∈ b.missingAncestors

/-- Headers are suspended under their references, and whoever is listed as waiting for a header is
suspended and lacks it. -/
structure Linked (s : BlockSuspender) : Prop where
  header : ∀ (r : BlockRef) b, s.suspendedHeaders[r]? = some b → b.blockHeader.reference = r
  lacks : ∀ a r, Waits s a r → Lacks s r a

theorem Linked.new : Linked new where
  header r b h := by simp [BlockSuspender.new] at h
  lacks a r h := by
    obtain ⟨dependents,hg,-⟩ := h
    simp [BlockSuspender.new] at hg

theorem Lacks.mem {r a : BlockRef} (h : Lacks s r a) : r ∈ s.suspendedHeaders := by
  obtain ⟨b,hb,-⟩ := h
  exact mem_iff_isSome_getElem?.mpr (by rw [hb]; rfl)

theorem mem_registerSuspendedBlock {header : VerifiedBlockHeader} {missing : ExtTreeSet BlockRef}
    {r : BlockRef} : r ∈ (s.registerSuspendedBlock header missing).suspendedHeaders ↔
      r = header.reference ∨ r ∈ s.suspendedHeaders := by
  simp only [registerSuspendedBlock,ExtTreeMap.mem_insert,Std.compare_eq_iff_eq]
  rw [eq_comm]

theorem lacks_registerSuspendedBlock {header : VerifiedBlockHeader}
    {missing : ExtTreeSet BlockRef} {r a : BlockRef} :
    Lacks (s.registerSuspendedBlock header missing) r a ↔
      Lacks s r a ∨ r = header.reference ∧ a ∈ missing := by
  unfold Lacks registerSuspendedBlock
  simp only [getElem?_insert_eq]
  by_cases hr : header.reference = r
  · subst hr
    cases hg : s.suspendedHeaders[header.reference]? with
    | none => simp
    | some b => simp [ExtTreeSet.mem_insertMany_list]
  · have hr' : r ≠ header.reference := fun h => hr h.symm
    simp [hr,hr']

theorem Linked.registerSuspendedBlock (h : Linked s) (header : VerifiedBlockHeader)
    (missing : ExtTreeSet BlockRef) : Linked (s.registerSuspendedBlock header missing) where
  header r b hb := by
    unfold BlockSuspender.registerSuspendedBlock at hb
    rw [getElem?_insert_eq] at hb
    split at hb
    · next hr =>
      subst hr
      cases hg : s.suspendedHeaders[header.reference]? with
      | none =>
        rw [hg] at hb
        cases hb
        rfl
      | some old =>
        rw [hg] at hb
        cases hb
        exact h.header _ old hg
    · exact h.header r b hb
  lacks a r hw := lacks_registerSuspendedBlock.mpr (.inl (h.lacks a r hw))

theorem waits_registerMissingAncestor {r0 a0 a r : BlockRef} :
    Waits (s.registerMissingAncestor r0 a0) a r ↔ Waits s a r ∨ a = a0 ∧ r = r0 := by
  unfold Waits registerMissingAncestor
  simp only [getElem?_insert_eq]
  by_cases ha : a0 = a
  · subst ha
    cases hg : s.missingAncestors[a0]? with
    | none => simp [ExtTreeSet.mem_insert,eq_comm (a := r)]
    | some dependents => simp [ExtTreeSet.mem_insert,or_comm,eq_comm (a := r)]
  · have ha' : a ≠ a0 := fun h => ha h.symm
    simp [ha,ha']

theorem suspendFor_spec (incoming : List BlockRef) (header : VerifiedBlockHeader)
    (acc : BlockSuspender × ExtTreeSet BlockRef) (ancestor : BlockRef) :
    (suspendFor incoming header acc ancestor).1.suspendedHeaders = acc.1.suspendedHeaders ∧
      ∀ a r, Waits (suspendFor incoming header acc ancestor).1 a r ↔
        Waits acc.1 a r ∨ a = ancestor ∧ r = header.reference := by
  unfold suspendFor
  dsimp only
  split
  · exact ⟨rfl,fun a r => waits_registerMissingAncestor⟩
  · exact ⟨rfl,fun a r => waits_registerMissingAncestor⟩

theorem foldl_suspendFor (incoming : List BlockRef) (header : VerifiedBlockHeader)
    (ancestors : List BlockRef) (acc : BlockSuspender × ExtTreeSet BlockRef) :
    (ancestors.foldl (suspendFor incoming header) acc).1.suspendedHeaders =
        acc.1.suspendedHeaders ∧
      ∀ a r, Waits (ancestors.foldl (suspendFor incoming header) acc).1 a r ↔
        Waits acc.1 a r ∨ a ∈ ancestors ∧ r = header.reference := by
  induction ancestors generalizing acc with
  | nil => simp
  | cons ancestor rest ih =>
    obtain ⟨hs,hw⟩ := suspendFor_spec incoming header acc ancestor
    obtain ⟨hs',hw'⟩ := ih (suspendFor incoming header acc ancestor)
    refine ⟨hs'.trans hs,fun a r => ?_⟩
    rw [foldl_cons,hw',hw,mem_cons]
    tauto

theorem Linked.resolveOrSuspendHeader {acc : Resolving} (h : Linked acc.suspender)
    (incoming : List BlockRef) (entry : VerifiedBlockHeader × ExtTreeSet BlockRef) :
    Linked (resolveOrSuspendHeader incoming acc entry).suspender ∧
      (∀ r, r ∈ (BlockSuspender.resolveOrSuspendHeader incoming acc entry).suspender.suspendedHeaders
        ↔ r ∈ acc.suspender.suspendedHeaders ∨ r = entry.1.reference ∧ entry.2.isEmpty = false) ∧
      (BlockSuspender.resolveOrSuspendHeader incoming acc entry).fullyResolvedHeaders =
        acc.fullyResolvedHeaders ++ if entry.2.isEmpty then [entry.1] else [] := by
  unfold BlockSuspender.resolveOrSuspendHeader
  split
  · next he =>
    refine ⟨⟨h.header,h.lacks⟩,fun r => ?_,rfl⟩
    simp [he]
  · next he =>
    have hk : Linked { acc.suspender with
        headersToFetch := acc.suspender.headersToFetch.erase entry.1.reference } :=
      ⟨h.header,h.lacks⟩
    have hr := hk.registerSuspendedBlock entry.1 entry.2
    obtain ⟨hs,hwt⟩ := foldl_suspendFor incoming entry.1 entry.2.toList
      (BlockSuspender.registerSuspendedBlock { acc.suspender with
        headersToFetch := acc.suspender.headersToFetch.erase entry.1.reference } entry.1 entry.2,
        acc.ancestorsToFetch)
    refine ⟨⟨fun r b hb => ?_,fun a r hw => ?_⟩,fun r => ?_,by simp⟩
    · rw [hs] at hb
      exact hr.header r b hb
    · have hl : Lacks (BlockSuspender.registerSuspendedBlock { acc.suspender with
          headersToFetch := acc.suspender.headersToFetch.erase entry.1.reference }
          entry.1 entry.2) r a := by
        obtain hw | ⟨ha,rfl⟩ := (hwt a r).mp hw
        · exact hr.lacks a r hw
        · exact lacks_registerSuspendedBlock.mpr (.inr ⟨rfl,ExtTreeSet.mem_toList.mp ha⟩)
      obtain ⟨b,hb,ha⟩ := hl
      exact ⟨b,by rw [hs]; exact hb,ha⟩
    · rw [hs,mem_registerSuspendedBlock,or_comm]
      simp [he]

theorem Linked.resolveOrSuspendHeaders (h : Linked s)
    (entries : List (VerifiedBlockHeader × ExtTreeSet BlockRef)) :
    Linked (s.resolveOrSuspendHeaders entries).suspender ∧
      (∀ r, r ∈ (s.resolveOrSuspendHeaders entries).suspender.suspendedHeaders ↔
        r ∈ s.suspendedHeaders ∨ ∃ e ∈ entries, e.1.reference = r ∧ e.2.isEmpty = false) ∧
      (s.resolveOrSuspendHeaders entries).fullyResolvedHeaders =
        (entries.filter fun e => e.2.isEmpty).map Prod.fst := by
  unfold BlockSuspender.resolveOrSuspendHeaders
  generalize entries.map (fun e => e.1.reference) = incoming
  -- over what has been done and what is left of the batch
  have hg : ∀ acc : Resolving, Linked acc.suspender →
      Linked (entries.foldl (BlockSuspender.resolveOrSuspendHeader incoming) acc).suspender ∧
      (∀ r, r ∈ (entries.foldl (BlockSuspender.resolveOrSuspendHeader incoming)
          acc).suspender.suspendedHeaders ↔ r ∈ acc.suspender.suspendedHeaders ∨
            ∃ e ∈ entries, e.1.reference = r ∧ e.2.isEmpty = false) ∧
      (entries.foldl (BlockSuspender.resolveOrSuspendHeader incoming) acc).fullyResolvedHeaders =
        acc.fullyResolvedHeaders ++ (entries.filter fun e => e.2.isEmpty).map Prod.fst := by
    induction entries with
    | nil =>
      intro acc ha
      refine ⟨ha,?_,?_⟩
      · simp
      · simp
    | cons entry rest ih =>
      intro acc ha
      obtain ⟨hl,hm,hr⟩ := ha.resolveOrSuspendHeader incoming entry
      obtain ⟨hl',hm',hr'⟩ := ih _ hl
      refine ⟨hl',fun r => ?_,?_⟩
      · rw [foldl_cons,hm',hm,exists_mem_cons_iff,or_assoc,eq_comm]
      rw [foldl_cons,hr',hr,append_assoc,filter_cons]
      split
      · rfl
      · rfl
  exact hg { suspender := s } h

/-- The headers `released` are no longer suspended, all others still are. -/
structure Released (s s' : BlockSuspender) (released : List VerifiedBlockHeader) : Prop where
  mem : ∀ r, r ∈ s.suspendedHeaders ↔
    r ∈ s'.suspendedHeaders ∨ r ∈ released.map (·.reference)
  not_mem : ∀ h ∈ released, h.reference ∉ s'.suspendedHeaders
  size : s'.suspendedHeaders.size + released.length = s.suspendedHeaders.size

theorem Released.refl (h : s'.suspendedHeaders = s.suspendedHeaders) : Released s s' [] := by
  refine ⟨fun r => ?_,forall_mem_nil _,?_⟩
  · rw [h]
    simp
  · rw [h]
    rfl

variable {l l' : List VerifiedBlockHeader}

theorem Released.trans {s1 s2 s3 : BlockSuspender}
    (h : Released s1 s2 l) (h' : Released s2 s3 l') : Released s1 s3 (l ++ l') := by
  refine ⟨fun r => ?_,?_,?_⟩
  · rw [h.mem,h'.mem,map_append,mem_append]
    tauto
  · intro x hx hm
    obtain hx | hx := mem_append.mp hx
    · exact h.not_mem x hx ((h'.mem _).mpr (.inl hm))
    · exact h'.not_mem x hx hm
  have := h.size
  have := h'.size
  rw [length_append]
  omega

theorem Linked.unsuspendIfReady (h : Linked s) {r dep : BlockRef} (hl : Lacks s r dep)
    (hn : ∀ x, ¬ Waits s dep x) :
    ∃ o s', s.unsuspendIfReady r dep = .ok (o,s') ∧ Linked s' ∧ Released s s' o.toList ∧
      s'.missingAncestors = s.missingAncestors ∧
      ∀ x a, x ≠ r → (Lacks s' x a ↔ Lacks s x a) := by
  obtain ⟨b,hb,hd⟩ := hl
  have hm : r ∈ s.suspendedHeaders := Lacks.mem ⟨b,hb,hd⟩
  unfold BlockSuspender.unsuspendIfReady
  rw [hb]
  dsimp only
  rw [if_pos hd]
  by_cases hem : (b.missingAncestors.erase dep).isEmpty = true
  · rw [if_pos hem]
    have hf : ∀ x a, x ≠ r → (Lacks { s with
        suspendedHeaders := s.suspendedHeaders.erase r } x a ↔ Lacks s x a) := by
      intro x a hx
      unfold Lacks
      simp only [getElem?_erase_eq,if_neg (Ne.symm hx)]
    refine ⟨_,_,rfl,⟨fun x b' hb' => ?_,fun a x hw => ?_⟩,⟨fun x => ?_,?_,?_⟩,rfl,hf⟩
    · rw [getElem?_erase_eq] at hb'
      split at hb'
      · cases hb'
      · exact h.header x b' hb'
    · have hlx := h.lacks a x hw
      by_cases hx : x = r
      · -- its only missing ancestor was `dep`
        subst hx
        obtain ⟨b',hb',ha⟩ := hlx
        rw [hb] at hb'
        cases hb'
        have hne : dep ≠ a := fun he => hn x (he ▸ hw)
        have hin : a ∈ b.missingAncestors.erase dep := by
          simp [ExtTreeSet.mem_erase,hne,ha]
        rw [ExtTreeSet.isEmpty_iff.mp hem] at hin
        simp at hin
      · exact (hf x a hx).mpr hlx
    · rw [Option.toList_some,map_singleton,mem_singleton,h.header r b hb]
      by_cases hx : x = r
      · simp [hx,hm]
      · simp [ExtTreeMap.mem_erase,hx,eq_comm (a := r)]
    · intro x hx
      rw [mem_singleton.mp hx,h.header r b hb]
      simp
    · have hp : s.suspendedHeaders.size ≠ 0 := by
        intro hz
        rw [eq_empty_iff_size_eq_zero.mpr hz] at hm
        simp at hm
      rw [ExtTreeMap.size_erase,if_pos (ExtTreeMap.contains_iff_mem.mpr hm)]
      exact Nat.sub_add_cancel (Nat.one_le_iff_ne_zero.mpr hp)
  · rw [if_neg hem]
    have hf : ∀ x a, x ≠ r → (Lacks { s with
        suspendedHeaders := s.suspendedHeaders.insert r
          { b with missingAncestors := b.missingAncestors.erase dep } } x a ↔ Lacks s x a) := by
      intro x a hx
      unfold Lacks
      simp only [getElem?_insert_eq,if_neg (Ne.symm hx)]
    refine ⟨_,_,rfl,⟨fun x b' hb' => ?_,fun a x hw => ?_⟩, ⟨fun x => ?_,forall_mem_nil _,?_⟩,rfl,hf⟩
    · rw [getElem?_insert_eq] at hb'
      split at hb'
      · next hx =>
        cases hb'
        rw [← hx]
        exact h.header r b hb
      · exact h.header x b' hb'
    · have hlx := h.lacks a x hw
      by_cases hx : x = r
      · subst hx
        obtain ⟨b',hb',ha⟩ := hlx
        rw [hb] at hb'
        cases hb'
        have hne : dep ≠ a := fun he => hn x (he ▸ hw)
        refine ⟨{ b with missingAncestors := b.missingAncestors.erase dep },?_,?_⟩
        · simp
        · simp [ExtTreeSet.mem_erase,hne,ha]
      · exact (hf x a hx).mpr hlx
    · by_cases hx : x = r
      · simp [hx,hm]
      · simp [ExtTreeMap.mem_insert,eq_comm (a := r),hx]
    · rw [ExtTreeMap.size_insert,if_pos (ExtTreeMap.contains_iff_mem.mpr hm)]
      rfl

/-- The state `u` of the loop after headers `released` became ready. -/
structure Unsuspends (u u' : Unsuspending) (released : List VerifiedBlockHeader) : Prop where
  linked : Linked u'.suspender
  suspended : Released u.suspender u'.suspender released
  ready : u'.readyBlocks = u.readyBlocks ++ released
  stack : u'.stack.length = u.stack.length + released.length

theorem Unsuspends.trans {u1 u2 u3 : Unsuspending}
    (h : Unsuspends u1 u2 l) (h' : Unsuspends u2 u3 l') : Unsuspends u1 u3 (l ++ l') where
  linked := h'.linked
  suspended := h.suspended.trans h'.suspended
  ready := by rw [h'.ready,h.ready,append_assoc]
  stack := by rw [h'.stack,h.stack,length_append,Nat.add_assoc]

variable {u : Unsuspending}

theorem exists_unsuspendDependent (h : Linked u.suspender) {r dep : BlockRef}
    (hlc : Lacks u.suspender r dep) (hn : ∀ x, ¬ Waits u.suspender dep x) :
    ∃ u' released, unsuspendDependent dep u r = .ok u' ∧ Unsuspends u u' released ∧
      u'.suspender.missingAncestors = u.suspender.missingAncestors ∧
      ∀ x a, x ≠ r → (Lacks u'.suspender x a ↔ Lacks u.suspender x a) := by
  obtain ⟨o,s',hs',hl,hr,hs,hf⟩ := h.unsuspendIfReady hlc hn
  unfold unsuspendDependent
  rw [hs']
  cases o with
  | none => exact ⟨_,[],rfl,⟨hl,hr,by simp,rfl⟩,hs,hf⟩
  | some header => exact ⟨_,[header],rfl,⟨hl,hr,rfl,rfl⟩,hs,hf⟩

theorem exists_foldlM_unsuspendDependent {dep : BlockRef} (rs : List BlockRef) (hn : rs.Nodup)
    (h : Linked u.suspender) (hnn : ∀ x, ¬ Waits u.suspender dep x)
    (hl : ∀ r ∈ rs, Lacks u.suspender r dep) :
    ∃ u' released, rs.foldlM (unsuspendDependent dep) u = .ok u' ∧ Unsuspends u u' released := by
  induction rs generalizing u with
  | nil => exact ⟨u,[],rfl,⟨h,.refl rfl,by simp,rfl⟩⟩
  | cons r rs ih =>
    obtain ⟨hr,hn⟩ := nodup_cons.mp hn
    obtain ⟨u1,l1,hu1,h1,hs,hf⟩ := exists_unsuspendDependent h (hl r mem_cons_self) hnn
    have hn1 : ∀ x, ¬ Waits u1.suspender dep x := by
      intro x hw
      unfold Waits at hw
      rw [hs] at hw
      exact hnn x hw
    have hl1 : ∀ x ∈ rs, Lacks u1.suspender x dep := by
      intro x hx
      have hne : x ≠ r := fun he => hr (he ▸ hx)
      exact (hf x dep hne).mpr (hl x (.tail _ hx))
    obtain ⟨u2,l2,hu2,h2⟩ := ih hn h1.linked hn1 hl1
    refine ⟨u2,l1 ++ l2,?_,h1.trans h2⟩
    rw [foldlM_cons,hu1,ok_bind,hu2]

theorem exists_unsuspendLoop {fuel : Nat} (h : Linked u.suspender)
    (hf : u.suspender.suspendedHeaders.size + u.stack.length < fuel) :
    ∃ u' released, unsuspendLoop fuel u = .ok u' ∧ Linked u'.suspender ∧
      Released u.suspender u'.suspender released ∧
      u'.readyBlocks = u.readyBlocks ++ released := by
  induction fuel generalizing u with
  | zero => exact absurd hf (Nat.not_lt_zero _)
  | succ fuel ih =>
    unfold unsuspendLoop
    cases hst : u.stack with
    | nil => exact ⟨u,[],rfl,h,.refl rfl,by simp⟩
    | cons popped stack =>
      rw [hst,length_cons] at hf
      dsimp only
      cases hg : u.suspender.missingAncestors[popped]? with
      | none => exact ih h (by dsimp only; omega)
      | some dependents =>
        have her : ∀ a x, Waits { u.suspender with
            missingAncestors := u.suspender.missingAncestors.erase popped } a x →
            a ≠ popped ∧ Waits u.suspender a x := by
          rintro a x ⟨ds,hds,hx⟩
          rw [getElem?_erase_eq] at hds
          split at hds
          · cases hds
          · next hne => exact ⟨Ne.symm hne,ds,hds,hx⟩
        have hl : Linked { u.suspender with
            missingAncestors := u.suspender.missingAncestors.erase popped } :=
          ⟨h.header,fun a x hw => h.lacks a x (her a x hw).2⟩
        obtain ⟨u1,l1,hu1,h1⟩ := exists_foldlM_unsuspendDependent
          (u := { u with
            suspender := { u.suspender with
              missingAncestors := u.suspender.missingAncestors.erase popped }
            stack })
          dependents.toList (dependents.distinct_toList.imp fun hne he => hne (by rw [he]; simp))
          hl (fun x hw => (her popped x hw).1 rfl)
          (fun r hr => h.lacks popped r ⟨dependents,hg,ExtTreeSet.mem_toList.mp hr⟩)
        have hs := h1.suspended.size
        have hln := h1.stack
        dsimp only at hs hln
        obtain ⟨u2,l2,hu2,hl2,hrl,hrd⟩ := ih h1.linked (by omega)
        refine ⟨u2,l1 ++ l2,?_,hl2,?_,?_⟩
        · dsimp only
          rw [hu1,ok_bind,hu2]
        · have hfr : Released u.suspender u1.suspender l1 :=
            ⟨h1.suspended.mem,h1.suspended.not_mem,h1.suspended.size⟩
          exact hfr.trans hrl
        · rw [hrd,h1.ready,append_assoc]

theorem exists_recursivelyUnsuspendDependents (h : Linked s) (resolved : BlockRef) :
    ∃ released s', s.recursivelyUnsuspendDependents resolved = .ok (released,s') ∧ Linked s' ∧
      Released s s' released := by
  have hf : s.suspendedHeaders.size + [resolved].length < s.suspendedHeaders.size+2 := by simp
  obtain ⟨u',released,hu',hl,hrl,hr⟩ := exists_unsuspendLoop (u := ⟨s,[resolved],[]⟩) h hf
  refine ⟨released,u'.suspender,?_,hl,hrl⟩
  unfold recursivelyUnsuspendDependents
  rw [hu',ok_bind,hr]
  rfl

theorem exists_foldlM_acceptResolved (h : Linked s) (resolved accepted : List VerifiedBlockHeader) :
    ∃ accepted' released s', resolved.foldlM acceptResolved (accepted,s) = .ok (accepted',s') ∧
      Linked s' ∧ Released s s' released ∧
      ∀ x, x ∈ accepted' ↔ x ∈ accepted ∨ x ∈ resolved ∨ x ∈ released := by
  induction resolved generalizing s accepted with
  | nil => exact ⟨accepted,[],s,rfl,h,.refl rfl,by simp⟩
  | cons header resolved ih =>
    obtain ⟨l1,s1,hs1,hl1,hr1⟩ := exists_recursivelyUnsuspendDependents h header.reference
    obtain ⟨accepted',l2,s2,hs2,hl2,hr2,hm⟩ := ih hl1 (accepted ++ header :: l1)
    refine ⟨accepted',l1 ++ l2,s2,?_,hl2,hr1.trans hr2,fun x => ?_⟩
    · rw [foldlM_cons]
      unfold acceptResolved
      rw [hs1,ok_bind]
      exact hs2
    rw [hm]
    simp only [mem_append,mem_cons]
    tauto

theorem exists_acceptOrSuspend (h : Linked s)
    {entries : List (VerifiedBlockHeader × ExtTreeSet BlockRef)}
    (hnd : (entries.map fun e => e.1.reference).Nodup)
    (hn : ∀ e ∈ entries, e.1.reference ∉ s.suspendedHeaders) :
    ∃ accepted toFetch s', s.acceptOrSuspendReceivedHeaders entries = .ok (accepted,toFetch,s') ∧
      Linked s' ∧
      (∀ r, (r ∈ s.suspendedHeaders ∨ ∃ e ∈ entries, e.1.reference = r) ↔
        r ∈ s'.suspendedHeaders ∨ r ∈ accepted.map (·.reference)) ∧
      ∀ x ∈ accepted, x.reference ∉ s'.suspendedHeaders := by
  obtain ⟨hl,hm,hrs⟩ := h.resolveOrSuspendHeaders entries
  obtain ⟨accepted,released,s',hs',hl',hrl,ha⟩ := exists_foldlM_acceptResolved hl
    (s.resolveOrSuspendHeaders entries).fullyResolvedHeaders []
  have ha' : ∀ x, x ∈ accepted ↔
      (∃ e ∈ entries, e.2.isEmpty = true ∧ e.1 = x) ∨ x ∈ released := by
    intro x
    rw [ha,hrs]
    simp
  refine ⟨accepted,(s.resolveOrSuspendHeaders entries).ancestorsToFetch,s',?_,hl',fun r => ?_,
    fun x hx hs => ?_⟩
  · unfold acceptOrSuspendReceivedHeaders
    dsimp only
    rw [hs']
    rfl
  · have hrf : r ∈ accepted.map (·.reference) ↔
        (∃ e ∈ entries, e.2.isEmpty = true ∧ e.1.reference = r) ∨
          r ∈ released.map (·.reference) := by
      simp only [mem_map,ha']
      constructor
      · rintro ⟨x,⟨e,he,hem,rfl⟩ | hx,rfl⟩
        · exact .inl ⟨e,he,hem,rfl⟩
        · exact .inr ⟨x,hx,rfl⟩
      rintro (⟨e,he,hem,rfl⟩ | ⟨x,hx,rfl⟩)
      · exact ⟨e.1,.inl ⟨e,he,hem,rfl⟩,rfl⟩
      · exact ⟨x,.inr hx,rfl⟩
    have hb : (∃ e ∈ entries, e.1.reference = r) ↔
        (∃ e ∈ entries, e.1.reference = r ∧ e.2.isEmpty = false) ∨
          ∃ e ∈ entries, e.2.isEmpty = true ∧ e.1.reference = r := by
      constructor
      · rintro ⟨e,he,hr⟩
        cases hem : e.2.isEmpty with
        | false => exact .inl ⟨e,he,hr,hem⟩
        | true => exact .inr ⟨e,he,hem,hr⟩
      rintro (⟨e,he,hr,-⟩ | ⟨e,he,-,hr⟩)
      · exact ⟨e,he,hr⟩
      · exact ⟨e,he,hr⟩
    rw [hb,← or_assoc,← hm,hrl.mem,hrf]
    exact or_assoc.trans (or_congr_right or_comm)
  · obtain ⟨e,he,hem,rfl⟩ | hx := (ha' x).mp hx
    · obtain ho | ⟨e',he',hr,hem'⟩ := (hm _).mp ((hrl.mem _).mpr (.inl hs))
      · exact hn e he ho
      · rw [inj_on_of_nodup_map hnd he' he hr,hem] at hem'
        cases hem'
    · exact hrl.not_mem x hx hs

end BlockSuspender
end Iota.Starfish
