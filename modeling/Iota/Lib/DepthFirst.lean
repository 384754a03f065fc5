import Iota.Lib.BTree

/-! Values under keys of an ordered map are moved to a list, each after the values it depends on.
The recursion is kept on a stack of frames; a dependency that is not in the map is skipped. -/
namespace DepthFirst
open List
open Std (ExtTreeMap TransCmp LawfulEqCmp)
variable {K V : Type} {cmp : K → K → Ordering} [TransCmp cmp]

structure State (K V : Type) (cmp : K → K → Ordering) [TransCmp cmp] where
  notSeen : ExtTreeMap K V cmp
  output : List V

/-- A value on the stack, with the dependencies still to be looked at. -/
structure Frame (K V : Type) where
  remaining : List K
  value : V

namespace State

/-- The first of the keys that has not been seen, with the keys after it. -/
def takeUnseen (s : State K V cmp) : List K → Option (V × List K × State K V cmp)
  | [] => none
  | d :: ds =>
    match s.notSeen[d]? with
    | some v => some (v,ds,{ s with notSeen := s.notSeen.erase d })
    | none => s.takeUnseen ds

variable (deps : V → List K)

def run : Nat → State K V cmp → List (Frame K V) → State K V cmp
  | 0, s, _ => s
  | _+1, s, [] => s
  | fuel+1, s, f :: rest =>
    match s.takeUnseen f.remaining with
    | some (v,ds,s') => run fuel s' (⟨deps v,v⟩ :: ⟨ds,f.value⟩ :: rest)
    | none => run fuel { s with output := s.output ++ [f.value] } rest

/-- A value with everything it depends on; it has been removed from the map. -/
def insert (s : State K V cmp) (v : V) : State K V cmp :=
  s.run deps (2 * s.notSeen.size + 1) [⟨deps v,v⟩]

def sortLoop : Nat → State K V cmp → State K V cmp
  | 0, s => s
  | n+1, s =>
    match s.notSeen.toList with
    | [] => s
    | (k,v) :: _ => sortLoop n (insert deps { s with notSeen := s.notSeen.erase k } v)

end State

def sort (deps : V → List K) (m : ExtTreeMap K V cmp) : List V :=
  (State.sortLoop deps m.size ⟨m,[]⟩).output

variable {deps : V → List K} {key : V → K} {rank : K → Nat} {m : ExtTreeMap K V cmp}

def Closed (deps : V → List K) (key : V → K) (m : ExtTreeMap K V cmp) (output : List V) : Prop :=
  ∀ before v after, output = before ++ v :: after → ∀ d ∈ deps v, d ∈ m → d ∈ before.map key

theorem Closed.append {output : List V} (h : Closed deps key m output) {v : V}
    (hv : ∀ d ∈ deps v, d ∈ m → d ∈ output.map key) : Closed deps key m (output ++ [v]) := by
  intro before w after heq d hd hm
  obtain ⟨rest,rfl,hr⟩ | ⟨rest,rfl,hr⟩ := append_eq_append_iff.mp heq
  · cases rest with
    | nil =>
      rw [append_nil]
      cases hr
      exact hv d hd hm
    | cons x xs => simp at hr
  cases rest with
  | nil =>
    rw [append_nil] at hv
    cases hr
    exact hv d hd hm
  | cons x xs =>
    cases hr
    exact h before w xs rfl d hd hm

/-- What the map must satisfy: values carry their keys, and dependencies rank lower. -/
structure Ranked (deps : V → List K) (key : V → K) (rank : K → Nat) (m : ExtTreeMap K V cmp) :
    Prop where
  key_eq : ∀ (k : K) v, m[k]? = some v → key v = k
  rank_lt : ∀ (k : K) v, m[k]? = some v → ∀ d ∈ deps v, d ∈ m → rank d < rank k

/-- The frames from the top: the dependencies already looked at are in the output, or are the value
of the frame above; ranks grow downwards. -/
def Frames (deps : V → List K) (key : V → K) (rank : K → Nat) (m : ExtTreeMap K V cmp)
    (output : List V) : Option K → List (Frame K V) → Prop
  | _, [] => True
  | above, f :: rest =>
    (∃ done, deps f.value = done ++ f.remaining ∧
      ∀ d ∈ done, d ∈ m → d ∈ output.map key ∨ above = some d) ∧
    (∀ g ∈ rest, rank (key f.value) < rank (key g.value)) ∧
    Frames deps key rank m output (some (key f.value)) rest

structure Inv (deps : V → List K) (key : V → K) (rank : K → Nat) (m : ExtTreeMap K V cmp)
    (s : State K V cmp) (stack : List (Frame K V)) : Prop where
  sub : ∀ (k : K) v, s.notSeen[k]? = some v → m[k]? = some v
  all : (s.notSeen.toList.map Prod.snd ++ stack.map Frame.value ++ s.output).Perm
    (m.toList.map Prod.snd)
  frames : Frames deps key rank m s.output none stack
  closed : Closed deps key m s.output

section
variable {s : State K V cmp} {stack : List (Frame K V)}

theorem takeUnseen_some {ks ds : List K} {v : V} {s' : State K V cmp}
    (h : s.takeUnseen ks = some (v,ds,s')) :
    ∃ seen d, ks = seen ++ d :: ds ∧ (∀ k ∈ seen, s.notSeen[k]? = none) ∧
      s.notSeen[d]? = some v ∧ s' = { s with notSeen := s.notSeen.erase d } := by
  induction ks with
  | nil => cases h
  | cons k ks ih =>
    unfold State.takeUnseen at h
    split at h
    · next w hw =>
      cases h
      exact ⟨[],k,rfl,forall_mem_nil _,hw,rfl⟩
    · next hn =>
      obtain ⟨seen,d,rfl,hsn,hd,hs⟩ := ih h
      exact ⟨k :: seen,d,rfl,forall_mem_cons.mpr ⟨hn,hsn⟩,hd,hs⟩

theorem takeUnseen_none {ks : List K} (h : s.takeUnseen ks = none) :
    ∀ k ∈ ks, s.notSeen[k]? = none := by
  induction ks with
  | nil => exact forall_mem_nil _
  | cons k ks ih =>
    unfold State.takeUnseen at h
    split at h
    · cases h
    · next hn => exact forall_mem_cons.mpr ⟨hn,ih h⟩

theorem Frames.mono {output output' : List V} {above above' : Option K}
    (ho : ∀ k ∈ output.map key, k ∈ output'.map key)
    (ha : ∀ k, above = some k → k ∈ output'.map key ∨ above' = some k)
    (h : Frames deps key rank m output above stack) :
    Frames deps key rank m output' above' stack := by
  induction stack generalizing above above' with
  | nil => trivial
  | cons f rest ih =>
    obtain ⟨⟨done,hdp,hdn⟩,hr,hrs⟩ := h
    refine ⟨⟨done,hdp,fun d hd hm => ?_⟩,hr,ih (fun k => .inr) hrs⟩
    obtain hin | heq := hdn d hd hm
    · exact .inl (ho d hin)
    · exact ha d heq

variable [LawfulEqCmp cmp] {f : Frame K V}

theorem Inv.top_mem (h : Inv deps key rank m s (f :: stack))
    (hr : Ranked deps key rank m) : m[key f.value]? = some f.value := by
  have hm : f.value ∈ m.toList.map Prod.snd := h.all.mem_iff.mp (by simp)
  obtain ⟨⟨k,v⟩,he,heq⟩ := mem_map.mp hm
  have hk := ExtTreeMap.mem_toList_iff_getElem?_eq_some.mp he
  have hv : v = f.value := heq
  rw [hv] at hk
  rw [hr.key_eq k f.value hk,hk]

theorem Inv.seen (h : Inv deps key rank m s stack) (hr : Ranked deps key rank m) {d : K}
    (hm : d ∈ m) (hs : s.notSeen[d]? = none) :
    d ∈ (stack.map Frame.value).map key ∨ d ∈ s.output.map key := by
  obtain ⟨w,hw⟩ := ExtTreeMap.mem_iff_isSome_getElem?.mp hm |> Option.isSome_iff_exists.mp
  have hky := hr.key_eq d w hw
  have hmm : w ∈ m.toList.map Prod.snd :=
    mem_map_of_mem (ExtTreeMap.mem_toList_iff_getElem?_eq_some.mpr hw)
  obtain hmm | ho := mem_append.mp (h.all.mem_iff.mpr hmm)
  · obtain hu | hst := mem_append.mp hmm
    · obtain ⟨⟨k,v⟩,he,rfl⟩ := mem_map.mp hu
      have hk := ExtTreeMap.mem_toList_iff_getElem?_eq_some.mp he
      have hkd : k = d := (hr.key_eq k v (h.sub k v hk)).symm.trans hky
      rw [hkd,hs] at hk
      cases hk
    · exact .inl (hky ▸ mem_map_of_mem hst)
  · exact .inr (hky ▸ mem_map_of_mem ho)

theorem Inv.mem_output_of_dep (h : Inv deps key rank m s (f :: stack))
    (hr : Ranked deps key rank m) {d : K} (hd : d ∈ deps f.value) (hm : d ∈ m)
    (hs : s.notSeen[d]? = none) : d ∈ s.output.map key := by
  obtain hst | ho := h.seen hr hm hs
  · exfalso
    have hlt := hr.rank_lt _ _ (h.top_mem hr) d hd hm
    obtain ⟨v,hv,hk⟩ := mem_map.mp hst
    obtain ⟨g,hg,rfl⟩ := mem_map.mp hv
    obtain rfl | hg := mem_cons.mp hg
    · rw [hk] at hlt
      exact Nat.lt_irrefl _ hlt
    have := h.frames.2.1 g hg
    rw [hk] at this
    exact Nat.lt_asymm hlt this
  · exact ho

variable [DecidableEq K]

theorem Inv.push (h : Inv deps key rank m s (f :: stack))
    (hr : Ranked deps key rank m) {seen ds : List K} {d : K} {v : V}
    (hrm : f.remaining = seen ++ d :: ds) (hs : ∀ k ∈ seen, s.notSeen[k]? = none)
    (hd : s.notSeen[d]? = some v) :
    Inv deps key rank m { s with notSeen := s.notSeen.erase d }
      (⟨deps v,v⟩ :: ⟨ds,f.value⟩ :: stack) := by
  obtain ⟨⟨done,hdp,hdn⟩,hrn,hrs⟩ := h.frames
  have hky : key v = d := hr.key_eq d v (h.sub d v hd)
  have hdm : d ∈ m := ExtTreeMap.mem_iff_isSome_getElem?.mpr (by simp [h.sub d v hd])
  have hlt : rank (key v) < rank (key f.value) := by
    rw [hky]
    exact hr.rank_lt _ _ (h.top_mem hr) d (by rw [hdp,hrm]; simp) hdm
  refine ⟨?_,?_,⟨⟨[],rfl,forall_mem_nil _⟩,?_,⟨done ++ seen ++ [d],?_,?_⟩,hrn, hrs⟩,h.closed⟩
  · intro k w hk
    rw [ExtTreeMap.getElem?_erase_eq] at hk
    split at hk
    · cases hk
    · exact h.sub k w hk
  · have hp := ((ExtTreeMap.toList_perm_cons_erase hd).map Prod.snd)
    refine List.Perm.trans ?_ h.all
    refine List.Perm.append_right _ ?_
    refine List.Perm.trans ?_ ((hp.append_right _).symm)
    exact perm_middle
  · intro g hg
    obtain rfl | hg := mem_cons.mp hg
    · exact hlt
    · exact hlt.trans (hrn g hg)
  · rw [hdp,hrm]
    simp
  intro k hk hm
  rw [append_assoc] at hk
  obtain hk | hk := mem_append.mp hk
  · obtain ho | ha := hdn k hk hm
    · exact .inl ho
    · cases ha
  obtain hk | hk := mem_append.mp hk
  · refine .inl (h.mem_output_of_dep hr ?_ hm (hs k hk))
    rw [hdp,hrm]
    simp [hk]
  · rw [mem_singleton.mp hk,hky]
    exact .inr rfl

omit [DecidableEq K] in
theorem Inv.pop (h : Inv deps key rank m s (f :: stack))
    (hr : Ranked deps key rank m) (hs : ∀ k ∈ f.remaining, s.notSeen[k]? = none) :
    Inv deps key rank m { s with output := s.output ++ [f.value] } stack := by
  obtain ⟨⟨done,hdp,hdn⟩,hrn,hrs⟩ := h.frames
  refine ⟨h.sub,?_,?_,h.closed.append ?_⟩
  · refine List.Perm.trans ?_ h.all
    simp only [map_cons,append_assoc]
    refine List.Perm.append_left _ ?_
    rw [← append_assoc]
    exact (perm_append_singleton _ _)
  · refine Frames.mono (fun k hk => ?_) (fun k hk => ?_) hrs
    · rw [map_append]
      exact mem_append_left _ hk
    · cases hk
      exact .inl (by simp)
  intro d hd hm
  rw [hdp] at hd
  obtain hd' | hd' := mem_append.mp hd
  · obtain ho | ha := hdn d hd' hm
    · exact ho
    · cases ha
  · exact h.mem_output_of_dep hr (hdp ▸ hd) hm (hs d hd')

theorem size_erase_lt {d : K} {v : V} (hd : s.notSeen[d]? = some v) :
    (s.notSeen.erase d).size+1 = s.notSeen.size := by
  have hl := (ExtTreeMap.toList_perm_cons_erase hd).length_eq
  rw [length_cons,ExtTreeMap.length_toList,ExtTreeMap.length_toList] at hl
  exact hl.symm

theorem Inv.run (hr : Ranked deps key rank m) {fuel : Nat} (h : Inv deps key rank m s stack)
    (hf : 2 * s.notSeen.size + stack.length ≤ fuel) :
    Inv deps key rank m (s.run deps fuel stack) [] ∧
      (s.run deps fuel stack).notSeen.size ≤ s.notSeen.size := by
  induction fuel generalizing s stack with
  | zero =>
    have hn : stack = [] := eq_nil_of_length_eq_zero (by omega)
    subst hn
    exact ⟨h,le_rfl⟩
  | succ fuel ih =>
    cases stack with
    | nil => exact ⟨h,le_rfl⟩
    | cons f rest =>
      unfold State.run
      split
      · next v ds s' ht =>
        obtain ⟨seen,d,hrm,hs,hd,rfl⟩ := takeUnseen_some ht
        have hsz := size_erase_lt hd
        obtain ⟨hi,hle⟩ := ih (h.push hr hrm hs hd) (by
          simp only [length_cons] at hf ⊢
          omega)
        refine ⟨hi,hle.trans ?_⟩
        rw [← hsz]
        exact Nat.le_succ _
      · next ht =>
        obtain ⟨hi,hle⟩ := ih (h.pop hr (takeUnseen_none ht)) (by
          simp only [length_cons] at hf ⊢
          omega)
        exact ⟨hi,hle⟩

theorem Inv.pick (h : Inv deps key rank m s []) {k : K} {v : V} (hk : s.notSeen[k]? = some v) :
    Inv deps key rank m { s with notSeen := s.notSeen.erase k } [⟨deps v,v⟩] := by
  refine ⟨?_,?_,⟨⟨[],rfl,forall_mem_nil _⟩,forall_mem_nil _,trivial⟩,h.closed⟩
  · intro k' w hk'
    rw [ExtTreeMap.getElem?_erase_eq] at hk'
    split at hk'
    · cases hk'
    · exact h.sub k' w hk'
  refine List.Perm.trans (List.Perm.append_right _ ?_) h.all
  rw [map_nil,append_nil]
  refine List.Perm.trans ?_ ((ExtTreeMap.toList_perm_cons_erase hk).map Prod.snd).symm
  exact perm_append_singleton _ _

theorem Inv.sortLoop (hr : Ranked deps key rank m) {n : Nat} (h : Inv deps key rank m s [])
    (hn : s.notSeen.size ≤ n) :
    Inv deps key rank m (s.sortLoop deps n) [] ∧ (s.sortLoop deps n).notSeen.size = 0 := by
  induction n generalizing s with
  | zero => exact ⟨h,Nat.le_zero.mp hn⟩
  | succ n ih =>
    unfold State.sortLoop
    split
    · next hnl =>
      refine ⟨h,?_⟩
      rw [← ExtTreeMap.length_toList,hnl,length_nil]
    · next k v rest hl =>
      have hk : s.notSeen[k]? = some v := by
        rw [← ExtTreeMap.mem_toList_iff_getElem?_eq_some,hl]
        exact mem_cons_self
      have hs := size_erase_lt hk
      obtain ⟨hi,hle⟩ := (h.pick hk).run hr le_rfl
      exact ih hi (by
        refine hle.trans ?_
        change (s.notSeen.erase k).size ≤ n
        omega)

theorem sort_spec (hr : Ranked deps key rank m) :
    (sort deps m).Perm (m.toList.map Prod.snd) ∧ Closed deps key m (sort deps m) := by
  have hin : Inv deps key rank m ⟨m,[]⟩ [] := by
    refine ⟨fun _ _ h => h,by simp,trivial,?_⟩
    intro before v after heq
    simp at heq
  obtain ⟨hi,hs⟩ := hin.sortLoop hr le_rfl
  refine ⟨?_,hi.closed⟩
  have hn : ((State.sortLoop deps m.size ⟨m,[]⟩).notSeen).toList = [] := by
    apply eq_nil_of_length_eq_zero
    rw [ExtTreeMap.length_toList,hs]
  have ha := hi.all
  rw [hn,map_nil,map_nil,nil_append,nil_append] at ha
  exact ha

end

theorem exists_rank_of_acyclic {α : Type} {r : α → α → Prop} (s : Finset α)
    (hm : ∀ a b, r a b → a ∈ s) (hac : ∀ a, ¬Relation.TransGen r a a) :
    ∃ rank : α → Nat, ∀ a b, r a b → rank a < rank b := by
  classical
  refine ⟨fun b => (s.filter fun a => Relation.TransGen r a b).card,fun a b hab => ?_⟩
  refine Finset.card_lt_card ((Finset.ssubset_iff_of_subset fun x hx => ?_).mpr ⟨a,?_,?_⟩)
  · obtain ⟨hx,hxa⟩ := Finset.mem_filter.mp hx
    exact Finset.mem_filter.mpr ⟨hx,hxa.tail hab⟩
  · exact Finset.mem_filter.mpr ⟨hm a b hab,.single hab⟩
  · exact fun ha => hac a (Finset.mem_filter.mp ha).2

end DepthFirst
