import Iota.Lib.Move

/-! The Move types `VecSet` and `VecMap`: entries in insertion order, no key twice. -/
namespace Move
variable {ε κ ν : Type} [DecidableEq κ]

structure VecSet (κ : Type) where
  contents : List κ
  nodup : contents.Nodup

structure VecMap (κ ν : Type) where
  contents : List (κ × ν)
  nodup : (contents.map Prod.fst).Nodup

namespace VecSet

def empty : VecSet κ := ⟨[],List.nodup_nil⟩

def singleton (key : κ) : VecSet κ := ⟨[key],List.nodup_singleton key⟩

def contains (s : VecSet κ) (key : κ) : Bool := s.contents.contains key

def isEmpty (s : VecSet κ) : Bool := s.contents.isEmpty

def insert (s : VecSet κ) (key : κ) : Except (Abort ε) (VecSet κ) :=
  if h : key ∈ s.contents then .error .keyAlreadyExists
  else .ok ⟨s.contents ++ [key],by
    rw [List.nodup_append]
    exact ⟨s.nodup,List.nodup_singleton key,by
      rintro a ha _ hb rfl
      exact h (List.mem_singleton.mp hb ▸ ha)⟩⟩

def remove (s : VecSet κ) (key : κ) : Except (Abort ε) (VecSet κ) :=
  if key ∈ s.contents then .ok ⟨s.contents.erase key,s.nodup.erase key⟩
  else .error .keyDoesNotExist

variable {s s' : VecSet κ}

theorem insert_eq_ok {key : κ} (h : (s.insert key : Except (Abort ε) (VecSet κ)) = .ok s') :
    key ∉ s.contents ∧ s'.contents = s.contents ++ [key] := by
  unfold insert at h
  split at h
  · cases h
  · next hn => exact ⟨hn,(congrArg contents (Except.ok.inj h)).symm⟩

theorem remove_eq_ok {key : κ} (h : (s.remove key : Except (Abort ε) (VecSet κ)) = .ok s') :
    key ∈ s.contents ∧ s'.contents = s.contents.erase key := by
  unfold remove at h
  split at h
  · next hm => exact ⟨hm,(congrArg contents (Except.ok.inj h)).symm⟩
  · cases h

theorem mem_remove {key a : κ} (h : (s.remove key : Except (Abort ε) (VecSet κ)) = .ok s') :
    a ∈ s'.contents ↔ a ≠ key ∧ a ∈ s.contents := by
  rw [(remove_eq_ok h).2]
  exact s.nodup.mem_erase_iff

end VecSet
namespace VecMap

def empty : VecMap κ ν := ⟨[],List.nodup_nil⟩

def keys (m : VecMap κ ν) : List κ := m.contents.map Prod.fst

def contains (m : VecMap κ ν) (key : κ) : Bool := m.keys.contains key

def isEmpty (m : VecMap κ ν) : Bool := m.contents.isEmpty

def find? (m : VecMap κ ν) (key : κ) : Option ν :=
  (m.contents.find? fun entry => entry.1 == key).map Prod.snd

def get (m : VecMap κ ν) (key : κ) : Except (Abort ε) ν :=
  match m.find? key with
  | some value => .ok value
  | none => .error .keyDoesNotExist

omit [DecidableEq κ] in
theorem nodup_append {m : VecMap κ ν} {key : κ} {value : ν} (h : key ∉ m.keys) :
    ((m.contents ++ [(key,value)]).map Prod.fst).Nodup := by
  rw [List.map_append,List.nodup_append]
  refine ⟨m.nodup,List.nodup_singleton key,?_⟩
  rintro a ha _ hb rfl
  obtain rfl : a = key := by simpa using hb
  exact h ha

def insert (m : VecMap κ ν) (key : κ) (value : ν) : Except (Abort ε) (VecMap κ ν) :=
  if h : key ∈ m.keys then .error .keyAlreadyExists
  else .ok ⟨m.contents ++ [(key,value)],nodup_append h⟩

def erase (m : VecMap κ ν) (key : κ) : VecMap κ ν :=
  ⟨m.contents.filter fun entry => !(entry.1 == key),
    m.nodup.sublist (List.filter_sublist.map _)⟩

def remove (m : VecMap κ ν) (key : κ) : Except (Abort ε) (VecMap κ ν) :=
  if key ∈ m.keys then .ok (m.erase key) else .error .keyDoesNotExist

def replace (m : VecMap κ ν) (key : κ) (value : ν) : VecMap κ ν :=
  ⟨m.contents.map fun entry => if entry.1 == key then (entry.1,value) else entry,by
    rw [List.map_map]
    have : Prod.fst ∘ (fun entry : κ × ν => if entry.1 == key then (entry.1,value) else entry) =
        Prod.fst := by
      funext entry
      simp only [Function.comp_apply]
      split <;> rfl
    rw [this]
    exact m.nodup⟩

def modify (m : VecMap κ ν) (key : κ) (f : ν → Except (Abort ε) ν) :
    Except (Abort ε) (VecMap κ ν) := do
  let value ← m.get key
  let value ← f value
  .ok (m.replace key value)

variable {m m' : VecMap κ ν} {key : κ} {value : ν} {entry : κ × ν}

theorem contains_iff : m.contains key = true ↔ key ∈ m.keys := List.contains_iff_mem

omit [DecidableEq κ] in
theorem mem_keys : key ∈ m.keys ↔ ∃ value, (key,value) ∈ m.contents := by
  simp [keys]

omit [DecidableEq κ] in
theorem value_unique {value' : ν} (h : (key,value) ∈ m.contents) (h' : (key,value') ∈ m.contents) :
    value = value' :=
  congrArg Prod.snd (List.inj_on_of_nodup_map m.nodup h h' rfl)

theorem find?_eq_some : m.find? key = some value ↔ (key,value) ∈ m.contents := by
  constructor
  · intro h
    obtain ⟨⟨k,v⟩,hf,rfl⟩ := Option.map_eq_some_iff.mp h
    obtain rfl : k = key := by simpa using List.find?_some hf
    exact List.mem_of_find?_eq_some hf
  intro h
  cases hf : m.contents.find? fun entry => entry.1 == key with
  | none =>
    have := List.find?_eq_none.mp hf (key,value) h
    simp at this
  | some e =>
    obtain ⟨k,v⟩ := e
    obtain rfl : k = key := by simpa using List.find?_some hf
    rw [find?,hf,Option.map_some,value_unique (List.mem_of_find?_eq_some hf) h]

theorem find?_eq_none : m.find? key = none ↔ key ∉ m.keys := by
  rw [Option.eq_none_iff_forall_ne_some,mem_keys,not_exists]
  exact forall_congr' fun value => not_congr find?_eq_some

theorem get_eq_ok : (m.get key : Except (Abort ε) ν) = .ok value ↔ (key,value) ∈ m.contents := by
  rw [← find?_eq_some]
  unfold get
  cases m.find? key <;> simp

theorem insert_eq_ok (h : (m.insert key value : Except (Abort ε) (VecMap κ ν)) = .ok m') :
    key ∉ m.keys ∧ m'.contents = m.contents ++ [(key,value)] := by
  unfold insert at h
  split at h
  · cases h
  · next hn => exact ⟨hn,(congrArg contents (Except.ok.inj h)).symm⟩

theorem remove_eq_ok : (m.remove key : Except (Abort ε) (VecMap κ ν)) = .ok m' ↔
    key ∈ m.keys ∧ m.erase key = m' := by
  unfold remove
  split <;> simp_all

@[simp] theorem mem_erase : entry ∈ (m.erase key).contents ↔ entry ∈ m.contents ∧ entry.1 ≠ key := by
  simp [erase]

theorem mem_replace : entry ∈ (m.replace key value).contents ↔
    (entry ∈ m.contents ∧ entry.1 ≠ key) ∨ (entry.1 = key ∧ entry.2 = value ∧ key ∈ m.keys) := by
  obtain ⟨k,v⟩ := entry
  simp only [replace,List.mem_map,Prod.exists,mem_keys]
  constructor
  · rintro ⟨k',v',hm,heq⟩
    split at heq
    · next hk =>
      cases heq
      obtain rfl : k = key := by simpa using hk
      exact .inr ⟨rfl,rfl,v',hm⟩
    · next hk =>
      cases heq
      exact .inl ⟨hm,by simpa using hk⟩
  · rintro (⟨hm,hne⟩ | ⟨rfl,rfl,v',hm⟩)
    · exact ⟨k,v,hm,by simp [hne]⟩
    · exact ⟨k,v',hm,by simp⟩

omit [DecidableEq κ] in
theorem eq_of_contents (h : m.contents = m'.contents) : m = m' := by
  cases m
  cases m'
  cases h
  rfl

theorem erase_of_not_mem (h : key ∉ m.keys) : m.erase key = m := by
  refine eq_of_contents (List.filter_eq_self.mpr fun entry he => ?_)
  have : entry.1 ≠ key := fun heq => h (heq ▸ List.mem_map_of_mem he)
  simpa using this

theorem remove_if_contains : (if m.contains key then (m.remove key : Except (Abort ε) (VecMap κ ν))
    else .ok m) = .ok (m.erase key) := by
  by_cases h : key ∈ m.keys
  · rw [if_pos (contains_iff.mpr h)]
    exact remove_eq_ok.mpr ⟨h,rfl⟩
  · rw [if_neg fun hc => h (contains_iff.mp hc),erase_of_not_mem h]

theorem find?_congr {m m' : VecMap κ ν} {x : κ}
    (h : ∀ value, (x,value) ∈ m'.contents ↔ (x,value) ∈ m.contents) : m'.find? x = m.find? x := by
  apply Option.ext
  intro value
  rw [find?_eq_some,find?_eq_some]
  exact h value

theorem find?_erase_of_ne {x : κ} (h : x ≠ key) : (m.erase key).find? x = m.find? x :=
  find?_congr fun value => by simp [h]

theorem find?_replace_of_ne {x : κ} (h : x ≠ key) : (m.replace key value).find? x = m.find? x :=
  find?_congr fun value => by simp [mem_replace,h]

theorem find?_insert_of_ne {x : κ} (hm : m'.contents = m.contents ++ [(key,value)]) (h : x ≠ key) :
    m'.find? x = m.find? x :=
  find?_congr fun value => by simp [hm,h]

theorem modify_eq_ok {f : ν → Except (Abort ε) ν} (h : m.modify key f = .ok m') :
    ∃ old new, (key,old) ∈ m.contents ∧ f old = .ok new ∧ m' = m.replace key new := by
  obtain ⟨old,ho,h⟩ := Except.of_bind h
  obtain ⟨new,hn,h⟩ := Except.of_bind h
  exact ⟨old,new,get_eq_ok.mp ho,hn,(Except.ok.inj h).symm⟩

end VecMap
end Move
