import Mathlib.Data.List.AList

/-!
# Unordered maps and sets

A hash map as a program sees it: lookups are determined by the contents, but an
iteration visits the entries in an order the program has no say in. The entries
are Mathlib's `AList`, kept in iteration order. Each assignment may rearrange
them, as a rehash does, so a map carries a `Layout`: the rearrangement it will
make at each of its future assignments. A statement about every layout is then a
statement about every iteration order the table can come to have. Erasing keeps
the order of what is left, as the C++ standard requires.
-/

universe u v

/-- How a table rearranges its entries at its next assignment, the one after, ... -/
structure Layout (K : Type u) (V : Type v) where
  /-- The rearrangement made by the `n`-th assignment from now. -/
  arrange : ℕ → AList (fun _ : K => V) → AList (fun _ : K => V)
  /-- It only rearranges. -/
  perm : ∀ n t, (arrange n t).entries.Perm t.entries

/-- The layout that puts each new entry first. -/
def Layout.front (K : Type u) (V : Type v) : Layout K V := ⟨fun _ t => t, fun _ _ => .refl _⟩

/-- The layout after one assignment. -/
def Layout.next {K : Type u} {V : Type v} (l : Layout K V) : Layout K V :=
  ⟨fun n => l.arrange (n + 1), fun n => l.perm (n + 1)⟩

/-- An unordered map: its entries in iteration order, and how it will arrange them. -/
structure UnorderedMap (K : Type u) (V : Type v) where
  /-- The entries, one for each key, in iteration order. -/
  table : AList fun _ : K => V
  /-- What later assignments do to the order. -/
  layout : Layout K V

/-- An unordered set. -/
abbrev UnorderedSet (K : Type u) := UnorderedMap K Unit

namespace UnorderedMap

variable {K : Type u} {V : Type v}

/-- The empty map, with the layout it will have. -/
def empty (l : Layout K V) : UnorderedMap K V := ⟨∅, l⟩

/-- The entries, in iteration order. -/
def toList (m : UnorderedMap K V) : List (K × V) := m.table.entries.map fun e => (e.1, e.2)

/-- The keys, in iteration order. -/
def keys (m : UnorderedMap K V) : List K := m.toList.map Prod.fst

theorem keys_eq (m : UnorderedMap K V) : m.keys = m.table.keys := by
  simp [keys, toList, AList.keys, List.keys]

theorem nodup_keys (m : UnorderedMap K V) : m.keys.Nodup := by
  rw [keys_eq]
  exact m.table.keys_nodup

theorem nodup_toList (m : UnorderedMap K V) : m.toList.Nodup := m.nodup_keys.of_map _

/-- The same map, iterated the other way round. -/
def reverse (m : UnorderedMap K V) : UnorderedMap K V :=
  ⟨⟨m.table.entries.reverse, (List.perm_nodupKeys (List.reverse_perm _)).mpr m.table.nodupKeys⟩,
    m.layout⟩

@[simp] theorem toList_reverse (m : UnorderedMap K V) : m.reverse.toList = m.toList.reverse :=
  List.map_reverse ..

variable [DecidableEq K]

/-- `m.find(k)`. -/
def find? (m : UnorderedMap K V) (k : K) : Option V := m.table.lookup k

/-- `m.find(k) != m.end()`. -/
def contains (m : UnorderedMap K V) (k : K) : Bool := (m.find? k).isSome

/-- `m[k] = v`. -/
def insert (m : UnorderedMap K V) (k : K) (v : V) : UnorderedMap K V :=
  ⟨m.layout.arrange 0 (m.table.insert k v), m.layout.next⟩

/-- `m.erase(k)`. -/
def erase (m : UnorderedMap K V) (k : K) : UnorderedMap K V := { m with table := m.table.erase k }

/-- Updating the value found at `k` in place; nothing happens when there is none. -/
def modify (m : UnorderedMap K V) (k : K) (f : V → V) : UnorderedMap K V :=
  match m.find? k with
  | some v => m.insert k (f v)
  | none => m

@[simp] theorem find?_empty (l : Layout K V) (k : K) : (empty l).find? k = none := rfl

@[simp] theorem find?_insert (m : UnorderedMap K V) (k k' : K) (v : V) :
    (m.insert k v).find? k' = if k' = k then some v else m.find? k' := by
  have hp : (m.insert k v).find? k' = (m.table.insert k v).lookup k' :=
    AList.perm_lookup (m.layout.perm 0 _)
  rw [hp]
  split_ifs with h
  · subst h; exact AList.lookup_insert _
  · exact AList.lookup_insert_ne h

@[simp] theorem find?_erase (m : UnorderedMap K V) (k k' : K) :
    (m.erase k).find? k' = if k' = k then none else m.find? k' := by
  unfold find? erase
  split_ifs with h
  · subst h; exact AList.lookup_erase _ _
  · exact AList.lookup_erase_ne h

@[simp] theorem find?_modify (m : UnorderedMap K V) (k k' : K) (f : V → V) :
    (m.modify k f).find? k' = if k' = k then (m.find? k).map f else m.find? k' := by
  unfold modify
  cases hk : m.find? k with
  | none =>
    dsimp only [Option.map_none]
    split_ifs with h
    · rw [h, hk]
    · rfl
  | some v => simp

theorem mem_toList {m : UnorderedMap K V} {k : K} {v : V} :
    (k, v) ∈ m.toList ↔ m.find? k = some v := by
  have h : (k, v) ∈ m.toList ↔ Sigma.mk k v ∈ m.table.entries := by
    simp only [toList, List.mem_map, Prod.mk.injEq]
    constructor
    · rintro ⟨⟨a, b⟩, hm, rfl, rfl⟩
      exact hm
    · intro hm
      exact ⟨_, hm, rfl, rfl⟩
  rw [h]
  exact AList.mem_lookup_iff.symm

theorem mem_keys {m : UnorderedMap K V} {k : K} : k ∈ m.keys ↔ ∃ v, m.find? k = some v := by
  simp only [keys, List.mem_map]
  constructor
  · rintro ⟨⟨a, v⟩, hm, rfl⟩
    exact ⟨v, mem_toList.mp hm⟩
  · rintro ⟨v, hv⟩
    exact ⟨(k, v), mem_toList.mpr hv, rfl⟩

/-- Two maps with the same entries have them in some order each. -/
theorem toList_perm {m m' : UnorderedMap K V} (h : m'.find? = m.find?) :
    m'.toList.Perm m.toList := by
  rw [List.perm_ext_iff_of_nodup m'.nodup_toList m.nodup_toList]
  rintro ⟨k, v⟩
  rw [mem_toList, mem_toList, h]

@[simp] theorem find?_reverse (m : UnorderedMap K V) : m.reverse.find? = m.find? := by
  funext k
  exact AList.perm_lookup (List.reverse_perm m.table.entries)

/-- At most one entry has a given key: the one a lookup finds. -/
theorem filter_key (m : UnorderedMap K V) (k : K) :
    (m.toList.filter fun e => e.1 = k) = (m.find? k).toList.map fun v => (k, v) := by
  have hnd : ∀ (l : List (K × V)), (l.map Prod.fst).Nodup → ∀ v, (k, v) ∈ l →
      (l.filter fun e => e.1 = k) = [(k, v)] := by
    intro l
    induction l with
    | nil => simp
    | cons e l ih =>
      intro hl v hv
      simp only [List.map_cons, List.nodup_cons] at hl
      rcases List.mem_cons.mp hv with rfl | hv
      · have hnone : (l.filter fun e => e.1 = k) = [] := by
          simp only [List.filter_eq_nil_iff, decide_eq_true_eq]
          intro e he hek
          exact hl.1 (List.mem_map.mpr ⟨e, he, hek⟩)
        simp [hnone]
      · have hne : e.1 ≠ k := by
          intro hek
          exact hl.1 (List.mem_map.mpr ⟨(k, v), hv, hek.symm⟩)
        rw [List.filter_cons_of_neg (by simpa using hne)]
        exact ih hl.2 v hv
  cases h : m.find? k with
  | none =>
    simp only [Option.toList_none, List.map_nil, List.filter_eq_nil_iff, decide_eq_true_eq]
    rintro ⟨k', v⟩ hm rfl
    rw [mem_toList.mp hm] at h
    cases h
  | some v => exact hnd m.toList m.nodup_keys v (mem_toList.mpr h)

theorem flatMap_filter {α β : Type*} (l : List α) (p : α → Bool) (f : α → List β) :
    (l.filter p).flatMap f = l.flatMap fun a => if p a then f a else [] := by
  induction l with
  | nil => rfl
  | cons a l ih => cases h : p a <;> simp [h, ih]

/-- What the entries of a map contribute when only the one with a given key contributes. -/
theorem flatMap_toList {α : Type*} (m : UnorderedMap K V) (k : K) {f : K × V → List α}
    (hf : ∀ e ∈ m.toList, e.1 ≠ k → f e = []) :
    m.toList.flatMap f = (m.find? k).toList.flatMap fun v => f (k, v) := by
  have hfilter : m.toList.flatMap f = (m.toList.filter fun e => e.1 = k).flatMap f := by
    rw [flatMap_filter]
    refine List.flatMap_congr fun e he => ?_
    by_cases hk : e.1 = k
    · simp [hk]
    · simp [hk, hf e he hk]
  rw [hfilter, filter_key, List.flatMap_map]

/-- Erasing every key of a list. -/
theorem find?_foldl_erase {α : Type*} (key : α → K) (l : List α) (m : UnorderedMap K V) (k : K) :
    (l.foldl (fun m a => m.erase (key a)) m).find? k =
      if k ∈ l.map key then none else m.find? k := by
  induction l generalizing m with
  | nil => simp
  | cons a l ih =>
    rw [List.foldl_cons, ih, find?_erase]
    by_cases h₁ : k ∈ l.map key <;> by_cases h₂ : k = key a <;> simp [h₁, h₂]

end UnorderedMap

namespace UnorderedSet

variable {K : Type u} [DecidableEq K]

instance : Membership K (UnorderedSet K) := ⟨fun s k => s.contains k = true⟩

instance (s : UnorderedSet K) (k : K) : Decidable (k ∈ s) :=
  inferInstanceAs (Decidable (s.contains k = true))

theorem mem_iff {s : UnorderedSet K} {k : K} : k ∈ s ↔ s.find? k = some () := by
  show (s.find? k).isSome = true ↔ _
  cases s.find? k <;> simp

/-- `s.insert(k)`. -/
def insert (s : UnorderedSet K) (k : K) : UnorderedSet K := UnorderedMap.insert s k ()

@[simp] theorem not_mem_empty (l : Layout K Unit) (k : K) :
    k ∉ (UnorderedMap.empty l : UnorderedSet K) := by
  simp [mem_iff]

@[simp] theorem mem_insert {s : UnorderedSet K} {k k' : K} : k' ∈ s.insert k ↔ k' = k ∨ k' ∈ s := by
  simp only [mem_iff, insert, UnorderedMap.find?_insert]
  split_ifs with h <;> simp [h]

@[simp] theorem mem_erase {s : UnorderedSet K} {k k' : K} :
    k' ∈ UnorderedMap.erase s k ↔ k' ≠ k ∧ k' ∈ s := by
  simp only [mem_iff, UnorderedMap.find?_erase]
  split_ifs with h <;> simp [h]

theorem mem_keys {s : UnorderedSet K} {k : K} : k ∈ s.keys ↔ k ∈ s := by
  rw [UnorderedMap.mem_keys, mem_iff]
  constructor
  · rintro ⟨⟨⟩, h⟩
    exact h
  · intro h
    exact ⟨(), h⟩

end UnorderedSet
