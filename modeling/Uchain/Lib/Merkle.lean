import Uchain.Lib.Radix

/-!
# Merkle tries

A hash for every subtree of a trie, and a map from hashes to the data they were computed from, as an
authenticated store keeps it. Hash functions have collisions, so every result is relative to a set
`S` of data on which `digest` has none (`Good`): the data that were ever hashed.

* `Stores m T`: the map `m` holds exactly the subtrees in `T`. Writing and deleting a subtree by
  its hash adds and removes it (`Stores.put`, `Stores.delete`).
-/

namespace Lib

/-- How subtrees are hashed. -/
structure Merkle (κ ν η ι : Type) where
  placeholder : η
  digest : ι → η
  leafData : κ → ν → ι
  nodeData : η → η → ι
  leafData_inj : ∀ {k v k' v'}, leafData k v = leafData k' v' → k = k' ∧ v = v'
  nodeData_inj : ∀ {l r l' r'}, nodeData l r = nodeData l' r' → l = l' ∧ r = r'
  leafData_ne : ∀ {k v l r}, leafData k v ≠ nodeData l r

namespace Merkle

variable {κ ν η ι : Type} (M : Merkle κ ν η ι)

def hash : Radix κ ν → η
  | .empty => M.placeholder
  | .leaf k v => M.digest (M.leafData k v)
  | .node l r => M.digest (M.nodeData (hash l) (hash r))

def data : Radix κ ν → Option ι
  | .empty => none
  | .leaf k v => some (M.leafData k v)
  | .node l r => some (M.nodeData (M.hash l) (M.hash r))

/-- `digest` has no collision on `S` and never gives the placeholder there. -/
structure Good (S : Set ι) : Prop where
  inj : Set.InjOn M.digest S
  ne : ∀ x ∈ S, M.digest x ≠ M.placeholder

/-- Every subtree's data is in `S`. -/
def DataIn (S : Set ι) (t : Radix κ ν) : Prop := ∀ s ∈ t.subtrees, ∀ x, M.data s = some x → x ∈ S

variable {M} {S : Set ι}

theorem hash_of_data {t : Radix κ ν} {x : ι} (h : M.data t = some x) : M.hash t = M.digest x := by
  cases t <;> cases h <;> rfl

theorem data_isSome {t : Radix κ ν} (h : t ≠ .empty) : ∃ x, M.data t = some x := by
  cases t with
  | empty => exact absurd rfl h
  | leaf k v => exact ⟨_, rfl⟩
  | node l r => exact ⟨_, rfl⟩

theorem dataIn_empty : M.DataIn S .empty := fun _ h => h.elim

theorem dataIn_leaf {k : κ} {v : ν} : M.DataIn S (.leaf k v) ↔ M.leafData k v ∈ S :=
  ⟨fun h => h _ rfl _ rfl, fun h s hs x hx => by cases hs; cases hx; exact h⟩

theorem dataIn_node {l r : Radix κ ν} : M.DataIn S (.node l r) ↔
    M.nodeData (M.hash l) (M.hash r) ∈ S ∧ M.DataIn S l ∧ M.DataIn S r := by
  refine ⟨fun h => ⟨h _ (.inl rfl) _ rfl, fun s hs => h s (.inr (.inl hs)),
    fun s hs => h s (.inr (.inr hs))⟩, ?_⟩
  rintro ⟨h, hl, hr⟩ s (rfl | hs | hs) x hx
  · cases hx; exact h
  · exact hl s hs x hx
  · exact hr s hs x hx

theorem DataIn.of_mem_subtrees {t s : Radix κ ν} (h : M.DataIn S t) (hs : s ∈ t.subtrees) :
    M.DataIn S s := fun u hu => h u (Radix.subtrees_subset_of_mem hs hu)

theorem Good.hash_ne (hg : M.Good S) {t : Radix κ ν} (h : M.DataIn S t) (hne : t ≠ .empty) :
    M.hash t ≠ M.placeholder := by
  obtain ⟨x, hx⟩ := data_isSome (M := M) hne
  rw [hash_of_data hx]
  exact hg.ne x (h t (Radix.mem_subtrees_self hne) x hx)

/-- **The hash commits to the trie.** -/
theorem Good.hash_inj (hg : M.Good S) : ∀ {t t' : Radix κ ν}, M.DataIn S t → M.DataIn S t' →
    M.hash t = M.hash t' → t = t'
  | .empty, t', _, h', he => by
    by_contra hne
    exact hg.hash_ne h' (Ne.symm hne) he.symm
  | .leaf k v, .empty, h, _, he => absurd he (hg.hash_ne h nofun)
  | .node l r, .empty, h, _, he => absurd he (hg.hash_ne h nofun)
  | .leaf k v, .leaf k' v', h, h', he => by
    obtain ⟨rfl, rfl⟩ := M.leafData_inj (hg.inj (dataIn_leaf.1 h) (dataIn_leaf.1 h') he)
    rfl
  | .leaf k v, .node l r, h, h', he =>
    absurd (hg.inj (dataIn_leaf.1 h) (dataIn_node.1 h').1 he) M.leafData_ne
  | .node l r, .leaf k v, h, h', he =>
    absurd (hg.inj (dataIn_leaf.1 h') (dataIn_node.1 h).1 he.symm) M.leafData_ne
  | .node l r, .node l' r', h, h', he => by
    obtain ⟨hd, hl, hr⟩ := dataIn_node.1 h
    obtain ⟨hd', hl', hr'⟩ := dataIn_node.1 h'
    obtain ⟨el, er⟩ := M.nodeData_inj (hg.inj hd hd' he)
    rw [hg.hash_inj hl hl' el, hg.hash_inj hr hr' er]

/-! ## Maps that hold subtrees -/

variable (M) in
/-- The map `m` holds the data of exactly the subtrees in `T`, each under its hash. -/
def Stores (m : η → Option ι) (T : Set (Radix κ ν)) : Prop :=
  ∀ h x, m h = some x ↔ ∃ s ∈ T, M.hash s = h ∧ M.data s = some x

variable {m m' : η → Option ι} {T : Set (Radix κ ν)} {s : Radix κ ν} {x : ι}

theorem Stores.get (h : M.Stores m T) (hs : s ∈ T) (hx : M.data s = some x) :
    m (M.hash s) = some x := (h _ _).2 ⟨s, hs, rfl, hx⟩

theorem Stores.empty : M.Stores (fun _ => none) (∅ : Set (Radix κ ν)) := fun h x => by simp

variable [DecidableEq η]

theorem Stores.put (hg : M.Good S) (h : M.Stores m T) (hT : ∀ u ∈ T, M.DataIn S u)
    (hs : M.DataIn S s) (hx : M.data s = some x)
    (hm : ∀ i, m' i = if i = M.hash s then some x else m i) : M.Stores m' ({s} ∪ T) := by
  intro i y
  rw [hm i]
  by_cases hi : i = M.hash s
  · subst hi
    rw [if_pos rfl, Option.some.injEq]
    refine ⟨fun e => ⟨s, .inl rfl, rfl, e ▸ hx⟩, ?_⟩
    rintro ⟨u, hu | hu, hh, hy⟩
    · cases hu; exact Option.some.inj (hx.symm.trans hy)
    · rw [hg.hash_inj (hT u hu) hs hh, hx] at hy
      exact Option.some.inj hy
  · rw [if_neg hi, h i y]
    refine ⟨fun ⟨u, hu, hh⟩ => ⟨u, .inr hu, hh⟩, ?_⟩
    rintro ⟨u, hu | hu, hh, hy⟩
    · cases hu; exact absurd hh.symm hi
    · exact ⟨u, hu, hh, hy⟩

theorem Stores.delete (hg : M.Good S) (h : M.Stores m T) (hT : ∀ u ∈ T, M.DataIn S u)
    (hs : M.DataIn S s) (hm : ∀ i, m' i = if i = M.hash s then none else m i) :
    M.Stores m' (T \ {s}) := by
  intro i y
  rw [hm i]
  by_cases hi : i = M.hash s
  · subst hi
    rw [if_pos rfl]
    refine ⟨nofun, ?_⟩
    rintro ⟨u, ⟨hu, hne⟩, hh, _⟩
    exact absurd (hg.hash_inj (hT u hu) hs hh) hne
  · rw [if_neg hi, h i y]
    constructor
    · rintro ⟨u, hu, rfl, hy⟩
      refine ⟨u, ⟨hu, ?_⟩, rfl, hy⟩
      rintro rfl
      exact hi rfl
    · rintro ⟨u, ⟨hu, _⟩, hh, hy⟩
      exact ⟨u, hu, hh, hy⟩

end Merkle

end Lib
