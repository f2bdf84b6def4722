import Uchain.Lib.Radix

/-!
# Erasing a key of a compressed trie

A node that is left with one leaf below it is replaced by that leaf (`shrink`), so the shape stays
the one that the contents determine.
-/

namespace Lib

namespace Radix

variable {κ ν : Type}

/-- A node whose child on the side of `b` is `t` and whose other child is `side`; a leaf without a
sibling takes its place. -/
def shrink (b : Bool) : Radix κ ν → Radix κ ν → Radix κ ν
  | .empty, .empty => .empty
  | .empty, .leaf k v => .leaf k v
  | .leaf k v, .empty => .leaf k v
  | t, side => join b t side

section Bits

variable (bit : κ → Nat → Bool)

def erase [DecidableEq κ] (k : κ) : Nat → Radix κ ν → Radix κ ν
  | _, .empty => .empty
  | _, .leaf k' v => if k = k' then .empty else .leaf k' v
  | d, .node l r =>
    if bit k d then shrink true (erase k (d + 1) r) l else shrink false (erase k (d + 1) l) r

/-- Rebuild a tree from the subtree at the place of `k` and the sides of the way to it, without
nodes that have a single leaf. -/
def prune (k : κ) : Nat → List (Radix κ ν) → Radix κ ν → Radix κ ν
  | _, [], t => t
  | d, s :: ss, t => shrink (bit k d) (prune k (d + 1) ss t) s

end Bits

variable {bit : κ → Nat → Bool} {N d : Nat} {k : κ} {b : Bool} {t side : Radix κ ν}

/-! ## One node -/

theorem shrink_node (l r : Radix κ ν) : shrink b (.node l r) side = join b (.node l r) side := by
  cases side <;> rfl

theorem shrink_of_ne_empty (ht : t ≠ .empty) (hside : side ≠ .empty) :
    shrink b t side = join b t side := by
  cases t <;> cases side <;> first | rfl | exact absurd rfl ht | exact absurd rfl hside

theorem shrink_ne_empty (h : t ≠ .empty ∨ side ≠ .empty) : shrink b t side ≠ .empty := by
  have hjoin (t side : Radix κ ν) : join b t side ≠ .empty := by cases b <;> nofun
  cases t with
  | empty =>
    cases side with
    | empty => exact absurd rfl (h.resolve_left fun h => h rfl)
    | leaf => nofun
    | node => exact hjoin _ _
  | leaf =>
    cases side with
    | empty => nofun
    | leaf => exact hjoin _ _
    | node => exact hjoin _ _
  | node => rw [shrink_node]; exact hjoin _ _

theorem entries_shrink_perm (b : Bool) (t side : Radix κ ν) :
    (shrink b t side).entries.Perm (t.entries ++ side.entries) := by
  cases t <;> cases side <;> first | exact entries_join_perm _ _ _ | exact .refl _

theorem subtrees_subset_shrink (b : Bool) (t side : Radix κ ν) :
    t.subtrees ⊆ (shrink b t side).subtrees ∧ side.subtrees ⊆ (shrink b t side).subtrees := by
  have hjoin (t side : Radix κ ν) :
      t.subtrees ⊆ (join b t side).subtrees ∧ side.subtrees ⊆ (join b t side).subtrees := by
    rw [subtrees_join]
    exact ⟨fun s hs => .inr (.inr hs), fun s hs => .inr (.inl hs)⟩
  cases t <;> cases side <;>
    first | exact hjoin _ _ | exact ⟨Set.empty_subset _, subset_rfl⟩ |
      exact ⟨subset_rfl, Set.empty_subset _⟩

theorem Wf.two_le_of_node {l r : Radix κ ν} (h : Wf bit N d (.node l r)) :
    2 ≤ (Radix.node l r).entries.length := h.2.2.2.1

theorem Wf.shrink (hd : d < N) (ht : ∀ p ∈ t.entries, bit p.1 d = b)
    (hside : ∀ p ∈ side.entries, bit p.1 d = !b) (hwt : Wf bit N (d + 1) t)
    (hws : Wf bit N (d + 1) side) : Wf bit N d (shrink b t side) := by
  have hjoin (h2 : 2 ≤ t.entries.length + side.entries.length) : Wf bit N d (join b t side) :=
    wf_join.2 ⟨hd, ht, hside, h2, hwt, hws⟩
  cases t with
  | empty =>
    cases side with
    | empty => trivial
    | leaf => trivial
    | node l r => exact hjoin (Nat.le_add_left_of_le hws.two_le_of_node)
  | leaf k v =>
    cases side with
    | empty => trivial
    | leaf => exact hjoin (by simp [entries])
    | node l r => exact hjoin (Nat.le_add_left_of_le hws.two_le_of_node)
  | node l r =>
    rw [shrink_node]
    exact hjoin (Nat.le_add_right_of_le hwt.two_le_of_node)

/-! ## The whole way -/

theorem prune_append (k : κ) (u t : Radix κ ν) : ∀ (d : Nat) (ss : List (Radix κ ν)),
    prune bit k d (ss ++ [u]) t = prune bit k d ss (shrink (bit k (d + ss.length)) t u)
  | d, [] => rfl
  | d, s :: ss => by
    rw [List.cons_append, prune, prune, prune_append k u t (d + 1) ss, List.length_cons,
      Nat.add_assoc, Nat.add_comm 1]

theorem subtrees_subset_prune {u : Radix κ ν} : ∀ {d : Nat} {ss : List (Radix κ ν)}, u ∈ ss →
    u.subtrees ⊆ (prune bit k d ss t).subtrees
  | d, s :: ss, h => by
    rcases List.mem_cons.1 h with rfl | h
    · exact (subtrees_subset_shrink _ _ _).2
    · exact (subtrees_subset_prune h).trans (subtrees_subset_shrink _ _ _).1

variable [DecidableEq κ]

theorem erase_join (k : κ) (d : Nat) (t side : Radix κ ν) :
    erase bit k d (join (bit k d) t side) = shrink (bit k d) (erase bit k (d + 1) t) side := by
  cases h : bit k d <;> simp [join, erase, h]

/-- **Erasing climbs from the place of the key**, which is left empty. -/
theorem erase_eq_prune {v : ν} (d : Nat) (t : Radix κ ν) (h : terminal bit k d t = .leaf k v) :
    erase bit k d t = prune bit k d (sides bit k d t) .empty := by
  revert h
  refine path_induction bit k (motive := fun d t => terminal bit k d t = .leaf k v →
    erase bit k d t = prune bit k d (sides bit k d t) .empty) (fun d h => by cases h)
    (fun d k' v' h => ?_) (fun d t side ih h => ?_) d t
  · cases h
    rw [erase, if_pos rfl]
    rfl
  · rw [terminal_join] at h
    rw [erase_join, sides_join, prune, ih h]

theorem Wf.entries_erase_perm (h : Wf bit N d t) :
    (erase bit k d t).entries.Perm (t.entries.filter fun p => p.1 ≠ k) := by
  revert h
  refine path_induction bit k (motive := fun d t => Wf bit N d t →
    (erase bit k d t).entries.Perm (t.entries.filter fun p => p.1 ≠ k)) (fun d _ => .refl _)
    (fun d k' v' _ => ?_) (fun d t side ih h => ?_) d t
  · rw [erase]
    split
    · rename_i hk
      simp [entries, hk]
    · rename_i hk
      simp [entries, Ne.symm hk]
  · obtain ⟨_, _, hside, _, hwt, _⟩ := wf_join.1 h
    have hperm := (entries_join_perm (bit k d) t side).filter fun p => p.1 ≠ k
    rw [erase_join]
    refine (entries_shrink_perm _ _ _).trans (((ih hwt).append_right _).trans (.trans ?_ hperm.symm))
    rw [List.filter_append, filter_side hside]

theorem Wf.mem_entries_erase (h : Wf bit N d t) {p : κ × ν} :
    p ∈ (erase bit k d t).entries ↔ p ∈ t.entries ∧ p.1 ≠ k := by
  rw [h.entries_erase_perm.mem_iff, List.mem_filter, decide_eq_true_eq]

theorem Wf.wf_erase (h : Wf bit N d t) : Wf bit N d (erase bit k d t) := by
  revert h
  refine path_induction bit k (motive := fun d t => Wf bit N d t → Wf bit N d (erase bit k d t))
    (fun d _ => trivial) (fun d k' v' _ => ?_) (fun d t side ih h => ?_) d t
  · rw [erase]
    split <;> trivial
  · obtain ⟨hd, ht, hside, _, hwt, hws⟩ := wf_join.1 h
    rw [erase_join]
    exact Wf.shrink hd (fun p hp => ht p (hwt.mem_entries_erase.1 hp).1) hside (ih hwt) hws

/-- **Erasing changes the lookup of one key.** -/
theorem Wf.get_erase (h : Wf bit N 0 t) (j : κ) :
    get bit j 0 (erase bit k 0 t) = if j = k then none else get bit j 0 t := by
  ext w
  rw [h.wf_erase.get_eq_some_iff, h.mem_entries_erase]
  by_cases hj : j = k
  · simp [hj]
  · simp [hj, h.get_eq_some_iff]

end Radix

end Lib
