import Mathlib.Data.List.Nodup
import Mathlib.Data.Set.Insert

/-!
# Compressed binary tries

A trie over keys with `N` bits, in which a subtree with one key is a leaf at any depth. A key's
place is found by its bits from depth `0` on; `N` bits determine a key (`Sep`).

`Wf d t` is the shape of a subtree at depth `d`. Every key of a branch has the branch's bit, and an
inner node has at least two keys below it, so the shape is determined by the contents (`Wf.ext`), and
the order in which keys were inserted leaves no trace.
-/

namespace Lib

/-- A binary trie with keys and values at its leaves. -/
inductive Radix (κ ν : Type) where
  | empty
  | leaf (k : κ) (v : ν)
  | node (l r : Radix κ ν)
  deriving DecidableEq

namespace Radix

variable {κ ν : Type}

def entries : Radix κ ν → List (κ × ν)
  | .empty => []
  | .leaf k v => [(k, v)]
  | .node l r => l.entries ++ r.entries

def child (b : Bool) (l r : Radix κ ν) : Radix κ ν := if b then r else l

/-- A node whose child on the side of `b` is `t`, and the other one `side`. -/
def join (b : Bool) (t side : Radix κ ν) : Radix κ ν := if b then .node side t else .node t side

/-- The non-empty subtrees, the tree itself included. -/
def subtrees : Radix κ ν → Set (Radix κ ν)
  | .empty => ∅
  | .leaf k v => {.leaf k v}
  | .node l r => {.node l r} ∪ (l.subtrees ∪ r.subtrees)

theorem subtrees_join (b : Bool) (t side : Radix κ ν) :
    (join b t side).subtrees = {join b t side} ∪ (side.subtrees ∪ t.subtrees) := by
  cases b
  · show _ = {Radix.node t side} ∪ _
    rw [Set.union_comm side.subtrees]; rfl
  · rfl

theorem entries_join_perm (b : Bool) (t side : Radix κ ν) :
    (join b t side).entries.Perm (t.entries ++ side.entries) := by
  cases b
  · exact .refl _
  · exact List.perm_append_comm

theorem mem_entries_join {b : Bool} {t side : Radix κ ν} {p : κ × ν} :
    p ∈ (join b t side).entries ↔ p ∈ t.entries ∨ p ∈ side.entries := by
  rw [(entries_join_perm b t side).mem_iff, List.mem_append]

theorem node_eq_join (b : Bool) (l r : Radix κ ν) :
    Radix.node l r = join b (child b l r) (child (!b) l r) := by
  cases b <;> rfl

theorem size_lt_of_mem_subtrees :
    ∀ {t s : Radix κ ν}, s ∈ t.subtrees → s = t ∨ sizeOf s < sizeOf t
  | .leaf _ _, _, h => .inl h
  | .node l r, s, h => by
    rcases h with h | h | h
    · exact .inl h
    · rcases size_lt_of_mem_subtrees h with rfl | h <;> right <;> simp <;> omega
    · rcases size_lt_of_mem_subtrees h with rfl | h <;> right <;> simp <;> omega

theorem ne_empty_of_mem_subtrees : ∀ {t s : Radix κ ν}, s ∈ t.subtrees → s ≠ .empty
  | .leaf _ _, _, h => by cases h; nofun
  | .node l r, s, h => by
    rcases h with h | h | h
    · cases h; nofun
    · exact ne_empty_of_mem_subtrees h
    · exact ne_empty_of_mem_subtrees h

theorem mem_subtrees_self : ∀ {t : Radix κ ν}, t ≠ .empty → t ∈ t.subtrees
  | .empty, h => absurd rfl h
  | .leaf _ _, _ => rfl
  | .node _ _, _ => .inl rfl

theorem subtrees_subset_of_mem :
    ∀ {t s : Radix κ ν}, s ∈ t.subtrees → s.subtrees ⊆ t.subtrees
  | .leaf _ _, _, h => by cases h; rfl
  | .node l r, s, h => by
    rcases h with h | h | h
    · cases h; rfl
    · exact fun x hx => .inr (.inl (subtrees_subset_of_mem h hx))
    · exact fun x hx => .inr (.inr (subtrees_subset_of_mem h hx))

theorem entries_subset_of_mem_subtrees :
    ∀ {t s : Radix κ ν}, s ∈ t.subtrees → s.entries ⊆ t.entries
  | .leaf _ _, _, h => by cases h; exact List.Subset.refl _
  | .node l r, s, h => by
    rcases h with h | h | h
    · cases h; exact List.Subset.refl _
    · exact fun p hp => List.mem_append_left _ (entries_subset_of_mem_subtrees h hp)
    · exact fun p hp => List.mem_append_right _ (entries_subset_of_mem_subtrees h hp)

section Bits

variable (bit : κ → Nat → Bool) (N : Nat)

/-- The shape of a subtree at depth `d`. -/
def Wf : Nat → Radix κ ν → Prop
  | _, .empty => True
  | _, .leaf _ _ => True
  | d, .node l r => d < N ∧ (∀ p ∈ l.entries, bit p.1 d = false) ∧
      (∀ p ∈ r.entries, bit p.1 d = true) ∧ 2 ≤ (l.entries ++ r.entries).length ∧
      Wf (d + 1) l ∧ Wf (d + 1) r

/-- `N` bits determine a key. -/
def Sep : Prop := ∀ k k' : κ, (∀ i < N, bit k i = bit k' i) → k = k'

/-- Every key of the tree agrees with `k` on the first `d` bits. -/
def Under (d : Nat) (k : κ) (t : Radix κ ν) : Prop :=
  ∀ p ∈ t.entries, ∀ i < d, bit p.1 i = bit k i

variable [DecidableEq κ]

def get (k : κ) : Nat → Radix κ ν → Option ν
  | _, .empty => none
  | _, .leaf k' v => if k = k' then some v else none
  | d, .node l r => if bit k d then get k (d + 1) r else get k (d + 1) l

/-- The tree with two leaves at depth `d`, given fuel for the bits they may share. -/
def split (k : κ) (v : ν) (k' : κ) (v' : ν) : Nat → Nat → Radix κ ν
  | 0, _ => .leaf k v
  | n + 1, d =>
    if bit k d = bit k' d then join (bit k d) (split k v k' v' n (d + 1)) .empty
    else join (bit k d) (.leaf k v) (.leaf k' v')

def insert (k : κ) (v : ν) : Nat → Radix κ ν → Radix κ ν
  | _, .empty => .leaf k v
  | d, .leaf k' v' => if k = k' then .leaf k v else split bit k v k' v' (N - d) d
  | d, .node l r => if bit k d then .node l (insert k v (d + 1) r) else .node (insert k v (d + 1) l) r

/-- The subtrees next to the way from depth `d` to the place of `k`, from the top. -/
def sides (k : κ) : Nat → Radix κ ν → List (Radix κ ν)
  | d, .node l r => if bit k d then l :: sides k (d + 1) r else r :: sides k (d + 1) l
  | _, _ => []

/-- The leaf or empty subtree at the place of `k`. -/
def terminal (k : κ) : Nat → Radix κ ν → Radix κ ν
  | d, .node l r => if bit k d then terminal k (d + 1) r else terminal k (d + 1) l
  | _, t => t

/-- The inner nodes on the way to the place of `k`, from the top. -/
def above (k : κ) : Nat → Radix κ ν → List (Radix κ ν)
  | d, .node l r => .node l r :: (if bit k d then above k (d + 1) r else above k (d + 1) l)
  | _, _ => []

/-- The subtrees on the way to the place of `k`, from the top. -/
def path (k : κ) (d : Nat) (t : Radix κ ν) : List (Radix κ ν) :=
  above bit k d t ++ [terminal bit k d t]

/-- Rebuild a tree from the subtree at the place of `k` and the sides of the way to it. -/
def climb (k : κ) : Nat → List (Radix κ ν) → Radix κ ν → Radix κ ν
  | _, [], t => t
  | d, s :: ss, t => join (bit k d) (climb k (d + 1) ss t) s

/-- The nodes that `climb` builds above `t`, from the top. -/
def climbs (k : κ) : Nat → List (Radix κ ν) → Radix κ ν → List (Radix κ ν)
  | _, [], _ => []
  | d, s :: ss, t => climb bit k d (s :: ss) t :: climbs k (d + 1) ss t

end Bits

/-! ## Following a key

Every function above treats the two children of a node alike, up to the bit of the key. With `join`
a node is written from the key's point of view, and each proof has one case for it. -/

section Path

variable {bit : κ → Nat → Bool} {N : Nat}

variable (bit) in
theorem path_induction {motive : Nat → Radix κ ν → Prop} (k : κ)
    (empty : ∀ d, motive d .empty) (leaf : ∀ d k' v', motive d (.leaf k' v'))
    (join : ∀ d t side, motive (d + 1) t → motive d (join (bit k d) t side)) :
    ∀ d t, motive d t
  | d, .empty => empty d
  | d, .leaf k' v' => leaf d k' v'
  | d, .node l r => by
    rw [node_eq_join (bit k d)]
    refine join d _ _ ?_
    cases bit k d
    · exact path_induction k empty leaf join (d + 1) l
    · exact path_induction k empty leaf join (d + 1) r

theorem wf_join {d : Nat} {b : Bool} {t side : Radix κ ν} :
    Wf bit N d (join b t side) ↔ d < N ∧ (∀ p ∈ t.entries, bit p.1 d = b) ∧
      (∀ p ∈ side.entries, bit p.1 d = !b) ∧ 2 ≤ t.entries.length + side.entries.length ∧
      Wf bit N (d + 1) t ∧ Wf bit N (d + 1) side := by
  cases b
  · simp [join, Wf]
  · simp only [join, Wf, if_true, Bool.not_true, List.length_append]
    rw [Nat.add_comm]
    tauto

@[simp] theorem sides_join (k : κ) (d : Nat) (t side : Radix κ ν) :
    sides bit k d (join (bit k d) t side) = side :: sides bit k (d + 1) t := by
  cases h : bit k d <;> simp [join, sides, h]

@[simp] theorem terminal_join (k : κ) (d : Nat) (t side : Radix κ ν) :
    terminal bit k d (join (bit k d) t side) = terminal bit k (d + 1) t := by
  cases h : bit k d <;> simp [join, terminal, h]

@[simp] theorem above_join (k : κ) (d : Nat) (t side : Radix κ ν) :
    above bit k d (join (bit k d) t side) = join (bit k d) t side :: above bit k (d + 1) t := by
  cases h : bit k d <;> simp [join, above, h]

@[simp] theorem path_join (k : κ) (d : Nat) (t side : Radix κ ν) :
    path bit k d (join (bit k d) t side) = join (bit k d) t side :: path bit k (d + 1) t := by
  rw [path, above_join, terminal_join]; rfl

variable [DecidableEq κ]

@[simp] theorem get_join (k : κ) (d : Nat) (t side : Radix κ ν) :
    get bit k d (join (bit k d) t side) = get bit k (d + 1) t := by
  cases h : bit k d <;> simp [join, get, h]

@[simp] theorem insert_join (k : κ) (v : ν) (d : Nat) (t side : Radix κ ν) :
    insert bit N k v d (join (bit k d) t side) =
      join (bit k d) (insert bit N k v (d + 1) t) side := by
  cases h : bit k d <;> simp [join, insert, h]

end Path

/-! ## Contents -/

section Contents

variable {bit : κ → Nat → Bool} {N : Nat} {d : Nat} {k : κ} {v : ν} {t : Radix κ ν}

theorem Wf.entries_ne_nil : ∀ {d : Nat} {t : Radix κ ν}, Wf bit N d t → t ≠ .empty → t.entries ≠ []
  | _, .empty, _, h => absurd rfl h
  | _, .leaf _ _, _, _ => by simp [entries]
  | _, .node l r, h, _ => by
    intro hnil
    have h2 := h.2.2.2.1
    rw [show l.entries ++ r.entries = [] from hnil] at h2
    simp at h2

theorem Wf.of_mem_subtrees : ∀ {d : Nat} {t s : Radix κ ν}, Wf bit N d t → s ∈ t.subtrees →
    ∃ d', Wf bit N d' s
  | d, .leaf _ _, _, h, hs => by cases hs; exact ⟨d, h⟩
  | d, .node l r, s, h, hs => by
    rcases hs with hs | hs | hs
    · cases hs; exact ⟨d, h⟩
    · exact Wf.of_mem_subtrees h.2.2.2.2.1 hs
    · exact Wf.of_mem_subtrees h.2.2.2.2.2 hs

theorem Wf.nodup : ∀ {d : Nat} {t : Radix κ ν}, Wf bit N d t → t.entries.Nodup
  | _, .empty, _ => .nil
  | _, .leaf _ _, _ => List.nodup_singleton _
  | d, .node l r, ⟨_, hl, hr, _, hwl, hwr⟩ => by
    refine List.nodup_append'.2 ⟨hwl.nodup, hwr.nodup, fun p hp hp' => ?_⟩
    have := hl p hp
    rw [hr p hp'] at this
    cases this

/-- **A trie is determined by its contents.** -/
theorem Wf.ext : ∀ {d : Nat} {t t' : Radix κ ν}, Wf bit N d t → Wf bit N d t' →
    (∀ p, p ∈ t.entries ↔ p ∈ t'.entries) → t = t'
  | d, t, t', h, h', he => by
    have hperm : t.entries.Perm t'.entries := (List.perm_ext_iff_of_nodup h.nodup h'.nodup).2 he
    have hlen := hperm.length_eq
    match t, t', h, h' with
    | .empty, .empty, _, _ => rfl
    | .empty, .leaf _ _, _, _ => simp [entries] at hlen
    | .leaf _ _, .empty, _, _ => simp [entries] at hlen
    | .leaf k v, .leaf k' v', _, _ =>
      have := (he (k, v)).1 (List.mem_singleton.2 rfl)
      rw [entries, List.mem_singleton] at this
      cases this; rfl
    | .empty, .node l r, _, h' =>
      have := h'.2.2.2.1
      rw [show (l.entries ++ r.entries).length = 0 from hlen.symm] at this
      omega
    | .node l r, .empty, h, _ =>
      have := h.2.2.2.1
      rw [show (l.entries ++ r.entries).length = 0 from hlen] at this
      omega
    | .leaf k v, .node l r, _, h' =>
      have := h'.2.2.2.1
      rw [show (l.entries ++ r.entries).length = 1 from hlen.symm] at this
      omega
    | .node l r, .leaf k v, h, _ =>
      have := h.2.2.2.1
      rw [show (l.entries ++ r.entries).length = 1 from hlen] at this
      omega
    | .node l r, .node l' r', ⟨_, hl, hr, _, hwl, hwr⟩, ⟨_, hl', hr', _, hwl', hwr'⟩ =>
      have el : l = l' := Wf.ext hwl hwl' fun p => by
        have := he p
        simp only [entries, List.mem_append] at this
        grind
      have er : r = r' := Wf.ext hwr hwr' fun p => by
        have := he p
        simp only [entries, List.mem_append] at this
        grind
      rw [el, er]

theorem agree_succ {k' : κ} (hi : ∀ i < d, bit k i = bit k' i) (hb : bit k d = bit k' d) :
    ∀ i < d + 1, bit k i = bit k' i := fun i h => by
  rcases Nat.lt_succ_iff_lt_or_eq.1 h with h | rfl
  · exact hi i h
  · exact hb

/-- Two different keys that agree on the bits before `d` are the two entries of their split. -/
theorem entries_split_perm {k' : κ} (v v' : ν) (hsep : Sep bit N) (hk : k ≠ k') :
    ∀ n d, d + n = N → (∀ i < d, bit k i = bit k' i) →
      (split bit k v k' v' n d).entries.Perm [(k, v), (k', v')]
  | 0, d, hd, hi => absurd (hsep k k' fun i hi' => hi i (by omega)) hk
  | n + 1, d, hd, hi => by
    rw [split]
    split
    · rename_i hb
      refine (entries_join_perm _ _ _).trans ?_
      rw [entries, List.append_nil]
      exact entries_split_perm v v' hsep hk n (d + 1) (by omega) (agree_succ hi hb)
    · exact entries_join_perm _ _ _

theorem wf_split {k' : κ} {v' : ν} (hsep : Sep bit N) (hk : k ≠ k') :
    ∀ n d, d + n = N → (∀ i < d, bit k i = bit k' i) → Wf bit N d (split bit k v k' v' n d)
  | 0, _, _, _ => trivial
  | n + 1, d, hd, hi => by
    rw [split]
    split
    · rename_i hb
      have hp := entries_split_perm v v' hsep hk n (d + 1) (by omega) (agree_succ hi hb)
      refine wf_join.2 ⟨by omega, fun p hm => ?_, by simp [entries], ?_,
        wf_split hsep hk n (d + 1) (by omega) (agree_succ hi hb), trivial⟩
      · rcases List.mem_pair.1 (hp.mem_iff.1 hm) with rfl | rfl
        · rfl
        · exact hb.symm
      · rw [hp.length_eq]; simp
    · rename_i hb
      refine wf_join.2 ⟨by omega, by simp [entries], ?_, by simp [entries], trivial, trivial⟩
      intro p hm
      rw [entries, List.mem_singleton] at hm
      subst hm
      cases h : bit k d <;> cases h' : bit k' d <;> simp_all

theorem under_zero (k : κ) (t : Radix κ ν) : Under bit 0 k t := fun _ _ _ hi => absurd hi (by omega)

theorem Under.of_join {side : Radix κ ν} (h : Under bit d k (join (bit k d) t side))
    (hw : Wf bit N d (join (bit k d) t side)) : Under bit (d + 1) k t := fun p hp =>
  agree_succ (h p (mem_entries_join.2 (.inl hp))) ((wf_join.1 hw).2.1 p hp)

variable [DecidableEq κ]

theorem Wf.get_eq_some_iff (h : Wf bit N d t) : get bit k d t = some v ↔ (k, v) ∈ t.entries := by
  revert h
  refine path_induction bit k (motive := fun d t => Wf bit N d t →
    (get bit k d t = some v ↔ (k, v) ∈ t.entries)) (fun d _ => ?_) (fun d k' v' _ => ?_)
    (fun d t side ih h => ?_) d t
  · simp [get, entries]
  · simp only [get, entries, List.mem_singleton, Prod.mk.injEq]
    by_cases hk : k = k' <;> simp [hk, eq_comm]
  · obtain ⟨_, _, hside, _, hwt, _⟩ := wf_join.1 h
    rw [get_join, ih hwt, mem_entries_join]
    refine ⟨.inl, fun hm => hm.resolve_right fun hm => ?_⟩
    have := hside _ hm
    simp at this

theorem filter_side {side : Radix κ ν} (hside : ∀ p ∈ side.entries, bit p.1 d = !bit k d) :
    side.entries.filter (fun p => p.1 ≠ k) = side.entries := by
  refine List.filter_eq_self.2 fun p hp => ?_
  have := hside p hp
  simp only [ne_eq, decide_eq_true_eq]
  rintro rfl
  simp at this

theorem Wf.entries_insert_perm (hsep : Sep bit N) (hd : d ≤ N) (h : Wf bit N d t)
    (hu : Under bit d k t) :
    (insert bit N k v d t).entries.Perm ((k, v) :: t.entries.filter fun p => p.1 ≠ k) := by
  revert hd h hu
  refine path_induction bit k (motive := fun d t => d ≤ N → Wf bit N d t →
    Under bit d k t → (insert bit N k v d t).entries.Perm
      ((k, v) :: t.entries.filter fun p => p.1 ≠ k)) (fun d _ _ _ => ?_)
    (fun d k' v' hd _ hu => ?_) (fun d t side ih _ h hu => ?_) d t
  · exact .refl _
  · rw [insert]
    split
    · rename_i hk
      simp [entries, hk]
    · rename_i hk
      have hkk : decide (k' ≠ k) = true := by simpa using Ne.symm hk
      have hu' : ∀ i < d, bit k i = bit k' i := fun i hi =>
        (hu (k', v') (List.mem_singleton.2 rfl) i hi).symm
      simpa [entries, hkk, Ne.symm hk] using
        entries_split_perm v v' hsep hk (N - d) d (by omega) hu'
  · obtain ⟨hdN, ht, hside, _, hwt, _⟩ := wf_join.1 h
    rw [insert_join]
    refine (entries_join_perm _ _ _).trans ?_
    have hperm := ((entries_join_perm (bit k d) t side).filter fun p => p.1 ≠ k).cons (k, v)
    refine ((ih (by omega) hwt (hu.of_join h)).append_right _).trans (.trans ?_ hperm.symm)
    rw [List.filter_append, filter_side hside, List.cons_append]

theorem Wf.mem_entries_insert (hsep : Sep bit N) (hd : d ≤ N) (h : Wf bit N d t)
    (hu : Under bit d k t) {p : κ × ν} :
    p ∈ (insert bit N k v d t).entries ↔ p = (k, v) ∨ p ∈ t.entries ∧ p.1 ≠ k := by
  rw [(h.entries_insert_perm hsep hd hu).mem_iff, List.mem_cons, List.mem_filter,
    decide_eq_true_eq]

theorem length_le_insert (k : κ) (v : ν) (d : Nat) (t : Radix κ ν) :
    t.entries.length ≤ (insert bit N k v d t).entries.length := by
  have hsplit (k' v') : ∀ n d, 1 ≤ (split bit k v k' v' n d).entries.length := by
    intro n
    induction n with
    | zero => intro d; simp [split, entries]
    | succ n ih =>
      intro d
      rw [split]
      split <;> rw [(entries_join_perm _ _ _).length_eq, List.length_append]
      · have := ih (d + 1); omega
      · simp [entries]
  refine path_induction bit k (motive := fun d t =>
    t.entries.length ≤ (insert bit N k v d t).entries.length) (fun d => ?_) (fun d k' v' => ?_)
    (fun d t side ih => ?_) d t
  · simp [entries]
  · rw [insert]
    split
    · exact le_refl _
    · exact hsplit k' v' (N - d) d
  · rw [insert_join, (entries_join_perm _ _ _).length_eq, (entries_join_perm _ _ _).length_eq,
      List.length_append, List.length_append]
    omega

theorem Wf.wf_insert (hsep : Sep bit N) (hd : d ≤ N) (h : Wf bit N d t) (hu : Under bit d k t) :
    Wf bit N d (insert bit N k v d t) := by
  revert hd h hu
  refine path_induction bit k (motive := fun d t => d ≤ N → Wf bit N d t → Under bit d k t →
    Wf bit N d (insert bit N k v d t)) (fun d _ _ _ => trivial)
    (fun d k' v' hd _ hu => ?_) (fun d t side ih _ h hu => ?_) d t
  · rw [insert]
    split
    · trivial
    · rename_i hk
      exact wf_split hsep hk (N - d) d (by omega) fun i hi =>
        (hu (k', v') (List.mem_singleton.2 rfl) i hi).symm
  · have hu' := hu.of_join h
    obtain ⟨hdN, ht, hside, h2, hwt, hws⟩ := wf_join.1 h
    rw [insert_join]
    refine wf_join.2 ⟨hdN, fun p hp => ?_, hside, ?_, ih (by omega) hwt hu', hws⟩
    · rcases (hwt.mem_entries_insert hsep (by omega) hu').1 hp with rfl | ⟨hp, _⟩
      · rfl
      · exact ht p hp
    · have : t.entries.length ≤ (insert bit N k v (d + 1) t).entries.length :=
        length_le_insert k v (d + 1) t
      omega

/-- **Insertion changes the lookup of one key.** -/
theorem Wf.get_insert (hsep : Sep bit N) (h : Wf bit N 0 t) (j : κ) :
    get bit j 0 (insert bit N k v 0 t) = if j = k then some v else get bit j 0 t := by
  have hw := h.wf_insert (k := k) (v := v) hsep (Nat.zero_le _) (under_zero k t)
  ext w
  rw [hw.get_eq_some_iff, h.mem_entries_insert hsep (Nat.zero_le _) (under_zero k t)]
  by_cases hj : j = k
  · simp [hj, eq_comm]
  · simp [hj, h.get_eq_some_iff]

end Contents

/-! ## Subtrees on the way to a key and next to it -/

section Subtrees

variable {bit : κ → Nat → Bool} {N : Nat} {d : Nat} {k : κ} {v : ν} {t : Radix κ ν}

variable {s : Radix κ ν}

theorem mem_subtrees_iff (d : Nat) (t : Radix κ ν) :
    s ∈ t.subtrees ↔ (s ∈ path bit k d t ∧ s ≠ .empty) ∨ ∃ u ∈ sides bit k d t, s ∈ u.subtrees := by
  refine path_induction bit k (motive := fun d t => s ∈ t.subtrees ↔
    (s ∈ path bit k d t ∧ s ≠ .empty) ∨ ∃ u ∈ sides bit k d t, s ∈ u.subtrees)
    (fun d => ?_) (fun d k' v' => ?_) (fun d t side ih => ?_) d t
  · simp [subtrees, path, above, terminal, sides]
  · simp only [subtrees, path, above, terminal, sides, List.nil_append, List.mem_singleton,
      Set.mem_singleton_iff]
    constructor
    · rintro rfl; exact .inl ⟨rfl, nofun⟩
    · rintro (⟨h, _⟩ | ⟨_, h, _⟩)
      · exact h
      · cases h
  · have hne : join (bit k d) t side ≠ .empty := by cases bit k d <;> nofun
    rw [subtrees_join, path_join, sides_join, Set.mem_union, Set.mem_union, ih,
      Set.mem_singleton_iff, List.mem_cons, List.exists_mem_cons_iff]
    constructor
    · rintro (rfl | h | ⟨h, hn⟩ | h)
      · exact .inl ⟨.inl rfl, hne⟩
      · exact .inr (.inl h)
      · exact .inl ⟨.inr h, hn⟩
      · exact .inr (.inr h)
    · rintro (⟨rfl | h, hn⟩ | h | h)
      · exact .inl rfl
      · exact .inr (.inr (.inl ⟨h, hn⟩))
      · exact .inr (.inl h)
      · exact .inr (.inr (.inr h))

theorem join_notMem_subtrees (b : Bool) (t side : Radix κ ν) :
    join b t side ∉ t.subtrees ∧ join b t side ∉ side.subtrees := by
  have hsize : sizeOf (join b t side) = 1 + sizeOf t + sizeOf side := by
    cases b <;> simp [join]; omega
  constructor <;> intro h <;> rcases size_lt_of_mem_subtrees h with e | e
  · have := congrArg sizeOf e; omega
  · omega
  · have := congrArg sizeOf e; omega
  · omega

variable {u : Radix κ ν}

/-- In a well-formed trie no subtree is both on the way to a key and below a side of it. -/
theorem Wf.path_disjoint_sides (h : Wf bit N d t) (hs : s ∈ path bit k d t)
    (hu : u ∈ sides bit k d t) : s ∉ u.subtrees := by
  revert h hs hu
  refine path_induction bit k (motive := fun d t => Wf bit N d t → s ∈ path bit k d t →
    u ∈ sides bit k d t → s ∉ u.subtrees) (fun d _ _ hu => by cases hu)
    (fun d k' v' _ _ hu => by cases hu) (fun d t side ih h hs hu hsu => ?_) d t
  obtain ⟨_, ht, hside, _, hwt, hws⟩ := wf_join.1 h
  obtain ⟨hJt, hJs⟩ := join_notMem_subtrees (bit k d) t side
  rw [path_join] at hs
  rw [sides_join] at hu
  rcases List.mem_cons.1 hs with rfl | hs' <;> rcases List.mem_cons.1 hu with rfl | hu'
  · exact hJs hsu
  · exact hJt ((mem_subtrees_iff (d + 1) t).2 (.inr ⟨u, hu', hsu⟩))
  · -- the entries of `s` would have both values of the bit at depth `d`
    have hne := ne_empty_of_mem_subtrees hsu
    have hst : s ∈ t.subtrees := (mem_subtrees_iff (d + 1) t).2 (.inl ⟨hs', hne⟩)
    obtain ⟨d', hws'⟩ := hws.of_mem_subtrees hsu
    obtain ⟨p, hp⟩ := List.exists_mem_of_ne_nil _ (hws'.entries_ne_nil hne)
    have h1 := ht p (entries_subset_of_mem_subtrees hst hp)
    have h2 := hside p (entries_subset_of_mem_subtrees hsu hp)
    rw [h1] at h2
    simp at h2
  · exact ih hwt hs' hu' hsu

theorem climb_sides_terminal (k : κ) (d : Nat) (t : Radix κ ν) :
    climb bit k d (sides bit k d t) (terminal bit k d t) = t := by
  refine path_induction bit k (motive := fun d t =>
    climb bit k d (sides bit k d t) (terminal bit k d t) = t) (fun d => rfl) (fun d k' v' => rfl)
    (fun d t side ih => ?_) d t
  rw [sides_join, terminal_join, climb, ih]

theorem above_nodup (k : κ) (d : Nat) (t : Radix κ ν) : (above bit k d t).Nodup := by
  refine path_induction bit k (motive := fun d t => (above bit k d t).Nodup) (fun d => .nil)
    (fun d k' v' => .nil) (fun d t side ih => ?_) d t
  rw [above_join, List.nodup_cons]
  refine ⟨fun h => (join_notMem_subtrees (bit k d) t side).1 ?_, ih⟩
  refine (mem_subtrees_iff (d + 1) t).2 (.inl ⟨List.mem_append_left _ h, ?_⟩)
  cases bit k d <;> nofun

theorem ne_terminal_of_mem_above (h : s ∈ above bit k d t) :
    s ≠ .empty ∧ ∀ k' v', s ≠ .leaf k' v' := by
  revert h
  refine path_induction bit k (motive := fun d t => s ∈ above bit k d t →
    s ≠ .empty ∧ ∀ k' v', s ≠ .leaf k' v') (fun d h => by cases h) (fun d k' v' h => by cases h)
    (fun d t side ih h => ?_) d t
  rw [above_join] at h
  rcases List.mem_cons.1 h with rfl | h
  · cases bit k d <;> exact ⟨nofun, nofun⟩
  · exact ih h

theorem terminal_cases (k : κ) (d : Nat) (t : Radix κ ν) :
    terminal bit k d t = .empty ∨ ∃ k' v', terminal bit k d t = .leaf k' v' := by
  refine path_induction bit k (motive := fun d t => terminal bit k d t = .empty ∨
    ∃ k' v', terminal bit k d t = .leaf k' v') (fun d => .inl rfl)
    (fun d k' v' => .inr ⟨k', v', rfl⟩) (fun d t side ih => ?_) d t
  rwa [terminal_join]

/-- In a well-formed trie the last subtree next to the way to a key is not empty. -/
theorem Wf.last_side_ne_empty (h : Wf bit N d t) {ss : List (Radix κ ν)}
    (hs : sides bit k d t = ss ++ [u]) : u ≠ .empty := by
  revert h ss
  refine path_induction bit k (motive := fun d t => Wf bit N d t → ∀ {ss},
    sides bit k d t = ss ++ [u] → u ≠ .empty) (fun d _ ss hs => ?_) (fun d k' v' _ ss hs => ?_)
    (fun d t side ih h ss hs => ?_) d t
  · simp [sides] at hs
  · simp [sides] at hs
  · obtain ⟨_, _, _, h2, hwt, _⟩ := wf_join.1 h
    rw [sides_join] at hs
    cases ss with
    | cons s ss => exact ih hwt (List.cons.inj hs).2
    | nil =>
      -- the way ends at `t`, which has at most one entry
      obtain ⟨rfl, hnil⟩ := List.cons.inj hs
      rintro rfl
      cases t with
      | empty => simp [entries] at h2
      | leaf => simp [entries] at h2
      | node l r =>
        simp only [sides] at hnil
        split at hnil <;> cases hnil

theorem path_nodup (k : κ) (d : Nat) (t : Radix κ ν) : (path bit k d t).Nodup := by
  refine List.nodup_append.2 ⟨above_nodup k d t, List.nodup_singleton _, ?_⟩
  rintro s hs _ hs' rfl
  rw [List.mem_singleton] at hs'
  rcases (terminal_cases k d t : terminal bit k d t = .empty ∨ _) with hterm | ⟨k', v', hterm⟩
  · exact (ne_terminal_of_mem_above hs).1 (hs'.trans hterm)
  · exact (ne_terminal_of_mem_above hs).2 k' v' (hs'.trans hterm)

/-- The subtrees that are not on the way to a key are those below the sides of the way. -/
theorem Wf.mem_sdiff_path (h : Wf bit N d t) :
    s ∈ t.subtrees \ { s | s ∈ path bit k d t } ↔ ∃ u ∈ sides bit k d t, s ∈ u.subtrees := by
  rw [Set.mem_sdiff, mem_subtrees_iff d t]
  constructor
  · rintro ⟨⟨hp, _⟩ | hside, hnp⟩
    · exact absurd hp hnp
    · exact hside
  · rintro ⟨u, hu, hs⟩
    exact ⟨.inr ⟨u, hu, hs⟩, fun hp => h.path_disjoint_sides hp hu hs⟩

theorem mem_subtrees_of_mem_above (h : s ∈ above bit k d t) : s ∈ t.subtrees :=
  (mem_subtrees_iff d t).2 (.inl ⟨List.mem_append_left _ h, (ne_terminal_of_mem_above h).1⟩)

theorem terminal_mem_subtrees (h : terminal bit k d t ≠ .empty) :
    terminal bit k d t ∈ t.subtrees :=
  (mem_subtrees_iff d t).2 (.inl ⟨List.mem_append_right _ (List.mem_singleton.2 rfl), h⟩)

theorem climb_append (k : κ) (u t : Radix κ ν) : ∀ (d : Nat) (ss : List (Radix κ ν)),
    climb bit k d (ss ++ [u]) t = climb bit k d ss (join (bit k (d + ss.length)) t u)
  | d, [] => rfl
  | d, s :: ss => by
    rw [List.cons_append, climb, climb, climb_append k u t (d + 1) ss, List.length_cons,
      Nat.add_assoc, Nat.add_comm 1]

theorem climbs_append (k : κ) (u t : Radix κ ν) : ∀ (d : Nat) (ss : List (Radix κ ν)),
    climbs bit k d (ss ++ [u]) t =
      climbs bit k d ss (join (bit k (d + ss.length)) t u) ++ [join (bit k (d + ss.length)) t u]
  | d, [] => rfl
  | d, s :: ss => by
    have h : climb bit k d (s :: ss ++ [u]) t = _ := climb_append k u t d (s :: ss)
    rw [List.cons_append] at h
    rw [List.cons_append, climbs, climbs, climbs_append k u t (d + 1) ss, h, List.length_cons,
      Nat.add_assoc, Nat.add_comm 1, List.cons_append]

theorem climbs_sides_terminal (k : κ) (d : Nat) (t : Radix κ ν) :
    climbs bit k d (sides bit k d t) (terminal bit k d t) = above bit k d t := by
  refine path_induction bit k (motive := fun d t =>
    climbs bit k d (sides bit k d t) (terminal bit k d t) = above bit k d t) (fun d => rfl)
    (fun d k' v' => rfl) (fun d t side ih => ?_) d t
  rw [sides_join, terminal_join, above_join, climbs, ih, climb, climb_sides_terminal]

theorem above_climb : ∀ (d : Nat) (ss : List (Radix κ ν)),
    above bit k d (climb bit k d ss (.leaf k v)) = climbs bit k d ss (.leaf k v)
  | d, [] => rfl
  | d, s :: ss => by rw [climbs, climb, above_join, above_climb (d + 1) ss]

theorem mem_entries_climb {p : κ × ν} (h : p ∈ t.entries) : ∀ (d : Nat) (ss : List (Radix κ ν)),
    p ∈ (climb bit k d ss t).entries
  | _, [] => h
  | d, _ :: ss => mem_entries_join.2 (.inl (mem_entries_climb h (d + 1) ss))

theorem mem_entries_climbs {p : κ × ν} (h : p ∈ t.entries) {s : Radix κ ν} :
    ∀ {d : Nat} {ss : List (Radix κ ν)}, s ∈ climbs bit k d ss t → p ∈ s.entries
  | d, u :: ss, hs => by
    rcases List.mem_cons.1 hs with rfl | hs
    · exact mem_entries_climb h d (u :: ss)
    · exact mem_entries_climbs h hs

theorem terminal_split (k : κ) (v : ν) (k' : κ) (v' : ν) :
    ∀ n d, terminal bit k d (split bit k v k' v' n d) = .leaf k v
  | 0, _ => rfl
  | n + 1, d => by
    rw [split]
    split
    · rw [terminal_join, terminal_split k v k' v' n (d + 1)]
    · rw [terminal_join]; rfl

/-- Below two keys that first differ at bit `c`: nothing next to the bits they share, then the
other leaf. -/
theorem sides_split {k' : κ} (v v' : ν) {c : Nat} (hc : c < N) (hne : bit k c ≠ bit k' c) :
    ∀ n d, d + n = N → d ≤ c → (∀ i < c, bit k i = bit k' i) →
      sides bit k d (split bit k v k' v' n d) =
        List.replicate (c - d) .empty ++ [.leaf k' v']
  | 0, d, hd, hdc, _ => by omega
  | n + 1, d, hd, hdc, hi => by
    rw [split]
    rcases Nat.eq_or_lt_of_le hdc with rfl | hlt
    · rw [if_neg hne, sides_join]
      simp [sides]
    · rw [if_pos (hi d hlt), sides_join, sides_split v v' hc hne n (d + 1) (by omega) hlt hi,
        show c - d = (c - (d + 1)) + 1 by omega, List.replicate_succ, List.cons_append]

variable {k' : κ} {v' : ν}

/-- In a well-formed trie the keys on the way to a place agree with `k` above it. -/
theorem Wf.terminal_agree (h : Wf bit N d t) (ht : terminal bit k d t = .leaf k' v') :
    (∀ i, d ≤ i → i < d + (sides bit k d t).length → bit k i = bit k' i) ∧ (k', v') ∈ t.entries := by
  revert h ht
  refine path_induction bit k (motive := fun d t => Wf bit N d t →
    terminal bit k d t = .leaf k' v' →
    (∀ i, d ≤ i → i < d + (sides bit k d t).length → bit k i = bit k' i) ∧ (k', v') ∈ t.entries)
    (fun d _ h => by cases h) (fun d k₁ v₁ _ h => ?_) (fun d t side ih h ht => ?_) d t
  · cases h
    exact ⟨fun i h₁ h₂ => by simp only [sides, List.length_nil] at h₂; omega,
      List.mem_singleton.2 rfl⟩
  · rw [terminal_join] at ht
    obtain ⟨_, hbit, _, _, hwt, _⟩ := wf_join.1 h
    obtain ⟨hagree, hmem⟩ := ih hwt ht
    refine ⟨fun i h₁ h₂ => ?_, mem_entries_join.2 (.inl hmem)⟩
    rw [sides_join, List.length_cons] at h₂
    rcases Nat.eq_or_lt_of_le h₁ with rfl | h₁
    · exact (hbit _ hmem).symm
    · exact hagree i h₁ (by omega)

theorem Wf.length_sides_le (h : Wf bit N d t) (hd : d ≤ N) :
    d + (sides bit k d t).length ≤ N := by
  revert h hd
  refine path_induction bit k (motive := fun d t => Wf bit N d t → d ≤ N →
    d + (sides bit k d t).length ≤ N) (fun d _ hd => hd) (fun d _ _ _ hd => hd)
    (fun d t side ih h hd => ?_) d t
  obtain ⟨hdN, _, _, _, hwt, _⟩ := wf_join.1 h
  have := ih hwt hdN
  rw [sides_join, List.length_cons]
  omega

variable [DecidableEq κ]

theorem terminal_insert (k : κ) (v : ν) (d : Nat) (t : Radix κ ν) :
    terminal bit k d (insert bit N k v d t) = .leaf k v := by
  refine path_induction bit k (motive := fun d t =>
    terminal bit k d (insert bit N k v d t) = .leaf k v) (fun d => rfl) (fun d k' v' => ?_)
    (fun d t side ih => ?_) d t
  · rw [insert]
    split
    · rfl
    · exact terminal_split k v k' v' (N - d) d
  · rw [insert_join, terminal_join, ih]

theorem sides_insert_of_empty (d : Nat) (t : Radix κ ν) (h : terminal bit k d t = .empty) :
    sides bit k d (insert bit N k v d t) = sides bit k d t := by
  revert h
  refine path_induction bit k (motive := fun d t => terminal bit k d t = .empty →
    sides bit k d (insert bit N k v d t) = sides bit k d t) (fun d _ => rfl)
    (fun d k' v' h => by cases h) (fun d t side ih h => ?_) d t
  rw [terminal_join] at h
  rw [insert_join, sides_join, sides_join, ih h]

theorem sides_insert_of_self {w : ν} (d : Nat) (t : Radix κ ν)
    (h : terminal bit k d t = .leaf k w) :
    sides bit k d (insert bit N k v d t) = sides bit k d t := by
  revert h
  refine path_induction bit k (motive := fun d t => terminal bit k d t = .leaf k w →
    sides bit k d (insert bit N k v d t) = sides bit k d t) (fun d _ => rfl)
    (fun d k' v' h => ?_) (fun d t side ih h => ?_) d t
  · cases h
    rw [insert, if_pos rfl]; rfl
  · rw [terminal_join] at h
    rw [insert_join, sides_join, sides_join, ih h]

theorem sides_insert_of_ne {c : Nat} (hc : c < N) (hne : bit k c ≠ bit k' c)
    (hi : ∀ i < c, bit k i = bit k' i) (d : Nat) (t : Radix κ ν)
    (h : terminal bit k d t = .leaf k' v') (hd : d + (sides bit k d t).length ≤ c) :
    sides bit k d (insert bit N k v d t) = sides bit k d t ++
      (List.replicate (c - (d + (sides bit k d t).length)) .empty ++ [.leaf k' v']) := by
  revert h hd
  refine path_induction bit k (motive := fun d t => terminal bit k d t = .leaf k' v' →
    d + (sides bit k d t).length ≤ c → sides bit k d (insert bit N k v d t) = sides bit k d t ++
      (List.replicate (c - (d + (sides bit k d t).length)) .empty ++ [.leaf k' v']))
    (fun d h => by cases h) (fun d k₁ v₁ h hd => ?_) (fun d t side ih h hd => ?_) d t
  · cases h
    have hk : k ≠ k' := fun h => hne (h ▸ rfl)
    rw [insert, if_neg hk]
    exact sides_split v v' hc hne (N - d) d (by simp only [sides] at hd; omega) hd hi
  · rw [terminal_join] at h
    rw [sides_join, List.length_cons] at hd
    rw [insert_join, sides_join, sides_join, ih h (by omega), List.length_cons, List.cons_append,
      Nat.add_right_comm, Nat.add_assoc]

theorem get_eq_some_of_terminal (d : Nat) (t : Radix κ ν) (h : terminal bit k d t = .leaf k' v') :
    get bit k d t = if k = k' then some v' else none := by
  revert h
  refine path_induction bit k (motive := fun d t => terminal bit k d t = .leaf k' v' →
    get bit k d t = if k = k' then some v' else none) (fun d h => by cases h)
    (fun d k₁ v₁ h => by cases h; rfl) (fun d t side ih h => ?_) d t
  rw [terminal_join] at h
  rw [get_join, ih h]

theorem get_eq_none_of_terminal (d : Nat) (t : Radix κ ν) (h : terminal bit k d t = .empty) :
    get bit k d t = none := by
  revert h
  refine path_induction bit k (motive := fun d t => terminal bit k d t = .empty →
    get bit k d t = none) (fun d _ => rfl) (fun d k₁ v₁ h => by cases h)
    (fun d t side ih h => ?_) d t
  rw [terminal_join] at h
  rw [get_join, ih h]

theorem terminal_of_get {v : ν} {d : Nat} {t : Radix κ ν} (h : get bit k d t = some v) :
    terminal bit k d t = .leaf k v := by
  rcases (terminal_cases k d t : terminal bit k d t = .empty ∨ _) with hterm | ⟨k', v', hterm⟩
  · rw [get_eq_none_of_terminal d t hterm] at h
    cases h
  · rw [get_eq_some_of_terminal d t hterm] at h
    split at h
    · rename_i hk
      cases h
      rw [hterm, hk]
    · cases h

theorem insert_self (d : Nat) (t : Radix κ ν) (h : terminal bit k d t = .leaf k v) :
    insert bit N k v d t = t := by
  revert h
  refine path_induction bit k (motive := fun d t => terminal bit k d t = .leaf k v →
    insert bit N k v d t = t) (fun d h => by cases h) (fun d k₁ v₁ h => ?_)
    (fun d t side ih h => ?_) d t
  · cases h
    rw [insert, if_pos rfl]
  · rw [terminal_join] at h
    rw [insert_join, ih h]

theorem insert_eq_climb (k : κ) (v : ν) (d : Nat) (t : Radix κ ν) :
    insert bit N k v d t =
      climb bit k d (sides bit k d (insert bit N k v d t)) (.leaf k v) := by
  have h : climb bit k d (sides bit k d _) (terminal bit k d _) = insert bit N k v d t :=
    climb_sides_terminal k d _
  rw [terminal_insert] at h
  exact h.symm

theorem above_insert (k : κ) (v : ν) (d : Nat) (t : Radix κ ν) :
    above bit k d (insert bit N k v d t) =
      climbs bit k d (sides bit k d (insert bit N k v d t)) (.leaf k v) := by
  rw [← above_climb, ← insert_eq_climb]

theorem mem_entries_of_mem_path_insert (h : s ∈ path bit k d (insert bit N k v d t)) :
    (k, v) ∈ s.entries := by
  have hleaf : (k, v) ∈ (leaf k v).entries := List.mem_singleton.2 rfl
  rw [path, terminal_insert, above_insert] at h
  rcases List.mem_append.1 h with h | h
  · exact mem_entries_climbs hleaf h
  · rw [List.mem_singleton.1 h]; exact hleaf

omit [DecidableEq κ] in
theorem path_join_of_ne {b : Bool} {side : Radix κ ν} (h : bit k' d ≠ b) :
    path bit k' d (join b t side) = join b t side :: path bit k' (d + 1) side := by
  have hother : join b t side = join (bit k' d) side t := by
    cases b <;> cases hb : bit k' d <;> simp_all [join]
  rw [hother, path_join]

omit [DecidableEq κ] in
/-- The way to another key in a split: nodes above the first leaf, and one of the leaves. -/
theorem mem_path_split {k' k₁ : κ} {v₁ : ν} {u : Radix κ ν} (hu : u ≠ .empty) :
    ∀ n d, u ∈ path bit k' d (split bit k v k₁ v₁ n d) →
      u ∈ path bit k d (split bit k v k₁ v₁ n d) ∨ u = .leaf k₁ v₁
  | 0, _, h => .inl h
  | n + 1, d, h => by
    rw [split] at h ⊢
    by_cases hk : bit k' d = bit k d
    · split at h
      · rename_i hb
        rw [if_pos hb]
        rw [← hk, path_join] at h
        rw [path_join]
        rcases List.mem_cons.1 h with rfl | h
        · exact .inl (hk ▸ List.mem_cons_self)
        · exact (mem_path_split hu n (d + 1) h).imp_left (List.mem_cons_of_mem _)
      · rename_i hb
        rw [if_neg hb, path_join]
        rw [← hk, path_join] at h
        rw [← hk]
        exact .inl h
    · split at h
      · rename_i hb
        rw [if_pos hb, path_join]
        rw [path_join_of_ne hk] at h
        rcases List.mem_cons.1 h with rfl | h
        · exact .inl List.mem_cons_self
        · exact absurd (List.mem_singleton.1 h) hu
      · rename_i hb
        rw [if_neg hb, path_join]
        rw [path_join_of_ne hk] at h
        rcases List.mem_cons.1 h with rfl | h
        · exact .inl List.mem_cons_self
        · exact .inr (List.mem_singleton.1 h)

/-- **The way to a key after an insertion** is new where it is the way to the inserted key, and the
old one elsewhere. -/
theorem mem_path_insert (hu : u ≠ .empty) (d : Nat) (t : Radix κ ν)
    (h : u ∈ path bit k' d (insert bit N k v d t)) :
    u ∈ path bit k d (insert bit N k v d t) ∨ u ∈ path bit k' d t := by
  revert h
  refine path_induction bit k (motive := fun d t => u ∈ path bit k' d (insert bit N k v d t) →
    u ∈ path bit k d (insert bit N k v d t) ∨ u ∈ path bit k' d t) (fun d h => .inl h)
    (fun d k₁ v₁ h => ?_) (fun d t side ih h => ?_) d t
  · rw [insert] at h ⊢
    split at h
    · rename_i hk
      rw [if_pos hk]
      exact .inl h
    · rename_i hk
      rw [if_neg hk]
      exact (mem_path_split hu (N - d) d h).imp_right List.mem_singleton.2
  · rw [insert_join] at h ⊢
    rw [path_join]
    by_cases hk : bit k' d = bit k d
    · rw [← hk, path_join] at h ⊢
      rcases List.mem_cons.1 h with h | h
      · exact .inl (List.mem_cons.2 (.inl h))
      · exact (ih h).imp (List.mem_cons_of_mem _) (List.mem_cons_of_mem _)
    · rw [path_join_of_ne hk] at h ⊢
      rcases List.mem_cons.1 h with h | h
      · exact .inl (List.mem_cons.2 (.inl h))
      · exact .inr (List.mem_cons_of_mem _ h)

/-- The subtrees after an insertion, when the place of the key held nothing or its old leaf. -/
theorem Wf.subtrees_insert (h : Wf bit N d t)
    (hs : sides bit k d (insert bit N k v d t) = sides bit k d t) :
    (insert bit N k v d t).subtrees =
      { s | s ∈ path bit k d (insert bit N k v d t) } ∪
        (t.subtrees \ { s | s ∈ path bit k d t }) := by
  ext s
  simp only [Set.mem_union, Set.mem_sdiff, Set.mem_ofPred_eq]
  rw [mem_subtrees_iff d (insert bit N k v d t), mem_subtrees_iff d t, hs]
  constructor
  · rintro (⟨hp, _⟩ | ⟨u, hu, hsu⟩)
    · exact .inl hp
    · exact .inr ⟨.inr ⟨u, hu, hsu⟩, fun hp => h.path_disjoint_sides hp hu hsu⟩
  · rintro (hp | ⟨⟨hp, _⟩ | hside, hnp⟩)
    · refine .inl ⟨hp, ?_⟩
      rintro rfl
      exact nomatch mem_entries_of_mem_path_insert hp
    · exact absurd hp hnp
    · exact .inr hside

/-- The subtrees after an insertion, when the place of the key held another key's leaf. -/
theorem Wf.subtrees_insert_of_ne {n : Nat} (h : Wf bit N d t)
    (ht : terminal bit k d t = .leaf k' v')
    (hs : sides bit k d (insert bit N k v d t) = sides bit k d t ++ (List.replicate n .empty ++ [.leaf k' v']))
    :
    (insert bit N k v d t).subtrees =
      { s | s ∈ path bit k d (insert bit N k v d t) } ∪
        (t.subtrees \ { s | s ∈ above bit k d t }) := by
  ext s
  simp only [Set.mem_union, Set.mem_sdiff, Set.mem_ofPred_eq]
  rw [mem_subtrees_iff d (insert bit N k v d t), mem_subtrees_iff d t, hs]
  have hrest : (∃ u ∈ sides bit k d t ++ (List.replicate n .empty ++ [.leaf k' v']),
      s ∈ u.subtrees) ↔ (∃ u ∈ sides bit k d t, s ∈ u.subtrees) ∨ s = .leaf k' v' := by
    simp only [List.mem_append, List.mem_replicate, List.mem_singleton]
    constructor
    · rintro ⟨u, hu | ⟨_, rfl⟩ | rfl, hsu⟩
      · exact .inl ⟨u, hu, hsu⟩
      · cases hsu
      · exact .inr hsu
    · rintro (⟨u, hu, hsu⟩ | rfl)
      · exact ⟨u, .inl hu, hsu⟩
      · exact ⟨_, .inr (.inr rfl), rfl⟩
  rw [hrest]
  constructor
  · rintro (⟨hp, _⟩ | ⟨u, hu, hsu⟩ | rfl)
    · exact .inl hp
    · exact .inr ⟨.inr ⟨u, hu, hsu⟩, fun hp =>
        h.path_disjoint_sides (List.mem_append_left _ hp) hu hsu⟩
    · refine .inr ⟨.inl ⟨?_, nofun⟩, fun hp => (ne_terminal_of_mem_above hp).2 k' v' rfl⟩
      rw [← ht]
      exact List.mem_append_right _ (List.mem_singleton.2 rfl)
  · rintro (hp | ⟨⟨hp, _⟩ | hside, hnp⟩)
    · refine .inl ⟨hp, ?_⟩
      rintro rfl
      exact nomatch mem_entries_of_mem_path_insert hp
    · rcases List.mem_append.1 hp with hp | hp
      · exact absurd hp hnp
      · rw [List.mem_singleton, ht] at hp
        exact .inr (.inr hp)
    · exact .inr (.inl hside)

end Subtrees

end Radix

end Lib
