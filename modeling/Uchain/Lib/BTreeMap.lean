import Mathlib.Order.Defs.LinearOrder
import Mathlib.Order.Lattice
import Mathlib.Data.List.Nodup

/-!
# Ordered maps and ordered sets

`BTreeMap κ ν`: the entries of an ordered map, in strictly increasing order of their keys, so that
a key occurs at most once.
Iteration order is the order of `entries`.

`insertBy cmp`: insertion into an ordered set whose order is a comparison function of the elements.
An element that compares equal to a member is dropped, also when it is not
the same element.
-/

namespace Lib

/-- An ordered map: entries in strictly increasing order of keys. -/
structure BTreeMap (κ ν : Type) [LinearOrder κ] where
  entries : List (κ × ν)
  sorted : entries.Pairwise fun p q => p.1 < q.1

namespace BTreeMap

variable {κ ν : Type} [LinearOrder κ]

instance [DecidableEq ν] : DecidableEq (BTreeMap κ ν) := fun m m' =>
  decidable_of_iff (m.entries = m'.entries)
    ⟨fun h => by cases m; cases m'; cases h; rfl, fun h => h ▸ rfl⟩

/-! ## Entry lists -/

def lookup (k : κ) : List (κ × ν) → Option ν
  | [] => none
  | p :: l => if k = p.1 then some p.2 else lookup k l

def insertEntry (k : κ) (v : ν) : List (κ × ν) → List (κ × ν)
  | [] => [(k, v)]
  | p :: l =>
    if k < p.1 then (k, v) :: p :: l
    else if k = p.1 then (k, v) :: l
    else p :: insertEntry k v l

def eraseEntry (k : κ) : List (κ × ν) → List (κ × ν)
  | [] => []
  | p :: l => if k = p.1 then l else p :: eraseEntry k l

theorem mem_insertEntry {k : κ} {v : ν} {q : κ × ν} :
    ∀ {l : List (κ × ν)}, q ∈ insertEntry k v l → q = (k, v) ∨ q ∈ l
  | [], h => by simpa [insertEntry] using h
  | p :: l, h => by
    rw [insertEntry] at h
    split at h
    · simpa using h
    · split at h
      · rcases List.mem_cons.1 h with h | h
        · exact .inl h
        · exact .inr (List.mem_cons_of_mem _ h)
      · rcases List.mem_cons.1 h with h | h
        · exact .inr (h ▸ List.mem_cons_self)
        · exact (mem_insertEntry h).imp_right (List.mem_cons_of_mem _)

theorem eraseEntry_sublist (k : κ) : ∀ l : List (κ × ν), (eraseEntry k l).Sublist l
  | [] => .slnil
  | p :: l => by
    rw [eraseEntry]
    split
    · exact List.sublist_cons_self p l
    · exact (eraseEntry_sublist k l).cons_cons p

theorem sorted_insertEntry (k : κ) (v : ν) :
    ∀ {l : List (κ × ν)}, (l.Pairwise fun p q => p.1 < q.1) →
      (insertEntry k v l).Pairwise fun p q => p.1 < q.1
  | [], _ => List.pairwise_singleton _ _
  | p :: l, h => by
    obtain ⟨hp, hl⟩ := List.pairwise_cons.1 h
    rw [insertEntry]
    split
    · rename_i hk
      refine List.pairwise_cons.2 ⟨fun q hq => ?_, h⟩
      rcases List.mem_cons.1 hq with rfl | hq
      · exact hk
      · exact hk.trans (hp q hq)
    · split
      · rename_i hk
        exact List.pairwise_cons.2 ⟨fun q hq => hk ▸ hp q hq, hl⟩
      · rename_i h1 h2
        refine List.pairwise_cons.2 ⟨fun q hq => ?_, sorted_insertEntry k v hl⟩
        rcases mem_insertEntry hq with rfl | hq
        · exact lt_of_le_of_ne (not_lt.1 h1) fun h => h2 h.symm
        · exact hp q hq

theorem lookup_eq_none {k : κ} : ∀ {l : List (κ × ν)}, (∀ p ∈ l, k ≠ p.1) → lookup k l = none
  | [], _ => rfl
  | p :: l, h => by
    rw [lookup, if_neg (h p List.mem_cons_self),
      lookup_eq_none fun q hq => h q (List.mem_cons_of_mem _ hq)]

theorem lookup_insertEntry (k j : κ) (v : ν) : ∀ l : List (κ × ν),
    lookup j (insertEntry k v l) = if j = k then some v else lookup j l
  | [] => by simp [insertEntry, lookup]
  | p :: l => by
    rw [insertEntry]
    split
    · rfl
    · split
      · rename_i hk
        rw [lookup, lookup, ← hk]
        split <;> rfl
      · rename_i hk
        rw [lookup, lookup, lookup_insertEntry k j v l]
        by_cases hj : j = p.1
        · rw [if_pos hj, if_pos hj, if_neg fun h : j = k => hk (h ▸ hj)]
        · rw [if_neg hj, if_neg hj]

theorem lookup_eraseEntry (k j : κ) : ∀ {l : List (κ × ν)}, (l.Pairwise fun p q => p.1 < q.1) →
    lookup j (eraseEntry k l) = if j = k then none else lookup j l
  | [], _ => by simp [eraseEntry, lookup]
  | p :: l, h => by
    obtain ⟨hp, hl⟩ := List.pairwise_cons.1 h
    rw [eraseEntry]
    by_cases h2 : k = p.1
    · rw [if_pos h2]
      by_cases hj : j = k
      · rw [if_pos hj]
        exact lookup_eq_none fun q hq => hj ▸ h2 ▸ (hp q hq).ne
      · rw [if_neg hj, lookup, if_neg (h2 ▸ hj)]
    · rw [if_neg h2, lookup, lookup, lookup_eraseEntry k j hl]
      by_cases hj : j = k
      · simp [hj, h2]
      · simp [hj]

theorem mem_of_lookup {k : κ} {v : ν} : ∀ {l : List (κ × ν)}, lookup k l = some v → (k, v) ∈ l
  | p :: l, h => by
    rw [lookup] at h
    split at h
    · rename_i hk; cases h; exact hk ▸ List.mem_cons_self
    · exact List.mem_cons_of_mem _ (mem_of_lookup h)

theorem lookup_of_mem {p : κ × ν} : ∀ {l : List (κ × ν)}, (l.Pairwise fun p q => p.1 < q.1) →
    p ∈ l → lookup p.1 l = some p.2
  | q :: l, h, hp => by
    obtain ⟨hq, hl⟩ := List.pairwise_cons.1 h
    rw [lookup]
    rcases List.mem_cons.1 hp with rfl | hp
    · rw [if_pos rfl]
    · rw [if_neg (hq p hp).ne', lookup_of_mem hl hp]

def empty : BTreeMap κ ν := ⟨[], .nil⟩

def get? (m : BTreeMap κ ν) (k : κ) : Option ν := lookup k m.entries

def contains (m : BTreeMap κ ν) (k : κ) : Bool := (m.get? k).isSome

def insert (m : BTreeMap κ ν) (k : κ) (v : ν) : BTreeMap κ ν :=
  ⟨insertEntry k v m.entries, sorted_insertEntry k v m.sorted⟩

def erase (m : BTreeMap κ ν) (k : κ) : BTreeMap κ ν :=
  ⟨eraseEntry k m.entries, m.sorted.sublist (eraseEntry_sublist k m.entries)⟩

@[simp] theorem get?_empty (k : κ) : (empty : BTreeMap κ ν).get? k = none := rfl

theorem get?_insert (m : BTreeMap κ ν) (k j : κ) (v : ν) :
    (m.insert k v).get? j = if j = k then some v else m.get? j :=
  lookup_insertEntry k j v m.entries

theorem get?_erase (m : BTreeMap κ ν) (k j : κ) :
    (m.erase k).get? j = if j = k then none else m.get? j :=
  lookup_eraseEntry k j m.sorted

@[simp] theorem get?_insert_self (m : BTreeMap κ ν) (k : κ) (v : ν) :
    (m.insert k v).get? k = some v := by
  rw [get?_insert, if_pos rfl]

variable {k : κ}

theorem get?_insert_of_ne (m : BTreeMap κ ν) {j : κ} (v : ν) (h : j ≠ k) :
    (m.insert k v).get? j = m.get? j := by
  rw [get?_insert, if_neg h]

variable {m : BTreeMap κ ν} {v : ν}

theorem mem_entries_iff :
    (k, v) ∈ m.entries ↔ m.get? k = some v :=
  ⟨fun h => lookup_of_mem m.sorted h, mem_of_lookup⟩

theorem nodup_keys (m : BTreeMap κ ν) : (m.entries.map Prod.fst).Nodup :=
  List.pairwise_map.2 (m.sorted.imp fun h => ne_of_lt h)

theorem nodup_entries (m : BTreeMap κ ν) : m.entries.Nodup := m.nodup_keys.of_map

/-- **A map is determined by its lookups.** -/
theorem ext_get? {m' : BTreeMap κ ν} (h : ∀ k, m.get? k = m'.get? k) : m = m' := by
  have hperm : m.entries.Perm m'.entries := by
    refine (List.perm_ext_iff_of_nodup m.nodup_entries m'.nodup_entries).2 fun ⟨k, v⟩ => ?_
    rw [mem_entries_iff, mem_entries_iff, h]
  have hentries : m.entries = m'.entries := by
    refine hperm.eq_of_pairwise (fun a b ha hb hab hba => ?_) m.sorted m'.sorted
    exact absurd hab (lt_asymm hba)
  cases m
  cases m'
  cases hentries
  rfl

def filter (p : κ → ν → Bool) (m : BTreeMap κ ν) : BTreeMap κ ν :=
  ⟨m.entries.filter fun e => p e.1 e.2, m.sorted.filter _⟩

def values (m : BTreeMap κ ν) : List ν := m.entries.map Prod.snd

def keys (m : BTreeMap κ ν) : List κ := m.entries.map Prod.fst

def drop (n : Nat) (m : BTreeMap κ ν) : BTreeMap κ ν :=
  ⟨m.entries.drop n, m.sorted.sublist (List.drop_sublist n _)⟩

theorem get?_filter (p : κ → ν → Bool) (m : BTreeMap κ ν) (k : κ) :
    (m.filter p).get? k = (m.get? k).filter (p k) := by
  cases hget : m.get? k with
  | none =>
    cases hfilter : (m.filter p).get? k with
    | none => rfl
    | some v =>
      have hmem := (List.mem_filter.1 (mem_entries_iff.2 hfilter)).1
      rw [mem_entries_iff.1 hmem] at hget
      cases hget
  | some v =>
    have hmem := mem_entries_iff.2 hget
    cases hp : p k v with
    | true =>
      have : (k, v) ∈ (m.filter p).entries := List.mem_filter.2 ⟨hmem, hp⟩
      rw [mem_entries_iff.1 this, Option.filter_some_pos hp]
    | false =>
      rw [Option.filter_some_neg (by simp [hp])]
      cases hfilter : (m.filter p).get? k with
      | none => rfl
      | some w =>
        obtain ⟨hw, hpw⟩ := List.mem_filter.1 (mem_entries_iff.2 hfilter)
        rw [mem_entries_iff.1 hw] at hget
        cases hget
        rw [hp] at hpw
        cases hpw

theorem get?_drop_eq_none {n : Nat} (h : (k, v) ∈ m.entries.take n) : (m.drop n).get? k = none := by
  cases hdrop : (m.drop n).get? k with
  | none => rfl
  | some w =>
    have hlt := m.sorted
    rw [← List.take_append_drop n m.entries, List.pairwise_append] at hlt
    exact absurd (hlt.2.2 _ h _ (mem_entries_iff.2 hdrop)) (lt_irrefl k)

theorem get?_drop (n : Nat) (m : BTreeMap κ ν) (k : κ) :
    (m.drop n).get? k = m.get? k ∨ (m.drop n).get? k = none := by
  cases hdrop : (m.drop n).get? k with
  | none => exact .inr rfl
  | some v => exact .inl (mem_entries_iff.1 (List.mem_of_mem_drop (mem_entries_iff.2 hdrop))).symm

theorem get?_foldl_insert (k : κ) : ∀ {l : List (κ × ν)} (m : BTreeMap κ ν),
    (l.Pairwise fun p q => p.1 < q.1) →
    (l.foldl (fun m e => m.insert e.1 e.2) m).get? k = (lookup k l).or (m.get? k)
  | [], _, _ => rfl
  | e :: l, m, h => by
    obtain ⟨he, hl⟩ := List.pairwise_cons.1 h
    rw [List.foldl_cons, get?_foldl_insert k _ hl, get?_insert, lookup]
    by_cases hk : k = e.1
    · have hnone : lookup k l = none := lookup_eq_none fun q hq => hk ▸ (he q hq).ne
      rw [if_pos hk, if_pos hk, hnone, Option.none_or, Option.some_or]
    · rw [if_neg hk, if_neg hk]

theorem mem_values_iff : v ∈ m.values ↔ ∃ k, m.get? k = some v := by
  constructor
  · intro h
    obtain ⟨e, he, rfl⟩ := List.mem_map.1 h
    exact ⟨e.1, mem_entries_iff.1 he⟩
  · intro h
    obtain ⟨k, hk⟩ := h
    exact List.mem_map.2 ⟨(k, v), mem_entries_iff.2 hk, rfl⟩

/-! ## The values after a change -/

theorem values_insert (m : BTreeMap κ ν) (v : ν) (h : m.get? k = none) :
    (m.insert k v).values.Perm (v :: m.values) := by
  have hnew : (k, v) ∉ m.entries := by
    intro hmem
    rw [mem_entries_iff.1 hmem] at h
    cases h
  have hperm : (m.insert k v).entries.Perm ((k, v) :: m.entries) := by
    refine (List.perm_ext_iff_of_nodup (nodup_entries _)
      (List.nodup_cons.2 ⟨hnew, m.nodup_entries⟩)).2 fun e => ?_
    rw [List.mem_cons, mem_entries_iff (k := e.1) (v := e.2), get?_insert, Prod.ext_iff]
    by_cases hk : e.1 = k
    · rw [if_pos hk, Option.some_inj, mem_entries_iff (k := e.1) (v := e.2), hk, h]
      simp [eq_comm]
    · rw [if_neg hk, mem_entries_iff (k := e.1) (v := e.2)]
      simp [hk]
  exact hperm.map Prod.snd

theorem erase_of_none (h : m.get? k = none) : m.erase k = m := by
  refine ext_get? fun j => ?_
  rw [get?_erase]
  split
  · rename_i hj
    rw [hj, h]
  · rfl

theorem insert_insert (m : BTreeMap κ ν) (k : κ) (v w : ν) : (m.insert k v).insert k w = m.insert k w := by
  refine ext_get? fun j => ?_
  rw [get?_insert, get?_insert, get?_insert]
  split <;> rfl

theorem insert_of_get? (h : m.get? k = some v) :
    m.insert k v = m := by
  refine ext_get? fun j => ?_
  rw [get?_insert]
  split
  · rename_i hj
    rw [hj, h]
  · rfl

theorem values_erase (h : m.get? k = some v) :
    m.values.Perm (v :: (m.erase k).values) := by
  have hback : (m.erase k).insert k v = m := by
    refine ext_get? fun j => ?_
    rw [get?_insert, get?_erase]
    split
    · rename_i hj
      rw [hj, h]
    · rfl
  have hnone : (m.erase k).get? k = none := (get?_erase m k k).trans (if_pos rfl)
  have hperm := values_insert (m.erase k) v hnone
  rwa [hback] at hperm

theorem values_filter (p : κ → ν → Bool) (m : BTreeMap κ ν) :
    ((m.filter p).values ++ (m.filter fun k v => !p k v).values).Perm m.values := by
  unfold values filter
  rw [← List.map_append]
  exact (List.filter_append_perm (fun e => p e.1 e.2) m.entries).map Prod.snd

theorem values_foldl_insert : ∀ {l : List (κ × ν)} (m : BTreeMap κ ν),
    (l.Pairwise fun p q => p.1 < q.1) → (∀ e ∈ l, m.get? e.1 = none) →
    (l.foldl (fun m e => m.insert e.1 e.2) m).values.Perm (l.map Prod.snd ++ m.values)
  | [], _, _, _ => .refl _
  | e :: l, m, h, hnew => by
    obtain ⟨he, hl⟩ := List.pairwise_cons.1 h
    have hnext : ∀ q ∈ l, (m.insert e.1 e.2).get? q.1 = none := by
      intro q hq
      rw [get?_insert_of_ne _ _ (he q hq).ne']
      exact hnew q (List.mem_cons_of_mem e hq)
    have hfirst := values_insert m e.2 (hnew e List.mem_cons_self)
    refine (values_foldl_insert (m.insert e.1 e.2) hl hnext).trans ?_
    exact (hfirst.append_left _).trans List.perm_middle

theorem mem_keys_iff : k ∈ m.keys ↔ (m.get? k).isSome = true := by
  rw [Option.isSome_iff_exists]
  constructor
  · intro h
    obtain ⟨e, he, rfl⟩ := List.mem_map.1 h
    exact ⟨e.2, mem_entries_iff.1 he⟩
  · intro h
    obtain ⟨v, hv⟩ := h
    exact List.mem_map.2 ⟨(k, v), mem_entries_iff.2 hv, rfl⟩

/-! ## Several insertions -/

def insertAll (m : BTreeMap κ ν) (l : List (κ × ν)) : BTreeMap κ ν :=
  l.foldl (fun m e => m.insert e.1 e.2) m

def lastEntry (k : κ) : List (κ × ν) → Option ν
  | [] => none
  | e :: l => (lastEntry k l).or (if k = e.1 then some e.2 else none)

theorem get?_insertAll (k : κ) : ∀ (l : List (κ × ν)) (m : BTreeMap κ ν),
    (m.insertAll l).get? k = (lastEntry k l).or (m.get? k)
  | [], m => rfl
  | e :: l, m => by
    show ((m.insert e.1 e.2).insertAll l).get? k = _
    rw [get?_insertAll k l, get?_insert, lastEntry, Option.or_assoc]
    congr 1
    split <;> rfl

end BTreeMap

/-! ## Ordered sets of elements that are compared by a function -/

section InsertBy

variable {α : Type}

/-- Insertion into a set ordered by `cmp`: dropped if it compares equal to a member. -/
def insertBy (cmp : α → α → Ordering) (x : α) : List α → List α
  | [] => [x]
  | y :: l => match cmp x y with
    | .lt => x :: y :: l
    | .eq => y :: l
    | .gt => y :: insertBy cmp x l

variable {cmp : α → α → Ordering} {x y : α}

theorem mem_insertBy : ∀ {l : List α}, y ∈ insertBy cmp x l → y = x ∨ y ∈ l
  | [], h => by simpa [insertBy] using h
  | z :: l, h => by
    unfold insertBy at h
    split at h
    · simpa using h
    · exact .inr h
    · rcases List.mem_cons.1 h with rfl | h
      · exact .inr List.mem_cons_self
      · exact (mem_insertBy h).imp_right (List.mem_cons_of_mem _)

theorem mem_insertBy_of_mem : ∀ {l : List α}, y ∈ l → y ∈ insertBy cmp x l
  | z :: l, h => by
    unfold insertBy
    split
    · exact List.mem_cons_of_mem _ h
    · exact h
    · rcases List.mem_cons.1 h with rfl | h
      · exact List.mem_cons_self
      · exact List.mem_cons_of_mem _ (mem_insertBy_of_mem h)

theorem exists_mem_insertBy [Std.ReflCmp cmp] (x : α) :
    ∀ l : List α, ∃ z ∈ insertBy cmp x l, cmp x z = .eq
  | [] => ⟨x, List.mem_singleton.2 rfl, Std.ReflCmp.compare_self⟩
  | y :: l => by
    unfold insertBy
    split
    · exact ⟨x, List.mem_cons_self, Std.ReflCmp.compare_self⟩
    · rename_i h
      exact ⟨y, List.mem_cons_self, h⟩
    · obtain ⟨z, hz, hxz⟩ := exists_mem_insertBy x l
      exact ⟨z, List.mem_cons_of_mem _ hz, hxz⟩

theorem sorted_insertBy [Std.TransCmp cmp] :
    ∀ {l : List α}, (l.Pairwise fun y z => cmp y z = .lt) →
      (insertBy cmp x l).Pairwise fun y z => cmp y z = .lt
  | [], _ => List.pairwise_singleton _ _
  | y :: l, h => by
    obtain ⟨hy, hl⟩ := List.pairwise_cons.1 h
    unfold insertBy
    split
    · rename_i hxy
      refine List.pairwise_cons.2 ⟨fun z hz => ?_, h⟩
      rcases List.mem_cons.1 hz with rfl | hz
      · exact hxy
      · exact Std.TransCmp.lt_trans hxy (hy z hz)
    · exact h
    · rename_i hxy
      refine List.pairwise_cons.2 ⟨fun z hz => ?_, sorted_insertBy hl⟩
      rcases mem_insertBy hz with rfl | hz
      · exact Std.OrientedCmp.lt_of_gt hxy
      · exact hy z hz

theorem insertBy_of_mem [Std.TransCmp cmp] {z : α} (hxz : cmp x z = .eq) :
    ∀ {l : List α}, (l.Pairwise fun y z => cmp y z = .lt) → z ∈ l → insertBy cmp x l = l
  | y :: l, h, hz => by
    obtain ⟨hy, hl⟩ := List.pairwise_cons.1 h
    rcases List.mem_cons.1 hz with rfl | hz
    · simp only [insertBy, hxz]
    · have hgt : cmp x y = .gt := by
        rw [Std.TransCmp.congr_left hxz]
        exact Std.OrientedCmp.gt_of_lt (hy z hz)
      simp only [insertBy, hgt, insertBy_of_mem hxz hl hz]

theorem insertBy_perm : ∀ {l : List α}, (∀ z ∈ l, cmp x z ≠ .eq) → (insertBy cmp x l).Perm (x :: l)
  | [], _ => .refl _
  | y :: l, h => by
    unfold insertBy
    split
    · exact .refl _
    · rename_i heq
      exact absurd heq (h y List.mem_cons_self)
    · have ih := insertBy_perm fun z hz => h z (List.mem_cons_of_mem y hz)
      exact (ih.cons y).trans (.swap x y l)

theorem mem_insertBy_iff [Std.TransCmp cmp] {l : List α}
    (h : l.Pairwise fun y z => cmp y z = .lt) :
    y ∈ insertBy cmp x l ↔ y ∈ l ∨ (y = x ∧ ∀ z ∈ l, cmp x z ≠ .eq) := by
  by_cases hex : ∃ z ∈ l, cmp x z = .eq
  · obtain ⟨z, hz, hxz⟩ := hex
    rw [insertBy_of_mem hxz h hz]
    exact ⟨.inl, fun hy => hy.elim id fun hn => absurd hxz (hn.2 z hz)⟩
  · have hfree : ∀ z ∈ l, cmp x z ≠ .eq := fun z hz hxz => hex ⟨z, hz, hxz⟩
    constructor
    · intro hy
      exact (mem_insertBy hy).symm.imp_right fun he => ⟨he, hfree⟩
    · intro hy
      rcases hy with hy | ⟨rfl, -⟩
      · exact mem_insertBy_of_mem hy
      · obtain ⟨z, hz, hyz⟩ : ∃ z ∈ insertBy cmp y l, cmp y z = .eq := exists_mem_insertBy y l
        rcases mem_insertBy hz with rfl | hmem
        · exact hz
        · exact absurd hyz (hfree z hmem)

/-- **Membership after a list of insertions**: the first of the elements that compare equal. -/
theorem mem_foldl_insertBy_iff [Std.TransCmp cmp] : ∀ {l set : List α},
    (set.Pairwise fun y z => cmp y z = .lt) →
    (y ∈ l.foldl (fun set x => insertBy cmp x set) set ↔
      y ∈ set ∨ ((∀ z ∈ set, cmp y z ≠ .eq) ∧ l.find? (fun x => cmp y x = .eq) = some y))
  | [], set, _ => by simp
  | x :: l, set, h => by
    rw [List.foldl_cons, mem_foldl_insertBy_iff (sorted_insertBy h), mem_insertBy_iff h]
    by_cases hyx : cmp y x = .eq
    · -- `x` or a member that is equal to it keeps all later ones out
      have hnot : ¬ ∀ z ∈ insertBy cmp x set, cmp y z ≠ .eq := by
        intro hn
        obtain ⟨z, hz, hxz⟩ : ∃ z ∈ insertBy cmp x set, cmp x z = .eq := exists_mem_insertBy x set
        exact hn z hz (Std.TransCmp.eq_trans hyx hxz)
      simp only [List.find?_cons, hyx, decide_true, Option.some.injEq, hnot, false_and, or_false]
      refine or_congr_right ?_
      constructor
      · intro hy
        obtain ⟨rfl, hfree⟩ := hy
        exact ⟨hfree, rfl⟩
      · intro hy
        obtain ⟨hfree, rfl⟩ := hy
        exact ⟨rfl, hfree⟩
    · have hne : y ≠ x := by
        intro he
        rw [he] at hyx
        exact hyx Std.ReflCmp.compare_self
      have hall : (∀ z ∈ insertBy cmp x set, cmp y z ≠ .eq) ↔ ∀ z ∈ set, cmp y z ≠ .eq := by
        constructor
        · intro hn z hz
          exact hn z (mem_insertBy_of_mem hz)
        · intro hn z hz
          rcases mem_insertBy hz with rfl | hz
          · exact hyx
          · exact hn z hz
      simp [hyx, hne, hall]

end InsertBy

end Lib
