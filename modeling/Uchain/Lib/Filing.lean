import Mathlib.Data.List.Nodup
import Mathlib.Logic.Function.Basic

/-!
# Two drawers and a lookup

Items of `τ` are filed in two drawers, each by the `slot` of the item, and listed in a lookup by
their `hash`. `Shelving out p q`: every item is in its own slot of one of the drawers, or one of the items
`out` that are in neither drawer at the moment, and no slot is taken twice. `Covers out p q all`: the lookup
has no other items. `Indexes out p q all`: it has all of them.

An operation on such a store is a sequence of moves: items are taken out of a drawer (`take`), an
item that is out is placed (`place`) or leaves the lookup (`forget`), and a new item enters the
lookup (`enter`). Each keeps the invariants with the items that are out then.
-/

namespace Lib

open Function

variable {τ κ η : Type}

/-! ## The drawers -/

structure Shelving (slot : τ → κ) (out : List τ) (p q : κ → Option τ) : Prop where
  slot_fst : ∀ k t, p k = some t → slot t = k
  slot_snd : ∀ k t, q k = some t → slot t = k
  apart : ∀ k, p k = none ∨ q k = none
  free : ∀ t ∈ out, p (slot t) = none ∧ q (slot t) = none
  nodup : (out.map slot).Nodup

namespace Shelving

variable {slot : τ → κ} {out : List τ} {p q : κ → Option τ} {t : τ}

theorem empty : Shelving slot [] (fun _ => none) (fun _ => none) where
  slot_fst := by simp
  slot_snd := by simp
  apart := by simp
  free := by simp
  nodup := List.nodup_nil

theorem swap (hS : Shelving slot out p q) : Shelving slot out q p where
  slot_fst := hS.slot_snd
  slot_snd := hS.slot_fst
  apart k := (hS.apart k).symm
  free t ht := (hS.free t ht).symm
  nodup := hS.nodup

theorem perm (hS : Shelving slot out p q) {out' : List τ} (h : out.Perm out') :
    Shelving slot out' p q where
  slot_fst := hS.slot_fst
  slot_snd := hS.slot_snd
  apart := hS.apart
  free t ht := hS.free t (h.mem_iff.2 ht)
  nodup := (h.map slot).nodup_iff.1 hS.nodup

theorem sublist (hS : Shelving slot out p q) {out' : List τ} (h : out'.Sublist out) :
    Shelving slot out' p q where
  slot_fst := hS.slot_fst
  slot_snd := hS.slot_snd
  apart := hS.apart
  free t ht := hS.free t (h.subset ht)
  nodup := hS.nodup.sublist (h.map slot)

theorem shrink {p' : κ → Option τ} (hS : Shelving slot out p q)
    (hsub : ∀ k, p' k = p k ∨ p' k = none) : Shelving slot out p' q where
  slot_fst k t hk := by
    cases hsub k with
    | inl h => exact hS.slot_fst k t (h ▸ hk)
    | inr h => rw [h] at hk; cases hk
  slot_snd := hS.slot_snd
  apart k := (hS.apart k).imp_left fun h => (hsub k).elim (·.trans h) id
  free t ht := ⟨(hsub (slot t)).elim (·.trans (hS.free t ht).1) id, (hS.free t ht).2⟩
  nodup := hS.nodup

theorem take {p' : κ → Option τ} {ts : List τ} (hS : Shelving slot out p q)
    (hsub : ∀ k, p' k = p k ∨ p' k = none)
    (hts : ∀ t ∈ ts, p (slot t) = some t ∧ p' (slot t) = none)
    (hnodup : (ts.map slot).Nodup) : Shelving slot (ts ++ out) p' q where
  slot_fst := (hS.shrink hsub).slot_fst
  slot_snd := hS.slot_snd
  apart := (hS.shrink hsub).apart
  free t ht := by
    cases List.mem_append.1 ht with
    | inl ht =>
      obtain ⟨hp, hp'⟩ := hts t ht
      refine ⟨hp', (hS.apart (slot t)).resolve_left ?_⟩
      rw [hp]
      exact Option.some_ne_none t
    | inr ht => exact (hS.shrink hsub).free t ht
  nodup := by
    rw [List.map_append]
    refine List.nodup_append.2 ⟨hnodup, hS.nodup, ?_⟩
    intro k hk k' hk' heq
    obtain ⟨t, ht, rfl⟩ := List.mem_map.1 hk
    obtain ⟨t', ht', rfl⟩ := List.mem_map.1 hk'
    have hp := (hts t ht).1
    rw [heq, (hS.free t' ht').1] at hp
    cases hp

theorem not_mem_out (hS : Shelving slot (t :: out) p q) : ∀ t' ∈ out, slot t' ≠ slot t := by
  have hnodup := List.nodup_cons.1 (List.map_cons (f := slot) ▸ hS.nodup)
  intro t' ht' heq
  exact hnodup.1 (heq ▸ List.mem_map_of_mem ht')

theorem enter (hS : Shelving slot out p q) (hp : p (slot t) = none) (hq : q (slot t) = none)
    (hout : ∀ t' ∈ out, slot t' ≠ slot t) : Shelving slot (t :: out) p q where
  slot_fst := hS.slot_fst
  slot_snd := hS.slot_snd
  apart := hS.apart
  free := List.forall_mem_cons.2 ⟨⟨hp, hq⟩, hS.free⟩
  nodup := by
    refine List.nodup_cons.2 ⟨fun hmem => ?_, hS.nodup⟩
    obtain ⟨t', ht', heq⟩ := List.mem_map.1 hmem
    exact hout t' ht' heq

variable [DecidableEq κ]

theorem put (hS : Shelving slot out p q) (hq : q (slot t) = none)
    (hout : ∀ t' ∈ out, slot t' ≠ slot t) :
    Shelving slot out (update p (slot t) (some t)) q where
  slot_fst k t' hk := by
    by_cases h : k = slot t
    · rw [h, update_self] at hk
      rw [h, Option.some.inj hk]
    · rw [update_of_ne h] at hk
      exact hS.slot_fst k t' hk
  slot_snd := hS.slot_snd
  apart k := by
    by_cases h : k = slot t
    · exact .inr (h ▸ hq)
    · rw [update_of_ne h]
      exact hS.apart k
  free t' ht' := by
    rw [update_of_ne (hout t' ht')]
    exact hS.free t' ht'
  nodup := hS.nodup

theorem place (hS : Shelving slot (t :: out) p q) :
    Shelving slot out (update p (slot t) (some t)) q :=
  (hS.sublist (List.sublist_cons_self t out)).put (hS.free t List.mem_cons_self).2 hS.not_mem_out

end Shelving

/-! ## What the lookup has -/

def Covers (slot : τ → κ) (hash : τ → η) (out : List τ) (p q : κ → Option τ)
    (all : η → Option τ) : Prop :=
  ∀ h t, all h = some t → hash t = h ∧ (p (slot t) = some t ∨ q (slot t) = some t ∨ t ∈ out)

namespace Covers

variable {slot : τ → κ} {hash : τ → η} {out : List τ} {p q : κ → Option τ} {all : η → Option τ}
  {t : τ}

theorem empty : Covers slot hash [] (fun _ => none) (fun _ => none) (fun _ => none) := by
  intro h t ht
  cases ht

theorem swap (hC : Covers slot hash out p q all) : Covers slot hash out q p all := by
  intro h t ht
  have := hC h t ht
  tauto

theorem perm (hC : Covers slot hash out p q all) {out' : List τ} (h : out.Perm out') :
    Covers slot hash out' p q all := by
  intro h' t ht
  rw [← h.mem_iff]
  exact hC h' t ht

theorem take {p' : κ → Option τ} {ts : List τ} (hC : Covers slot hash out p q all)
    (hsub : ∀ k, p' k = p k ∨ p' k = none)
    (hts : ∀ t, p (slot t) = some t → p' (slot t) = none → t ∈ ts) :
    Covers slot hash (ts ++ out) p' q all := by
  intro h t ht
  obtain ⟨hhash, hp | hq | hout⟩ := hC h t ht
  · refine ⟨hhash, ?_⟩
    cases hsub (slot t) with
    | inl he => exact .inl (he.trans hp)
    | inr he => exact .inr (.inr (List.mem_append_left _ (hts t hp he)))
  · exact ⟨hhash, .inr (.inl hq)⟩
  · exact ⟨hhash, .inr (.inr (List.mem_append_right _ hout))⟩

theorem place [DecidableEq κ] (hC : Covers slot hash (t :: out) p q all)
    (hp : p (slot t) = none) : Covers slot hash out (update p (slot t) (some t)) q all := by
  intro h t' ht'
  obtain ⟨hhash, hp' | hq | hout⟩ := hC h t' ht'
  · refine ⟨hhash, .inl ?_⟩
    rw [update_of_ne, hp']
    intro heq
    rw [heq, hp] at hp'
    cases hp'
  · exact ⟨hhash, .inr (.inl hq)⟩
  · rcases List.mem_cons.1 hout with rfl | hmem
    · exact ⟨hhash, .inl (update_self _ _ _)⟩
    · exact ⟨hhash, .inr (.inr hmem)⟩

variable [DecidableEq η]

theorem erase (hC : Covers slot hash out p q all) (h : η) :
    Covers slot hash out p q (update all h none) := by
  intro h' t ht
  by_cases hh : h' = h
  · rw [hh, update_self] at ht
    cases ht
  · rw [update_of_ne hh] at ht
    exact hC h' t ht

theorem forget (hC : Covers slot hash (t :: out) p q all) :
    Covers slot hash out p q (update all (hash t) none) := by
  intro h t' ht'
  by_cases hh : h = hash t
  · rw [hh, update_self] at ht'
    cases ht'
  · rw [update_of_ne hh] at ht'
    obtain ⟨hhash, hp | hq | hout⟩ := hC h t' ht'
    · exact ⟨hhash, .inl hp⟩
    · exact ⟨hhash, .inr (.inl hq)⟩
    · refine ⟨hhash, .inr (.inr ((List.mem_cons.1 hout).resolve_left fun heq => hh ?_))⟩
      rw [← hhash, heq]

theorem enter (hC : Covers slot hash out p q all) :
    Covers slot hash (t :: out) p q (update all (hash t) (some t)) := by
  intro h t' ht'
  by_cases hh : h = hash t
  · rw [hh, update_self] at ht'
    rw [← Option.some.inj ht']
    exact ⟨hh.symm, .inr (.inr List.mem_cons_self)⟩
  · rw [update_of_ne hh] at ht'
    exact (hC h t' ht').imp_right (Or.imp_right (Or.imp_right (List.mem_cons_of_mem t)))

end Covers

/-- What the lookup has when an item of a slot, if there is one, gives way to `t`. -/
def exchanged [DecidableEq η] (hash : τ → η) (old : Option τ) (t : τ) (all : η → Option τ) :
    η → Option τ :=
  update (old.elim all fun o => update all (hash o) none) (hash t) (some t)

theorem Covers.replace [DecidableEq κ] [DecidableEq η] {slot : τ → κ} {hash : τ → η} {out : List τ}
    {p q : κ → Option τ} {all : η → Option τ} (hC : Covers slot hash out p q all) (t : τ) :
    Covers slot hash out (update p (slot t) (some t)) q
      (exchanged hash (p (slot t)) t all) := by
  intro h t' ht'
  unfold exchanged at ht'
  by_cases hh : h = hash t
  · rw [hh, update_self] at ht'
    rw [← Option.some.inj ht']
    exact ⟨hh.symm, .inl (update_self _ _ _)⟩
  · rw [update_of_ne hh] at ht'
    -- what was there before, and is not the old item of the slot
    have hall : all h = some t' ∧ ∀ o, p (slot t) = some o → h ≠ hash o := by
      cases ho : p (slot t) with
      | none =>
        rw [ho] at ht'
        exact ⟨ht', by simp⟩
      | some o =>
        rw [ho, Option.elim_some] at ht'
        by_cases hho : h = hash o
        · rw [hho, update_self] at ht'
          cases ht'
        · rw [update_of_ne hho] at ht'
          refine ⟨ht', fun o' ho' => ?_⟩
          rw [← Option.some.inj ho']
          exact hho
    obtain ⟨hhash, hp | hq | hout⟩ := hC h t' hall.1
    · refine ⟨hhash, .inl ?_⟩
      rw [update_of_ne, hp]
      intro heq
      rw [heq] at hp
      exact hall.2 t' hp hhash.symm
    · exact ⟨hhash, .inr (.inl hq)⟩
    · exact ⟨hhash, .inr (.inr hout)⟩

/-! ## What the lookup needs to have -/

/-- Every item of a drawer and every item that is out is in the lookup. -/
def Indexes (slot : τ → κ) (hash : τ → η) (out : List τ) (p q : κ → Option τ)
    (all : η → Option τ) : Prop :=
  ∀ t, p (slot t) = some t ∨ q (slot t) = some t ∨ t ∈ out → all (hash t) = some t

namespace Indexes

variable {slot : τ → κ} {hash : τ → η} {out : List τ} {p q : κ → Option τ} {all : η → Option τ}
  {t : τ}

theorem empty : Indexes slot hash [] (fun _ => none) (fun _ => none) all := by
  rintro t (h | h | h) <;> cases h

theorem swap (hI : Indexes slot hash out p q all) : Indexes slot hash out q p all := by
  intro t ht
  have := hI t
  tauto

theorem perm (hI : Indexes slot hash out p q all) {out' : List τ} (h : out.Perm out') :
    Indexes slot hash out' p q all := fun t ht =>
  hI t (ht.imp_right (Or.imp_right h.mem_iff.2))

theorem take {p' : κ → Option τ} {ts : List τ} (hI : Indexes slot hash out p q all)
    (hsub : ∀ k, p' k = p k ∨ p' k = none) (hts : ∀ t ∈ ts, p (slot t) = some t) :
    Indexes slot hash (ts ++ out) p' q all := by
  rintro t (hp | hq | hout)
  · cases hsub (slot t) with
    | inl h => exact hI t (.inl (h ▸ hp))
    | inr h =>
      rw [h] at hp
      cases hp
  · exact hI t (.inr (.inl hq))
  · rcases List.mem_append.1 hout with h | h
    · exact hI t (.inl (hts t h))
    · exact hI t (.inr (.inr h))

theorem place [DecidableEq κ] (hI : Indexes slot hash (t :: out) p q all) :
    Indexes slot hash out (update p (slot t) (some t)) q all := by
  rintro t' (hp | hq | hout)
  · by_cases hk : slot t' = slot t
    · rw [hk, update_self] at hp
      rw [← Option.some.inj hp]
      exact hI t (.inr (.inr List.mem_cons_self))
    · rw [update_of_ne hk] at hp
      exact hI t' (.inl hp)
  · exact hI t' (.inr (.inl hq))
  · exact hI t' (.inr (.inr (List.mem_cons_of_mem t hout)))

variable [DecidableEq η]

theorem forget (hI : Indexes slot hash (t :: out) p q all) (hS : Shelving slot (t :: out) p q) :
    Indexes slot hash out p q (update all (hash t) none) := by
  intro t' ht'
  have hall := hI t' (ht'.imp_right (Or.imp_right (List.mem_cons_of_mem t)))
  rwa [update_of_ne]
  -- the only item of this hash is `t`, which is nowhere any more
  intro heq
  rw [heq, hI t (.inr (.inr List.mem_cons_self))] at hall
  cases hall
  obtain ⟨hp, hq⟩ := hS.free t List.mem_cons_self
  rw [hp, hq] at ht'
  simp only [reduceCtorEq, false_or] at ht'
  exact hS.not_mem_out t ht' rfl

theorem replace [DecidableEq κ] (hI : Indexes slot hash out p q all) (hS : Shelving slot out p q)
    (hnew : all (hash t) = none) : Indexes slot hash out (update p (slot t) (some t)) q
      (exchanged hash (p (slot t)) t all) := by
  intro t' ht'
  unfold exchanged
  by_cases heq : t' = t
  · rw [heq, update_self]
  -- `t'` is where it was, which is not the slot of `t` in the first drawer
  have hold : (p (slot t') = some t' ∨ q (slot t') = some t' ∨ t' ∈ out) ∧ p (slot t) ≠ some t' := by
    have hslot (h : p (slot t) = some t') : slot t' = slot t := hS.slot_fst _ t' h
    rcases ht' with hp | hq | hout
    · have hk : slot t' ≠ slot t := fun hk => by
        rw [hk, update_self] at hp
        exact heq (Option.some.inj hp).symm
      rw [update_of_ne hk] at hp
      exact ⟨.inl hp, fun h => hk (hslot h)⟩
    · refine ⟨.inr (.inl hq), fun h => ?_⟩
      rcases hS.apart (slot t') with hn | hn
      · rw [← hslot h, hn] at h
        cases h
      · rw [hn] at hq
        cases hq
    · refine ⟨.inr (.inr hout), fun h => ?_⟩
      rw [← hslot h, (hS.free t' hout).1] at h
      cases h
  have hall := hI t' hold.1
  have hne : hash t' ≠ hash t := fun h => by
    rw [h, hnew] at hall
    cases hall
  rw [update_of_ne hne]
  cases ho : p (slot t) with
  | none => exact hall
  | some o =>
    refine (update_of_ne (fun h => hold.2 ?_) _ _).trans hall
    have hget := hI o (.inl (by rw [hS.slot_fst _ o ho, ho]))
    rw [← h, hall] at hget
    rw [ho, Option.some.inj hget]

end Indexes

end Lib
