import Mathlib.Data.List.Nodup
import Mathlib.Data.List.Perm.Subperm
import Mathlib.Data.Nat.Find

/-!
# Following a pointer until it ends

`next a` is where the pointer of `a` leads, if it leads anywhere. A loop that follows it has no
counter of its own; `endsIn` gives it one. A walk that takes more steps than there are pointers goes
round in a circle.
-/

namespace Lib.Chain

variable {α : Type} {next : α → Option α} {a b : α}

variable (next) in
inductive Ends : α → Prop
  | stop {a : α} : next a = none → Ends a
  | step {a b : α} : next a = some b → Ends b → Ends a

variable (next) in
def endsIn : Nat → α → Bool
  | 0, a => (next a).isNone
  | n + 1, a => match next a with
    | none => true
    | some b => endsIn n b

theorem endsIn_succ_of_some (h : next a = some b) (n : Nat) :
    endsIn next (n + 1) a = endsIn next n b := by
  rw [endsIn, h]

theorem endsIn_of_none (h : next a = none) (n : Nat) : endsIn next n a = true := by
  cases n <;> simp [endsIn, h]

theorem endsIn_mono {m n : Nat} (hmn : m ≤ n) (h : endsIn next m a = true) :
    endsIn next n a = true := by
  induction m generalizing n a with
  | zero => exact endsIn_of_none (Option.isNone_iff_eq_none.1 h) n
  | succ m ih =>
    cases n with
    | zero => omega
    | succ n =>
      cases hnext : next a with
      | none => exact endsIn_of_none hnext _
      | some b =>
        rw [endsIn_succ_of_some hnext] at h ⊢
        exact ih (by omega) h

theorem Ends.exists_endsIn (h : Ends next a) : ∃ n, endsIn next n a = true := by
  induction h with
  | stop h => exact ⟨0, endsIn_of_none h 0⟩
  | step h _ ih =>
    obtain ⟨n, hn⟩ := ih
    exact ⟨n + 1, by rw [endsIn_succ_of_some h, hn]⟩

theorem ends_of_endsIn {n : Nat} (h : endsIn next n a = true) : Ends next a := by
  induction n generalizing a with
  | zero => exact .stop (Option.isNone_iff_eq_none.1 h)
  | succ n ih =>
    cases hnext : next a with
    | none => exact .stop hnext
    | some b =>
      rw [endsIn_succ_of_some hnext] at h
      exact .step hnext (ih h)

theorem not_ends_of_circle (hab : next a = some b) (hba : next b = some a) : ¬ Ends next a := by
  suffices h : ∀ x, Ends next x → x ≠ a ∧ x ≠ b from fun ha => (h a ha).1 rfl
  intro x hx
  induction hx with
  | stop h =>
    constructor
    · rintro rfl
      cases h.symm.trans hab
    · rintro rfl
      cases h.symm.trans hba
  | step h _ ih =>
    constructor
    · rintro rfl
      exact ih.2 (Option.some.inj (h.symm.trans hab))
    · rintro rfl
      exact ih.1 (Option.some.inj (h.symm.trans hba))

/-- A walk of one pointer function is a walk of another that agrees with it on the way. -/
theorem Ends.congr {next' : α → Option α} {P : α → Prop} (hnext : ∀ x, P x → next' x = next x)
    (hstep : ∀ x y, P x → next x = some y → P y) (h : Ends next a) (ha : P a) : Ends next' a := by
  induction h with
  | stop h => exact .stop (by rw [hnext _ ha, h])
  | step h _ ih => exact .step (by rw [hnext _ ha, h]) (ih (hstep _ _ ha h))

/-- The places on a walk of `n + 1` steps at least are all different. -/
theorem exists_walk {n : Nat} (h : endsIn next (n + 1) a = true) (hn : endsIn next n a = false) :
    ∃ l : List α, l.length = n + 1 ∧ l.Nodup ∧ (∀ x ∈ l, (next x).isSome) ∧
      ∀ x ∈ l, endsIn next (n + 1) x = true := by
  induction n generalizing a with
  | zero =>
    refine ⟨[a], rfl, List.nodup_singleton a, fun x hx => ?_, fun x hx => ?_⟩
    · rw [List.mem_singleton.1 hx]
      simpa [endsIn, Option.isSome_iff_ne_none] using hn
    · rwa [List.mem_singleton.1 hx]
  | succ n ih =>
    cases hnext : next a with
    | none =>
      rw [endsIn_of_none hnext] at hn
      cases hn
    | some b =>
      have hb : endsIn next (n + 1) b = true := by rwa [endsIn_succ_of_some hnext] at h
      have hb' : endsIn next n b = false := by rwa [endsIn_succ_of_some hnext] at hn
      obtain ⟨l, hlen, hnodup, hsome, hends⟩ := ih hb hb'
      refine ⟨a :: l, by rw [List.length_cons, hlen], List.nodup_cons.2 ⟨fun ha => ?_, hnodup⟩,
        fun x hx => ?_, fun x hx => ?_⟩
      · -- from `a` the walk takes one more step than from any place behind it
        rw [hends a ha] at hn
        cases hn
      · rcases List.mem_cons.1 hx with rfl | hx
        · rw [hnext]
          rfl
        · exact hsome x hx
      · rcases List.mem_cons.1 hx with rfl | hx
        · exact h
        · exact endsIn_mono (Nat.le_succ _) (hends x hx)

/-- **A walk ends within as many steps as there are places with a pointer, or never.** -/
theorem endsIn_iff_ends {l : List α} (hl : ∀ x, (next x).isSome → x ∈ l) :
    endsIn next l.length a = true ↔ Ends next a := by
  refine ⟨ends_of_endsIn, fun h => ?_⟩
  by_contra hne
  -- the first number of steps that is enough
  classical
  have hex := h.exists_endsIn
  have hfind := Nat.find_spec hex
  have hlt : l.length < Nat.find hex := by
    by_contra hle
    exact hne (endsIn_mono (not_lt.1 hle) hfind)
  obtain ⟨n, hn⟩ : ∃ n, Nat.find hex = n + 1 := Nat.exists_eq_succ_of_ne_zero (by omega)
  have hbefore : endsIn next n a = false := by
    have := Nat.find_min hex (m := n) (by omega)
    simpa using this
  rw [hn] at hfind
  obtain ⟨walk, hlen, hnodup, hsome, -⟩ := exists_walk hfind hbefore
  have hsub : walk ⊆ l := fun x hx => hl x (hsome x hx)
  have := (hnodup.subperm hsub).length_le
  omega

end Lib.Chain
