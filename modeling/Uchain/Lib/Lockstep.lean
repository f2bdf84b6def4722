import Uchain.Lib.Exec

/-!
# Two runs in lockstep

`Exec.Lockstep R x`: from two states that are related by `R`, the runs of `x` end the same way, make
the same queries and leave related states. A computation reads only a part of its state; if `R` says
that the states agree on that part, the rest may differ.
-/

namespace Lib.Exec

variable {ε ι σ α β : Type}

def Lockstep (R : σ → σ → Prop) (x : Exec ε ι σ α) : Prop :=
  ∀ s t, R s t → (x s).res = (x t).res ∧ (x s).log = (x t).log ∧ R (x s).state (x t).state

variable {R : σ → σ → Prop} {x y : Exec ε ι σ α} {f : α → Exec ε ι σ β}

theorem lockstep_pure (a : α) : Lockstep R (Pure.pure a : Exec ε ι σ α) :=
  fun _ _ h => ⟨rfl, rfl, h⟩

theorem lockstep_fail (e : Fail ε) : Lockstep R (fail e : Exec ε ι σ α) :=
  fun _ _ h => ⟨rfl, rfl, h⟩

theorem lockstep_modify {g : σ → σ} (hg : ∀ s t, R s t → R (g s) (g t)) :
    Lockstep R (modify g : Exec ε ι σ Unit) :=
  fun s t h => ⟨rfl, rfl, hg s t h⟩

/-- Two first parts that agree on all but their values, and a rest that is the same for both. -/
theorem Lockstep.bind_run {s t s₁ t₁ : σ} {a b : α} {l : List ι} (hx : x s = ⟨.ok a, s₁, l⟩)
    (hy : x t = ⟨.ok b, t₁, l⟩) (hf : f a = f b) (hrel : R s₁ t₁) (h : Lockstep R (f a)) :
    ((x >>= f) s).res = ((x >>= f) t).res ∧ ((x >>= f) s).log = ((x >>= f) t).log ∧
      R ((x >>= f) s).state ((x >>= f) t).state := by
  obtain ⟨hres, hlog, hstate⟩ := h s₁ t₁ hrel
  rw [bind_ok hx, bind_ok hy, ← hf]
  exact ⟨hres, by rw [hlog], hstate⟩

theorem Lockstep.then_run {s t s₁ t₁ : σ} {a b : α} {l : List ι} {z : Exec ε ι σ β}
    (hx : x s = ⟨.ok a, s₁, l⟩) (hy : x t = ⟨.ok b, t₁, l⟩) (hrel : R s₁ t₁) (h : Lockstep R z) :
    ((x >>= fun _ => z) s).res = ((x >>= fun _ => z) t).res ∧
      ((x >>= fun _ => z) s).log = ((x >>= fun _ => z) t).log ∧
      R ((x >>= fun _ => z) s).state ((x >>= fun _ => z) t).state :=
  Lockstep.bind_run hx hy rfl hrel h

theorem lockstep_bind_of (hx : Lockstep R x) (hf : ∀ s a, (x s).res = .ok a → Lockstep R (f a)) :
    Lockstep R (x >>= f) := by
  intro s t h
  obtain ⟨hres, hlog, hstate⟩ := hx s t h
  rcases hs : x s with ⟨e | a, s₁, l⟩
  · rw [hs] at hres hlog hstate
    have ht : x t = ⟨.error e, (x t).state, l⟩ := by
      rw [Run.eq_of_res hres.symm]
      exact congrArg _ hlog.symm
    rw [bind_error hs, bind_error ht]
    exact ⟨rfl, rfl, hstate⟩
  · rw [hs] at hres hlog hstate
    have ht : x t = ⟨.ok a, (x t).state, l⟩ := by
      rw [Run.eq_of_res hres.symm]
      exact congrArg _ hlog.symm
    exact Lockstep.bind_run hs ht rfl hstate (hf s a (by rw [hs]))

theorem lockstep_bind (hx : Lockstep R x) (hf : ∀ a, Lockstep R (f a)) : Lockstep R (x >>= f) :=
  lockstep_bind_of hx fun _ a _ => hf a

/-- A read of the state, and a rest that is the same for related states. -/
theorem lockstep_get_bind {f : σ → Exec ε ι σ β} (heq : ∀ s t, R s t → f s = f t)
    (hf : ∀ s, Lockstep R (f s)) : Lockstep R (get >>= f : Exec ε ι σ β) := by
  intro s t h
  have hs : (get : Exec ε ι σ σ) s = ⟨.ok s, s, []⟩ := rfl
  have ht : (get : Exec ε ι σ σ) t = ⟨.ok t, t, []⟩ := rfl
  exact Lockstep.bind_run hs ht (heq s t h) h (hf s)

theorem lockstep_ite {c : Prop} [Decidable c] (hx : Lockstep R x) (hy : Lockstep R y) :
    Lockstep R (if c then x else y) := by
  split
  · exact hx
  · exact hy

theorem lockstep_ofOption (e : ε) (o : Option α) : Lockstep R (ofOption e o : Exec ε ι σ α) := by
  cases o with
  | none => exact lockstep_fail _
  | some a => exact lockstep_pure a

theorem lockstep_orPanic (o : Option α) : Lockstep R (orPanic o : Exec ε ι σ α) := by
  cases o with
  | none => exact lockstep_fail _
  | some a => exact lockstep_pure a

theorem lockstep_forEach {g : α → Exec ε ι σ Unit} {l : List α} (hg : ∀ a ∈ l, Lockstep R (g a)) :
    Lockstep R (forEach g l) := by
  induction l with
  | nil => exact lockstep_pure ()
  | cons a l ih =>
    exact lockstep_bind (hg a List.mem_cons_self) fun _ =>
      ih fun b hb => hg b (List.mem_cons_of_mem _ hb)

end Lib.Exec
