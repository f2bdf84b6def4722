import Uchain.Lib.Exec

/-!
# Computations that return

`Exec.Returns x s`: the run of `x` from `s` ends with a value or with an error that it returns, and
neither panics nor loops. `Exec.Yields Q x`: every value of `x` satisfies `Q`. `Exec.Preserves P x`:
`x` keeps `P`, however it ends; `Exec.Leads J K x`: it leads from `J` to `K`, both about the history
and the state.
`Exec.Errs E x`: every error that `x` returns is in `E`.
-/

namespace Lib.Exec

variable {ε ι σ α β : Type}

def returned : Except (Fail ε) α → Bool
  | .ok _ => true
  | .error (.err _) => true
  | .error .panic => false
  | .error .diverge => false

abbrev Returns (x : Exec ε ι σ α) (s : σ) : Prop := returned (x s).res = true

variable {x : Exec ε ι σ α} {f : α → Exec ε ι σ β} {s s' : σ}

variable {a : α} {l : List ι} {c : Prop} {y : Exec ε ι σ α}

theorem returns_of_ok (h : x s = ⟨.ok a, s', l⟩) : Returns x s := by
  rw [Returns, h]
  rfl

theorem returns_pure (a : α) : Returns (Pure.pure a : Exec ε ι σ α) s := rfl

theorem returns_ite [Decidable c] (hx : Returns x s)
    (hy : Returns y s) : Returns (if c then x else y) s := by
  split
  · exact hx
  · exact hy

theorem returns_bind_ok (h : x s = ⟨.ok a, s', l⟩) :
    Returns (x >>= f) s ↔ Returns (f a) s' := by
  rw [Returns, Returns, bind_ok h]

theorem returns_bind_error {e : Fail ε} (h : x s = ⟨.error e, s', l⟩) :
    Returns (x >>= f) s ↔ Returns x s := by
  rw [Returns, Returns, bind_error h, h]
  cases e <;> exact Iff.rfl

theorem Returns.of_bind (h : Returns (x >>= f) s) : Returns x s := by
  rcases hx : x s with ⟨e | a, s', l⟩
  · exact (returns_bind_error hx).1 h
  · exact returns_of_ok hx

theorem returns_bind_iff (hf : ∀ a s', Returns (f a) s') : Returns (x >>= f) s ↔ Returns x s := by
  rcases hx : x s with ⟨e | a, s', l⟩
  · exact returns_bind_error hx
  · rw [returns_bind_ok hx]
    exact ⟨fun _ => returns_of_ok hx, fun _ => hf a s'⟩

theorem returned_caught (r : Except (Fail ε) α) : returned (caught r) = returned r := by
  rcases r with (e | _ | _) | a <;> rfl

theorem returns_attempt : Returns (attempt x) s ↔ Returns x s := by
  rw [Returns, Returns, attempt_run, returned_caught]

theorem attempt_ok (h : x s = ⟨.ok a, s', l⟩) :
    attempt x s = ⟨.ok (.ok a), s', l⟩ := by
  rw [attempt_run, h]
  rfl

/-- A computation that ends with a value, panics or diverges. -/
def NoErr (x : Exec ε ι σ α) : Prop := ∀ s e, (x s).res ≠ .error (.err e)

theorem noErr_pure (a : α) : NoErr (Pure.pure a : Exec ε ι σ α) := by
  intro s e h
  cases h

theorem noErr_panic : NoErr (panic : Exec ε ι σ α) := by
  intro s e h
  cases h

theorem noErr_get : NoErr (get : Exec ε ι σ σ) := by
  intro s e h
  cases h

theorem noErr_modify (f : σ → σ) : NoErr (modify f : Exec ε ι σ Unit) := by
  intro s e h
  cases h

theorem noErr_orPanic (o : Option α) : NoErr (orPanic o : Exec ε ι σ α) := by
  cases o with
  | none => exact noErr_panic
  | some a => exact noErr_pure a

theorem noErr_attempt (x : Exec ε ι σ α) : NoErr (attempt x) := by
  intro s e h
  rw [attempt_run] at h
  rcases hres : (x s).res with (e' | _ | _) | a <;> rw [hres] at h <;> cases h

theorem noErr_bind (hx : NoErr x) (hf : ∀ a, NoErr (f a)) : NoErr (x >>= f) := by
  intro s e h
  rcases hrun : x s with ⟨e' | a, s₁, l₁⟩
  · rw [bind_error hrun] at h
    refine hx s e ?_
    rw [hrun]
    exact congrArg Except.error (Except.error.inj h)
  · rw [bind_ok hrun] at h
    exact hf a s₁ e h

theorem noErr_ite [Decidable c] (hx : NoErr x) (hy : NoErr y) :
    NoErr (if c then x else y) := by
  split
  · exact hx
  · exact hy

theorem NoErr.ok_of_returns (hx : NoErr x) (h : Returns x s) :
    ∃ a, x s = ⟨.ok a, (x s).state, (x s).log⟩ := by
  rcases hres : (x s).res with (e | _ | _) | a
  · exact absurd hres (hx s e)
  · rw [Returns, hres] at h
    cases h
  · rw [Returns, hres] at h
    cases h
  · exact ⟨a, Run.eq_of_res hres⟩

def Yields (Q : α → Prop) (x : Exec ε ι σ α) : Prop := ∀ s a, (x s).res = .ok a → Q a

section Yields

variable {P : α → Prop} {Q : β → Prop}

theorem yields_pure {a : α} (h : P a) : Yields P (Pure.pure a : Exec ε ι σ α) := by
  intro s b hb
  cases hb
  exact h

theorem yields_fail (e : Fail ε) : Yields P (fail e : Exec ε ι σ α) := by
  intro s a h
  cases h

theorem yields_bind (hx : Yields P x) (hf : ∀ a, P a → Yields Q (f a)) : Yields Q (x >>= f) := by
  intro s b hb
  rcases hrun : x s with ⟨e | a, s', l⟩
  · rw [bind_error hrun] at hb
    cases hb
  · rw [bind_ok hrun] at hb
    exact hf a (hx s a (by rw [hrun])) s' b hb

theorem yields_ite [Decidable c] (hx : Yields P x)
    (hy : Yields P y) : Yields P (if c then x else y) := by
  split
  · exact hx
  · exact hy

end Yields

/-! ## What a run keeps -/

def Preserves (P : σ → Prop) (x : Exec ε ι σ α) : Prop := ∀ s, P s → P (x s).state

variable {P : σ → Prop}

theorem preserves_pure (a : α) : Preserves P (Pure.pure a : Exec ε ι σ α) := fun _ h => h

theorem preserves_fail (e : Fail ε) : Preserves P (fail e : Exec ε ι σ α) := fun _ h => h

theorem Preserves.of_keeps {γ : Type} {g : σ → γ} {Q : γ → Prop} (h : Keeps g x) :
    Preserves (fun s => Q (g s)) x := by
  intro s hs
  show Q (g (x s).state)
  rw [h s]
  exact hs

theorem preserves_bind (hx : Preserves P x) (hf : ∀ a, Preserves P (f a)) :
    Preserves P (x >>= f) := by
  intro s hs
  have hs' := hx s hs
  rcases hrun : x s with ⟨e | a, s', l⟩
  · rw [hrun] at hs'
    rw [bind_error hrun]
    exact hs'
  · rw [hrun] at hs'
    rw [bind_ok hrun]
    exact hf a s' hs'

theorem preserves_attempt (hx : Preserves P x) : Preserves P (attempt x) := by
  intro s hs
  rw [attempt_run]
  exact hx s hs

theorem preserves_ite [Decidable c] (hx : Preserves P x)
    (hy : Preserves P y) : Preserves P (if c then x else y) := by
  split
  · exact hx
  · exact hy

theorem preserves_forEach {g : α → Exec ε ι σ Unit} (hg : ∀ a, Preserves P (g a)) (l : List α) :
    Preserves P (forEach g l) := by
  induction l with
  | nil => exact preserves_pure ()
  | cons a l ih => exact preserves_bind (hg a) fun _ => ih

/-! ## Computations without effect -/

/-- A computation that changes nothing and has no event. -/
def Quiet (x : Exec ε ι σ α) : Prop := ∀ s, (x s).state = s ∧ (x s).log = []

theorem quiet_pure (a : α) : Quiet (Pure.pure a : Exec ε ι σ α) := fun _ => ⟨rfl, rfl⟩

theorem quiet_fail (e : Fail ε) : Quiet (fail e : Exec ε ι σ α) := fun _ => ⟨rfl, rfl⟩

theorem quiet_orPanic (o : Option α) : Quiet (orPanic o : Exec ε ι σ α) := by
  cases o with
  | none => exact quiet_fail _
  | some a => exact quiet_pure a

theorem quiet_bind (hx : Quiet x) (hf : ∀ a, Quiet (f a)) : Quiet (x >>= f) := by
  intro s
  obtain ⟨hs, hl⟩ := hx s
  rcases hrun : x s with ⟨_ | a, s₁, l₁⟩ <;> rw [hrun] at hs hl
  · rw [bind_error hrun]
    exact ⟨hs, hl⟩
  · obtain ⟨hs', hl'⟩ := hf a s₁
    rw [bind_ok hrun]
    refine ⟨hs'.trans hs, List.append_eq_nil_iff.2 ⟨hl, hl'⟩⟩

theorem quiet_ite [Decidable c] (hx : Quiet x) (hy : Quiet y) :
    Quiet (if c then x else y) := by
  split
  · exact hx
  · exact hy

theorem Quiet.keeps {γ : Type} {f : σ → γ} (hx : Quiet x) : Keeps f x :=
  fun s => congrArg f (hx s).1

/-! ## What a run keeps of its history and its state -/

/-- From `J` to `K`, however `x` ends. -/
def Leads (J K : List ι → σ → Prop) (x : Exec ε ι σ α) : Prop :=
  ∀ h s, J h s → K (h ++ (x s).log) (x s).state

abbrev Maintains (J : List ι → σ → Prop) (x : Exec ε ι σ α) : Prop := Leads J J x

section Leads

variable {J K : List ι → σ → Prop}

theorem Quiet.leads (hx : Quiet x) (hJK : ∀ h s, J h s → K h s) : Leads J K x := by
  intro h s hJ
  obtain ⟨hs, hl⟩ := hx s
  rw [hs, hl, List.append_nil]
  exact hJK h s hJ

theorem Quiet.maintains (hx : Quiet x) : Maintains J x := hx.leads fun _ _ h => h

theorem maintains_pure (a : α) : Maintains J (Pure.pure a : Exec ε ι σ α) := (quiet_pure a).maintains

theorem maintains_fail (e : Fail ε) : Maintains J (fail e : Exec ε ι σ α) := (quiet_fail e).maintains

variable {h : List ι}

theorem bind_maintained (hx : K (h ++ (x s).log) (x s).state) (hf : ∀ a, Maintains K (f a)) :
    K (h ++ ((x >>= f) s).log) ((x >>= f) s).state := by
  rcases hrun : x s with ⟨e | a, s₁, l₁⟩ <;> rw [hrun] at hx
  · rw [bind_error hrun]
    exact hx
  · rw [bind_ok hrun, ← List.append_assoc]
    exact hf a _ s₁ hx

theorem Leads.bind (hx : Leads J K x) (hf : ∀ a, Maintains K (f a)) : Leads J K (x >>= f) :=
  fun h s hJ => bind_maintained (hx h s hJ) hf

theorem maintains_bind (hx : Maintains J x) (hf : ∀ a, Maintains J (f a)) :
    Maintains J (x >>= f) := Leads.bind hx hf

theorem maintains_bind_yields {P : α → Prop} (hx : Maintains J x) (hy : Yields P x)
    (hf : ∀ a, P a → Maintains J (f a)) : Maintains J (x >>= f) := by
  intro h s hJ
  have hx' := hx h s hJ
  rcases hrun : x s with ⟨e | a, s₁, l₁⟩ <;> rw [hrun] at hx'
  · rw [bind_error hrun]
    exact hx'
  · rw [bind_ok hrun, ← List.append_assoc]
    exact hf a (hy s a (by rw [hrun])) _ s₁ hx'

theorem leads_get_bind {f : σ → Exec ε ι σ β} (hf : ∀ s, Leads J K (f s)) :
    Leads J K (Exec.get >>= f) := by
  intro h s hJ
  rw [get_bind]
  exact hf s h s hJ

theorem leads_modify {g : σ → σ} (hg : ∀ h s, J h s → K h (g s)) :
    Leads J K (modify g : Exec ε ι σ Unit) := by
  intro h s hJ
  show K (h ++ []) (g s)
  rw [List.append_nil]
  exact hg h s hJ

theorem leads_ite [Decidable c] (hx : Leads J K x)
    (hy : Leads J K y) : Leads J K (if c then x else y) := by
  split
  · exact hx
  · exact hy

theorem maintains_attempt (hx : Maintains J x) : Maintains J (attempt x) := by
  intro h s hJ
  rw [attempt_run]
  exact hx h s hJ

theorem maintains_forEach {g : α → Exec ε ι σ Unit} (hg : ∀ a, Maintains J (g a)) (l : List α) :
    Maintains J (forEach g l) := by
  induction l with
  | nil => exact maintains_pure ()
  | cons a l ih => exact maintains_bind (hg a) fun _ => ih

/-- The invariant, as long as every event is allowed. -/
def Under (R : Set ι) (P : List ι → σ → Prop) (h : List ι) (s : σ) : Prop := (∀ i ∈ h, i ∈ R) → P h s

theorem Under.before {R : Set ι} {P : List ι → σ → Prop} (hP : Under R P h s)
    (hall : ∀ i ∈ h ++ l, i ∈ R) : P h s := hP fun i hi => hall i (List.mem_append_left _ hi)

/-! ## Values and errors at the end of a run -/

/-- From `J` there is a value, and `J` is kept. -/
def Serves (J : List ι → σ → Prop) (x : Exec ε ι σ α) : Prop :=
  ∀ h s, J h s → ∃ a s' l, x s = ⟨.ok a, s', l⟩ ∧ J (h ++ l) s'

theorem Serves.maintains (hx : Serves J x) : Maintains J x := by
  intro h s hJ
  obtain ⟨a, s', l, hrun, hJ'⟩ := hx h s hJ
  rw [hrun]
  exact hJ'

theorem serves_pure (a : α) : Serves J (Pure.pure a : Exec ε ι σ α) := fun h s hJ =>
  ⟨a, s, [], rfl, by rwa [List.append_nil]⟩

theorem serves_bind (hx : Serves J x) (hf : ∀ a, Serves J (f a)) : Serves J (x >>= f) := by
  intro h s hJ
  obtain ⟨a, s₁, l₁, hrun, hJ₁⟩ := hx h s hJ
  obtain ⟨b, s₂, l₂, hrun', hJ₂⟩ := hf a _ s₁ hJ₁
  exact ⟨b, s₂, l₁ ++ l₂, bind_of_run hrun hrun', by rwa [← List.append_assoc]⟩

theorem serves_forEach {g : α → Exec ε ι σ Unit} (hg : ∀ a, Serves J (g a)) (l : List α) :
    Serves J (forEach g l) := by
  induction l with
  | nil => exact serves_pure ()
  | cons a l ih => exact serves_bind (hg a) fun _ => ih

/-- No error is returned, and `J` holds at the end. -/
def Proceeds (J : List ι → σ → Prop) (x : Exec ε ι σ α) (h : List ι) (s : σ) : Prop :=
  (∀ e, (x s).res ≠ .error (.err e)) ∧ J (h ++ (x s).log) (x s).state

theorem Serves.proceeds (hx : Serves J x) (hJ : J h s) : Proceeds J x h s := by
  obtain ⟨a, s', l, hrun, hJ'⟩ := hx h s hJ
  unfold Proceeds
  rw [hrun]
  exact ⟨nofun, hJ'⟩

theorem NoErr.proceeds (hn : NoErr x) (hx : Maintains J x) (hJ : J h s) : Proceeds J x h s :=
  ⟨hn s, hx h s hJ⟩

theorem proceeds_bind_run (hx : x s = ⟨.ok a, s', l⟩) (hf : Proceeds J (f a) (h ++ l) s') :
    Proceeds J (x >>= f) h s := by
  unfold Proceeds
  rw [bind_ok hx, ← List.append_assoc]
  exact hf

theorem proceeds_bind_nil (hx : x s = ⟨.ok a, s', []⟩) (hf : Proceeds J (f a) h s') :
    Proceeds J (x >>= f) h s := proceeds_bind_run hx (by rwa [List.append_nil])

theorem proceeds_bind (hx : Proceeds J x h s) (hf : ∀ a h' s', J h' s' → Proceeds J (f a) h' s') :
    Proceeds J (x >>= f) h s := by
  rcases hrun : x s with ⟨e | a, s', l⟩ <;> unfold Proceeds at hx ⊢ <;> rw [hrun] at hx
  · rw [bind_error hrun]
    exact ⟨fun e' he => hx.1 e' (congrArg Except.error (Except.error.inj he)), hx.2⟩
  · exact proceeds_bind_run hrun (hf a _ s' hx.2)

/-- `K` holds at the end, if the run returns. -/
def Settles (K : List ι → σ → Prop) (x : Exec ε ι σ α) (h : List ι) (s : σ) : Prop :=
  Returns x s → K (h ++ (x s).log) (x s).state

theorem Proceeds.settles_bind (hx : Proceeds J x h s)
    (hf : ∀ a h' s', J h' s' → Settles K (f a) h' s') : Settles K (x >>= f) h s := by
  intro hret
  rcases hrun : x s with ⟨(e | _ | _) | a, s', l⟩ <;> unfold Proceeds at hx <;> rw [hrun] at hx
  · exact absurd rfl (hx.1 e)
  · have hfirst := hret.of_bind
    rw [Returns, hrun] at hfirst
    cases hfirst
  · have hfirst := hret.of_bind
    rw [Returns, hrun] at hfirst
    cases hfirst
  · have hrest := hf a _ s' hx.2 ((returns_bind_ok hrun).1 hret)
    rw [bind_ok hrun, ← List.append_assoc]
    exact hrest

end Leads

/-! ## Which errors are returned -/

def Errs (E : Set ε) (x : Exec ε ι σ α) : Prop := ∀ s e, (x s).res = .error (.err e) → e ∈ E

section Errs

variable {E : Set ε}

theorem NoErr.errs (hx : NoErr x) : Errs E x := fun s e h => absurd h (hx s e)

theorem errs_err {e : ε} (he : e ∈ E) : Errs E (err e : Exec ε ι σ α) := by
  intro s e' h
  cases h
  exact he

theorem errs_bind (hx : Errs E x) (hf : ∀ a, Errs E (f a)) : Errs E (x >>= f) := by
  intro s e h
  rcases hrun : x s with ⟨e' | a, s₁, l₁⟩
  · rw [bind_error hrun] at h
    refine hx s e ?_
    rw [hrun]
    exact congrArg Except.error (Except.error.inj h)
  · rw [bind_ok hrun] at h
    exact hf a s₁ e h

theorem errs_ite [Decidable c] (hx : Errs E x) (hy : Errs E y) :
    Errs E (if c then x else y) := by
  split
  · exact hx
  · exact hy

theorem errs_forEach {g : α → Exec ε ι σ Unit} (hg : ∀ a, Errs E (g a)) (l : List α) :
    Errs E (forEach g l) := by
  induction l with
  | nil => exact (noErr_pure ()).errs
  | cons a l ih => exact errs_bind (hg a) fun _ => ih

end Errs

end Lib.Exec
