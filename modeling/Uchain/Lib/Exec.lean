import Mathlib.Data.Set.Basic

/-!
# Computations with a state, failures and an oracle log

`Exec ε ι σ α`: a computation over a mutable state `σ` that ends with a value of `α` or fails.
The state survives a failure (a call that returns an error has done what it did before), and every
query to an outside function (a hash, say) is written to a log of type `List ι`.

`Exec.Keeps f x`: no run of `x` changes `f` of the state.

`Exec.wp S x s Q`: if every query of the run of `x` from `s` lies in `S`, the run ends in a result
and a state that satisfy `Q`. A fact about a whole program is put together from its parts with the
rules below (`wp_bind`, `wp_zoom`, `wp_attempt`), each part keeping the same set `S`.
-/

namespace Lib

/-- Why a computation has no value: an error it returns, a panic, or a loop that never ends. -/
inductive Fail (ε : Type) where
  | err (e : ε)
  | panic
  | diverge
  deriving DecidableEq, Repr

/-- The end of a run: the result, the state, and the queries made on the way. -/
structure Run (ε ι σ α : Type) where
  res : Except (Fail ε) α
  state : σ
  log : List ι

theorem Run.eq_of_res {ε ι σ α : Type} {r : Run ε ι σ α} {x : Except (Fail ε) α} (h : r.res = x) :
    r = ⟨x, r.state, r.log⟩ := h ▸ rfl

theorem Run.exists_ok {ε ι σ α : Type} {r : Run ε ι σ α} (h : r.res.toOption.isSome = true) :
    ∃ a, r = ⟨.ok a, r.state, r.log⟩ := by
  cases hres : r.res with
  | error e =>
    rw [hres] at h
    cases h
  | ok a => exact ⟨a, eq_of_res hres⟩

def Exec (ε ι σ α : Type) := σ → Run ε ι σ α

namespace Exec

variable {ε ι σ τ α β : Type}

def pure (a : α) : Exec ε ι σ α := fun s => ⟨.ok a, s, []⟩

def bind (x : Exec ε ι σ α) (f : α → Exec ε ι σ β) : Exec ε ι σ β := fun s =>
  match x s with
  | ⟨.ok a, s', l⟩ => let r := f a s'; ⟨r.res, r.state, l ++ r.log⟩
  | ⟨.error e, s', l⟩ => ⟨.error e, s', l⟩

instance : Monad (Exec ε ι σ) where
  pure := Exec.pure
  bind := Exec.bind

def fail (e : Fail ε) : Exec ε ι σ α := fun s => ⟨.error e, s, []⟩

def err (e : ε) : Exec ε ι σ α := fail (.err e)

def panic : Exec ε ι σ α := fail .panic

def get : Exec ε ι σ σ := fun s => ⟨.ok s, s, []⟩

def set (s : σ) : Exec ε ι σ Unit := fun _ => ⟨.ok (), s, []⟩

def modify (f : σ → σ) : Exec ε ι σ Unit := fun s => ⟨.ok (), f s, []⟩

def tell (i : ι) : Exec ε ι σ Unit := fun s => ⟨.ok (), s, [i]⟩

def ofOption (e : ε) : Option α → Exec ε ι σ α
  | some a => Exec.pure a
  | none => err e

/-- The value of an option; a panic if there is none (`unwrap`, an index out of bounds). -/
def orPanic : Option α → Exec ε ι σ α
  | some a => Exec.pure a
  | none => panic

/-- Turn the errors of a computation into errors of its caller. -/
def mapErr {ε' : Type} (f : ε → ε') (x : Exec ε ι σ α) : Exec ε' ι σ α := fun s =>
  match x s with
  | ⟨.ok a, s', l⟩ => ⟨.ok a, s', l⟩
  | ⟨.error (.err e), s', l⟩ => ⟨.error (.err (f e)), s', l⟩
  | ⟨.error .panic, s', l⟩ => ⟨.error .panic, s', l⟩
  | ⟨.error .diverge, s', l⟩ => ⟨.error .diverge, s', l⟩

/-- Run a computation on a part of the state. -/
def zoom (get : σ → τ) (set : τ → σ → σ) (x : Exec ε ι τ α) : Exec ε ι σ α := fun s =>
  let r := x (get s)
  ⟨r.res, set r.state s, r.log⟩

/-- Run a computation on a state of its own; the end state comes with the value. -/
def runOn (t : τ) (x : Exec ε ι τ α) : Exec ε ι σ (α × τ) := fun s =>
  let r := x t
  ⟨r.res.map (·, r.state), s, r.log⟩

/-- Catch a returned error. A panic or an endless loop is not caught. -/
def attempt (x : Exec ε ι σ α) : Exec ε ι σ (Except ε α) := fun s =>
  match x s with
  | ⟨.ok a, s', l⟩ => ⟨.ok (.ok a), s', l⟩
  | ⟨.error (.err e), s', l⟩ => ⟨.ok (.error e), s', l⟩
  | ⟨.error .panic, s', l⟩ => ⟨.error .panic, s', l⟩
  | ⟨.error .diverge, s', l⟩ => ⟨.error .diverge, s', l⟩

def forEach (f : α → Exec ε ι σ Unit) : List α → Exec ε ι σ Unit
  | [] => Exec.pure ()
  | a :: as => Exec.bind (f a) fun _ => forEach f as

/-! ## Equations -/

theorem pure_run (a : α) (s : σ) : (Pure.pure a : Exec ε ι σ α) s = ⟨.ok a, s, []⟩ := rfl

theorem bind_run (x : Exec ε ι σ α) (f : α → Exec ε ι σ β) (s : σ) :
    (x >>= f) s = Exec.bind x f s := rfl

variable {a : α} {f : α → Exec ε ι σ β} {l : List ι} {s' : σ} {x : Exec ε ι σ α}

theorem bind_ok {s : σ} (h : x s = ⟨.ok a, s', l⟩) :
    (x >>= f) s = ⟨(f a s').res, (f a s').state, l ++ (f a s').log⟩ := by
  rw [bind_run, Exec.bind, h]

theorem bind_of_run {s s₁ s₂ : σ} {r : Except (Fail ε) β} {l₁ l₂ : List ι}
    (hx : x s = ⟨.ok a, s₁, l₁⟩) (hf : f a s₁ = ⟨r, s₂, l₂⟩) :
    (x >>= f) s = ⟨r, s₂, l₁ ++ l₂⟩ := by
  rw [bind_ok hx, hf]

theorem bind_ok_nil {s : σ} (h : x s = ⟨.ok a, s', []⟩) : (x >>= f) s = f a s' := by
  rw [bind_ok h, List.nil_append]

theorem get_bind (f : σ → Exec ε ι σ β) (s : σ) : (Exec.get >>= f) s = f s s :=
  bind_ok_nil rfl

theorem bind_error {s : σ} {e : Fail ε} (h : x s = ⟨.error e, s', l⟩) :
    (x >>= f) s = ⟨.error e, s', l⟩ := by
  rw [bind_run, Exec.bind, h]

instance : LawfulMonad (Exec ε ι σ) := LawfulMonad.mk' _
  (fun x => by
    funext s
    show Exec.bind x _ s = x s
    unfold Exec.bind
    rcases x s with ⟨_ | a, s₁, l₁⟩
    · rfl
    · simp [Function.comp, Exec.pure])
  (fun a f => by
    funext s
    exact bind_ok_nil rfl)
  (fun x f g => by
    funext s
    rcases hx : x s with ⟨_ | a, s₁, l₁⟩
    · rw [bind_error hx, bind_error (bind_error hx)]
    · rw [bind_ok hx]
      rcases hf : f a s₁ with ⟨_ | b, s₂, l₂⟩
      · rw [bind_error hf, bind_error (by rw [bind_ok hx, hf])]
      · rw [bind_ok hf, bind_ok (by rw [bind_ok hx, hf]), List.append_assoc])

theorem forEach_append (f : α → Exec ε ι σ Unit) (l l' : List α) :
    forEach f (l ++ l') = forEach f l >>= fun _ => forEach f l' := by
  induction l with
  | nil =>
    show forEach f l' = (Pure.pure () : Exec ε ι σ Unit) >>= fun _ => forEach f l'
    rw [pure_bind]
  | cons a l ih =>
    show (f a >>= fun _ => forEach f (l ++ l')) = (f a >>= fun _ => forEach f l) >>= _
    rw [ih, bind_assoc]

theorem state_bind_pure (x : Exec ε ι σ α) (f : α → β) (s : σ) :
    ((x >>= fun a => Pure.pure (f a)) s).state = (x s).state := by
  rcases hx : x s with ⟨_ | a, s₁, l₁⟩
  · rw [bind_error hx]
  · rw [bind_ok hx]
    rfl

theorem res_map (g : α → β) (x : Exec ε ι σ α) (s : σ) : ((g <$> x) s).res = (x s).res.map g := by
  rw [← bind_pure_comp]
  rcases hx : x s with ⟨_ | a, s₁, l₁⟩
  · rw [bind_error hx]
    rfl
  · rw [bind_ok hx]
    rfl

theorem bind_eq_ok {s : σ} {b : β} (h : (x >>= f) s = ⟨.ok b, s', l⟩) :
    ∃ a s₁ l₁ l₂, x s = ⟨.ok a, s₁, l₁⟩ ∧ f a s₁ = ⟨.ok b, s', l₂⟩ ∧ l = l₁ ++ l₂ := by
  rcases hx : x s with ⟨_ | a, s₁, l₁⟩
  · rw [bind_error hx] at h; cases h
  · rw [bind_ok hx] at h
    rcases hf : f a s₁ with ⟨r, s₂, l₂⟩
    rw [hf] at h
    cases h
    exact ⟨a, s₁, l₁, l₂, rfl, hf, rfl⟩

theorem log_subset_bind (x : Exec ε ι σ α) (f : α → Exec ε ι σ β) (s : σ) :
    (x s).log ⊆ ((x >>= f) s).log := by
  rcases hx : x s with ⟨_ | a, s₁, l₁⟩
  · rw [bind_error hx]
    exact List.Subset.refl _
  · rw [bind_ok hx]
    exact List.subset_append_left _ _

/-! ## Frames -/

/-- `x` leaves a part of the state as it is, whether it succeeds or not. -/
def Keeps {γ : Type} (f : σ → γ) (x : Exec ε ι σ α) : Prop := ∀ s, f (x s).state = f s

section Keeps

variable {γ : Type} {f : σ → γ}

variable {x : Exec ε ι σ α}

theorem Keeps.of_id (h : Keeps id x) : Keeps f x := fun s => congrArg f (h s)

theorem keeps_pure (a : α) : Keeps f (Pure.pure a : Exec ε ι σ α) := fun _ => rfl

theorem keeps_fail (e : Fail ε) : Keeps f (fail e : Exec ε ι σ α) := fun _ => rfl

theorem keeps_get : Keeps f (get : Exec ε ι σ σ) := fun _ => rfl

theorem keeps_bind {g : α → Exec ε ι σ β} (hx : Keeps f x) (hg : ∀ a, Keeps f (g a)) :
    Keeps f (x >>= g) := by
  intro s
  have hs := hx s
  rcases hrun : x s with ⟨_ | a, s₁, l⟩
  · rw [hrun] at hs
    rw [bind_error hrun]
    exact hs
  · rw [hrun] at hs
    rw [bind_ok hrun]
    exact (hg a s₁).trans hs

theorem keeps_ite {c : Prop} [Decidable c] {y : Exec ε ι σ α} (hx : Keeps f x) (hy : Keeps f y) :
    Keeps f (if c then x else y) := by
  split
  · exact hx
  · exact hy

theorem keeps_ofOption (e : ε) (o : Option α) : Keeps f (ofOption e o : Exec ε ι σ α) := by
  cases o with
  | none => exact keeps_fail _
  | some a => exact keeps_pure a

theorem keeps_orPanic (o : Option α) : Keeps f (orPanic o : Exec ε ι σ α) := by
  cases o with
  | none => exact keeps_fail _
  | some a => exact keeps_pure a

theorem keeps_mapErr {ε' : Type} (g : ε → ε') (hx : Keeps f x) :
    Keeps f (mapErr g x) := by
  intro s
  unfold mapErr
  have hs := hx s
  rcases hrun : x s with ⟨(e | _ | _) | a, s₁, l⟩ <;> rw [hrun] at hs <;> exact hs

theorem keeps_attempt (hx : Keeps f x) : Keeps f (attempt x) := by
  intro s
  unfold attempt
  have hs := hx s
  rcases hrun : x s with ⟨(e | _ | _) | a, s₁, l⟩ <;> rw [hrun] at hs <;> exact hs

theorem keeps_runOn (t : τ) (x : Exec ε ι τ α) : Keeps f (runOn t x : Exec ε ι σ (α × τ)) :=
  fun _ => rfl

theorem keeps_zoom {get : σ → τ} {set : τ → σ → σ} (x : Exec ε ι τ α)
    (h : ∀ t s, f (set t s) = f s) : Keeps f (zoom get set x) := fun s => h _ s

theorem keeps_zoom_id {get : σ → τ} {set : τ → σ → σ} {x : Exec ε ι τ α}
    (hset : ∀ s, set (get s) s = s) (hx : Keeps id x) : Keeps f (zoom get set x) := by
  intro s
  have hs : (x (get s)).state = get s := hx (get s)
  show f (set (x (get s)).state s) = f s
  rw [hs, hset]

theorem keeps_forEach {g : α → Exec ε ι σ Unit} (hg : ∀ a, Keeps f (g a)) (l : List α) :
    Keeps f (forEach g l) := by
  induction l with
  | nil => exact keeps_pure ()
  | cons a l ih => exact keeps_bind (hg a) fun _ => ih

end Keeps

/-! ## Weakest preconditions -/

/-- If every query of the run from `s` is in `S`, its result and end state satisfy `Q`. -/
def wp (S : Set ι) (x : Exec ε ι σ α) (s : σ) (Q : Except (Fail ε) α → σ → Prop) : Prop :=
  (∀ i ∈ (x s).log, i ∈ S) → Q (x s).res (x s).state

variable {S : Set ι} {s : σ} {Q Q' : Except (Fail ε) α → σ → Prop}

theorem wp_mono (h : wp S x s Q) (hQ : ∀ r s', Q r s' → Q' r s') :
    wp S x s Q' := fun hl => hQ _ _ (h hl)

theorem wp_pure (h : Q (.ok a) s) : wp S (Pure.pure a) s Q := fun _ => h

theorem wp_fail {e : Fail ε} (h : Q (.error e) s) : wp S (fail e) s Q := fun _ => h

theorem wp_err {e : ε} (h : Q (.error (.err e)) s) : wp S (err e) s Q := fun _ => h

theorem wp_get {Q : Except (Fail ε) σ → σ → Prop} (h : Q (.ok s) s) : wp S get s Q := fun _ => h

theorem wp_modify {f : σ → σ} {Q : Except (Fail ε) Unit → σ → Prop} (h : Q (.ok ()) (f s)) :
    wp S (modify f) s Q := fun _ => h

theorem wp_tell {i : ι} {Q : Except (Fail ε) Unit → σ → Prop} (h : i ∈ S → Q (.ok ()) s) :
    wp S (tell i) s Q := fun hl => h (hl i (by simp [tell]))

/-- What `x` has to establish before `f`, for `x >>= f` to establish `Q`. -/
@[reducible] def cont (S : Set ι) (f : α → Exec ε ι σ β) (Q : Except (Fail ε) β → σ → Prop) :
    Except (Fail ε) α → σ → Prop
  | .ok a, s' => wp S (f a) s' Q
  | .error e, s' => Q (.error e) s'

theorem wp_bind {Q : Except (Fail ε) β → σ → Prop} (h : wp S x s (cont S f Q)) :
    wp S (x >>= f) s Q := by
  intro hl
  rcases hx : x s with ⟨_ | a, s₁, l₁⟩
  · rw [bind_error hx] at hl ⊢
    have := h (by rw [hx]; exact hl)
    rwa [hx] at this
  · rw [bind_ok hx] at hl ⊢
    have := h (by rw [hx]; exact fun i hi => hl i (List.mem_append_left _ hi))
    rw [hx] at this
    exact this fun i hi => hl i (List.mem_append_right _ hi)

theorem wp_bind_run {Q : Except (Fail ε) β → σ → Prop} (hx : x s = ⟨.ok a, s', []⟩)
    (h : wp S (f a) s' Q) :
    wp S (x >>= f) s Q := by
  rw [wp, bind_ok_nil hx]
  exact h

theorem wp_bind_res {r : Except (Fail ε) α} {Q : Except (Fail ε) β → σ → Prop}
    (hx : x s = ⟨r, s', l⟩) (h : cont S f Q r s') : wp S (x >>= f) s Q := by
  refine wp_bind fun _ => ?_
  rw [hx]
  exact h

theorem wp_bind_ok {P : α → σ → Prop} {Q : Except (Fail ε) β → σ → Prop}
    (hx : wp S x s fun r s' => ∃ a, r = .ok a ∧ P a s') (hf : ∀ a s', P a s' → wp S (f a) s' Q) :
    wp S (x >>= f) s Q :=
  wp_bind (wp_mono hx fun _ s' ⟨a, hr, hP⟩ => by subst hr; exact hf a s' hP)

/-- A part that leaves `g` of the state alone, followed by `f`. -/
theorem wp_bind_keeps {γ : Type} {g : σ → γ} {c : γ} {Q : Except (Fail ε) β → σ → Prop}
    (hx : Keeps g x) (hs : g s = c) (herr : ∀ e s', g s' = c → Q (.error e) s')
    (hf : ∀ a s', g s' = c → wp S (f a) s' Q) : wp S (x >>= f) s Q := by
  have hs' := (hx s).trans hs
  rcases hrun : x s with ⟨r, s', l⟩
  rw [hrun] at hs'
  refine wp_bind_res hrun ?_
  cases r with
  | error e => exact herr e s' hs'
  | ok a => exact hf a s' hs'

theorem wp_ite {c : Prop} [Decidable c] {y : Exec ε ι σ α} (ht : c → wp S x s Q)
    (hf : ¬ c → wp S y s Q) : wp S (if c then x else y) s Q := by
  split
  · exact ht ‹_›
  · exact hf ‹_›

theorem wp_zoom {get : σ → τ} {set : τ → σ → σ} {x : Exec ε ι τ α}
    (h : wp S x (get s) fun r t => Q r (set t s)) : wp S (zoom get set x) s Q := h

theorem wp_runOn {t : τ} {x : Exec ε ι τ α} {Q : Except (Fail ε) (α × τ) → σ → Prop}
    (h : wp S x t fun r t' => Q (r.map (·, t')) s) : wp S (runOn t x) s Q := h

/-- All computations of a family end with one result, if their queries are in `S`. -/
def Agree {ω : Type} (S : Set ι) (f : ω → Exec ε ι σ α) (s : σ) : Prop :=
  ∃ r, ∀ o, wp S (f o) s fun r' _ => r' = r

/-- A first part that leaves `g` of the state alone, and a family of rests. -/
theorem agree_bind_keeps {γ ω : Type} {g : σ → γ} (hx : Keeps g x) {c : γ} (hs : g s = c)
    {f : ω → α → Exec ε ι σ β} (h : ∀ a s', g s' = c → Agree S (fun o => f o a) s') :
    Agree S (fun o => x >>= f o) s := by
  have hg : g (x s).state = c := (hx s).trans hs
  rcases hrun : x s with ⟨e | a, s', l⟩
  · exact ⟨_, fun o => wp_bind_res hrun rfl⟩
  · rw [hrun] at hg
    obtain ⟨r, hr⟩ := h a s' hg
    exact ⟨r, fun o => wp_bind_res hrun (hr o)⟩

theorem agree_zoom {ω : Type} {get : σ → τ} {set : τ → σ → σ} {f : ω → Exec ε ι τ α}
    (h : Agree S f (get s)) : Agree S (fun o => zoom get set (f o)) s := h

variable {ε' : Type}

theorem wp_mapErr_ok {f : ε → ε'} {P : α → σ → Prop}
    (h : wp S x s fun r s' => ∃ a, r = .ok a ∧ P a s') :
    wp S (mapErr f x) s fun r s' => ∃ a, r = .ok a ∧ P a s' := by
  intro hl
  unfold mapErr at hl ⊢
  rcases hx : x s with ⟨(e | _ | _) | a, s₁, l₁⟩ <;> rw [hx] at hl
  all_goals
    obtain ⟨b, hb, hP⟩ := h (by rw [hx]; exact hl)
    rw [hx] at hb hP
    cases hb
  exact ⟨a, rfl, hP⟩

/-- The failure that the caller of `mapErr` sees. -/
def mapFail {ε' : Type} (f : ε → ε') : Except (Fail ε) α → Except (Fail ε') α
  | .ok a => .ok a
  | .error (.err e) => .error (.err (f e))
  | .error .panic => .error .panic
  | .error .diverge => .error .diverge

theorem mapErr_run (f : ε → ε') (x : Exec ε ι σ α) (s : σ) :
    mapErr f x s = ⟨mapFail f (x s).res, (x s).state, (x s).log⟩ := by
  unfold mapErr
  rcases x s with ⟨(e | _ | _) | a, s₁, l₁⟩ <;> rfl

theorem mapErr_eq_ok {f : ε → ε'} {s : σ} (h : mapErr f x s = ⟨.ok a, s', l⟩) :
    x s = ⟨.ok a, s', l⟩ := by
  unfold mapErr at h
  rcases hx : x s with ⟨(e | _ | _) | b, s₁, l₁⟩ <;> rw [hx] at h <;> cases h
  rfl

theorem mapErr_bind (f : ε → ε') (x : Exec ε ι σ α) (g : α → Exec ε ι σ β) :
    mapErr f (x >>= g) = (mapErr f x >>= fun a => mapErr f (g a)) := by
  funext s
  rcases hx : x s with ⟨(e | _ | _) | a, s₁, l₁⟩
  all_goals have hmap := mapErr_run f x s
  all_goals rw [hx] at hmap
  · rw [bind_error hmap, mapErr_run, bind_error hx]
    rfl
  · rw [bind_error hmap, mapErr_run, bind_error hx]
    rfl
  · rw [bind_error hmap, mapErr_run, bind_error hx]
    rfl
  · rw [bind_ok hmap, mapErr_run, bind_ok hx, mapErr_run]

theorem zoom_bind {get : σ → τ} {set : τ → σ → σ} (hget : ∀ t s, get (set t s) = t)
    (hset : ∀ t t' s, set t' (set t s) = set t' s) (x : Exec ε ι τ α) (g : α → Exec ε ι τ β) :
    zoom get set (x >>= g) = (zoom get set x >>= fun a => zoom get set (g a)) := by
  funext s
  rcases hx : x (get s) with ⟨e | a, t, l⟩
  · have hzoom : zoom get set x s = ⟨.error e, set t s, l⟩ := by
      unfold zoom
      rw [hx]
    rw [bind_error hzoom]
    unfold zoom
    rw [bind_error hx]
  · have hzoom : zoom get set x s = ⟨.ok a, set t s, l⟩ := by
      unfold zoom
      rw [hx]
    rw [bind_ok hzoom]
    unfold zoom
    rw [bind_ok hx]
    simp only [hget, hset]

theorem mapErr_state (f : ε → ε') (x : Exec ε ι σ α) (s : σ) :
    (mapErr f x s).state = (x s).state := by
  unfold mapErr
  rcases x s with ⟨(e | _ | _) | a, s₁, l₁⟩ <;> rfl

def caught : Except (Fail ε) α → Except (Fail ε) (Except ε α)
  | .ok a => .ok (.ok a)
  | .error (.err e) => .ok (.error e)
  | .error .panic => .error .panic
  | .error .diverge => .error .diverge

theorem attempt_run (x : Exec ε ι σ α) (s : σ) :
    attempt x s = ⟨caught (x s).res, (x s).state, (x s).log⟩ := by
  unfold attempt
  rcases x s with ⟨(e | _ | _) | a, s₁, l₁⟩ <;> rfl

theorem wp_attempt {Q : Except (Fail ε) (Except ε α) → σ → Prop}
    (h : wp S x s fun r s' => Q (caught r) s') : wp S (attempt x) s Q := by
  intro hl
  rw [attempt_run] at hl ⊢
  exact h hl

theorem wp_forEach_nil {f : α → Exec ε ι σ Unit} {Q : Except (Fail ε) Unit → σ → Prop}
    (h : Q (.ok ()) s) : wp S (forEach f []) s Q := fun _ => h

theorem wp_forEach_cons {f : α → Exec ε ι σ Unit} {as : List α}
    {Q : Except (Fail ε) Unit → σ → Prop} (h : wp S (f a) s (cont S (fun _ => forEach f as) Q)) :
    wp S (forEach f (a :: as)) s Q :=
  wp_bind h

/-- What every round keeps holds after the loop, also if it fails. -/
theorem wp_forEach_inv {f : α → Exec ε ι σ Unit} {P : σ → Prop} {l : List α}
    (hf : ∀ a ∈ l, ∀ s, P s → wp S (f a) s fun _ s' => P s') :
    ∀ s, P s → wp S (forEach f l) s fun _ s' => P s' := by
  induction l with
  | nil => exact fun s hs => wp_forEach_nil hs
  | cons a l ih =>
    intro s hs
    refine wp_forEach_cons (wp_mono (hf a List.mem_cons_self s hs) ?_)
    intro r s' hs'
    cases r with
    | error e => exact hs'
    | ok u => exact ih (fun b hb => hf b (List.mem_cons_of_mem a hb)) s' hs'

end Exec

end Lib
