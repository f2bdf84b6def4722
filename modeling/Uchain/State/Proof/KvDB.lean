import Uchain.State.KvDB

/-!
# Read-only databases, against writable ones

A read-only `KvDB` keeps what is put in `staging`, and a delete only takes it out of there again: a value of
the database below comes back. Everything else is as in a writable one.
-/

namespace Uchain

open Lib Exec BTreeMap

inductive KvCall (K V : Type) where
  | put (key : K) (value : V)
  | delete (key : K)
  | get (key : K)

namespace KvDB

variable {K V : Type}

def exec : KvCall K V → M K V Unit
  | .put key value => put key value
  | .delete key => delete key
  | .get key => do let _ ← get key

def reads : List (KvCall K V) → KvDB K V → List (Except (Fail StateError) V)
  | [], _ => []
  | .get key :: calls, db => (get key db).res :: reads calls (exec (.get key) db).state
  | c :: calls, db => reads calls (exec c db).state

def after : List (KvCall K V) → KvDB K V → KvDB K V
  | [], db => db
  | c :: calls, db => after calls (exec c db).state

/-! ## Writes -/

variable (kc : Coding K) (vc : Coding V)

/-- The key that a call writes, with the value that it puts there or none. -/
def written : KvCall K V → Option (Bytes × Option Bytes)
  | .put key value =>
    match kc.encode key, vc.encode value with
    | .ok k, .ok v => some (k, some v)
    | _, _ => none
  | .delete key =>
    match kc.encode key with
    | .ok k => some (k, none)
    | _ => none
  | .get _ => none

/-- The last write at a key, after one at `w`. -/
def nextWrite (w : Option (Option Bytes)) (k : Bytes) (c : KvCall K V) : Option (Option Bytes) :=
  match written kc vc c with
  | some (k', o) => if k' = k then some o else w
  | none => w

/-- The last write at a key: of a value, or of none. -/
def lastWrite (calls : List (KvCall K V)) (k : Bytes) : Option (Option Bytes) :=
  calls.foldl (fun w c => nextWrite kc vc w k c) none

/-- A read-only and a writable database with the content `content` at first, after the writes `w`. -/
structure Beside (content : BTreeMap Bytes Bytes) (w : Bytes → Option (Option Bytes))
    (ro rw : KvDB K V) : Prop where
  codings : ro.key = kc ∧ ro.value = vc ∧ rw.key = kc ∧ rw.value = vc
  modes : ro.readOnly = true ∧ rw.readOnly = false
  inner : ro.inner = content
  staging : ∀ k, ro.staging.get? k = (w k).join
  written : ∀ k, rw.inner.get? k = (w k).getD (content.get? k)
  empty : rw.staging = .empty

variable {kc vc} {content : BTreeMap Bytes Bytes} {w : Bytes → Option (Option Bytes)}
  {ro rw : KvDB K V}

/-! ## One call -/

/-- What the caller of a coding sees. -/
abbrev coded {α : Type} : Except (Fail Unit) α → Except (Fail StateError) α :=
  mapFail fun _ => .codec

theorem ofCoding_run {α σ : Type} (x : Except (Fail Unit) α) (s : σ) :
    ofCoding x s = ⟨coded x, s, []⟩ := by
  rcases x with (e | _ | _) | a <;> rfl

def store (m : BTreeMap Bytes Bytes) (k : Bytes) : Option Bytes → BTreeMap Bytes Bytes
  | some v => m.insert k v
  | none => m.erase k

theorem get?_store (m : BTreeMap Bytes Bytes) (k : Bytes) (o : Option Bytes) (k' : Bytes) :
    (store m k o).get? k' = if k' = k then o else m.get? k' := by
  cases o with
  | none => by_cases hk : k' = k <;> simp [store, get?_erase, hk]
  | some v => by_cases hk : k' = k <;> simp [store, get?_insert, hk]

def write (db : KvDB K V) : Option (Bytes × Option Bytes) → KvDB K V
  | none => db
  | some (k, o) =>
    if db.readOnly then { db with staging := store db.staging k o }
    else { db with inner := store db.inner k o }

def found (db : KvDB K V) (k : Bytes) : Option Bytes := (db.staging.get? k).or (db.inner.get? k)

/-- The result of a read that finds the entry `o` or none. -/
def readOf (vc : Coding V) (k : Bytes) : Option Bytes → Except (Fail StateError) V
  | some raw => coded (vc.decode raw)
  | none => .error (.err (.invalidKey (hexEncode k)))

/-- The error of a missing key is no other error. -/
theorem readOf_some_ne_none (vc : Coding V) (k raw : Bytes) :
    readOf vc k (some raw) ≠ readOf vc k none := by
  show coded (vc.decode raw) ≠ .error _
  intro h
  rcases hraw : vc.decode raw with (e | _ | _) | v <;> rw [hraw] at h <;> cases h

theorem get_run {db : KvDB K V} {key : K} {k : Bytes} (hk : db.key.encode key = .ok k) :
    get key db = ⟨readOf db.value k (db.found k), db, []⟩ := by
  unfold get found
  rw [get_bind, hk, bind_ok_nil (ofCoding_run (.ok k) db)]
  cases db.staging.get? k with
  | some entry => exact ofCoding_run (db.value.decode entry) db
  | none =>
    cases hraw : db.inner.get? k with
    | none => rfl
    | some raw => exact ofCoding_run (db.value.decode raw) db

theorem get_run_error {db : KvDB K V} {key : K} {e : Fail Unit} (hk : db.key.encode key = .error e) :
    get key db = ⟨coded (.error e), db, []⟩ := by
  unfold get
  rw [get_bind, hk]
  rcases e with e | _ | _ <;> rfl

theorem exec_state (c : KvCall K V) (db : KvDB K V) :
    (exec c db).state = db.write (written db.key db.value c) := by
  cases c with
  | put key value =>
    show (put key value db).state = _
    unfold put
    rw [get_bind]
    simp only [written]
    cases hk : db.key.encode key with
    | error e => rcases e with e | _ | _ <;> rfl
    | ok k =>
      rw [bind_ok_nil (ofCoding_run (.ok k) db)]
      cases hv : db.value.encode value with
      | error e => rcases e with e | _ | _ <;> rfl
      | ok v =>
        rw [bind_ok_nil (ofCoding_run (.ok v) db)]
        unfold write store
        split <;> rfl
  | delete key =>
    show (delete key db).state = _
    unfold delete
    rw [get_bind]
    simp only [written]
    cases hk : db.key.encode key with
    | error e => rcases e with e | _ | _ <;> rfl
    | ok k =>
      rw [bind_ok_nil (ofCoding_run (.ok k) db)]
      unfold write store
      split <;> rfl
  | get key =>
    show ((get key >>= fun _ => Pure.pure () : M K V Unit) db).state = db
    rw [state_bind_pure]
    cases hk : db.key.encode key with
    | error e => rw [get_run_error hk]
    | ok k => rw [get_run hk]

theorem Beside.exec (h : Beside kc vc content w ro rw) (c : KvCall K V) :
    Beside kc vc content (fun k => nextWrite kc vc (w k) k c) (exec c ro).state (exec c rw).state := by
  obtain ⟨hkro, hvro, hkrw, hvrw⟩ := h.codings
  obtain ⟨hro, hrw⟩ := h.modes
  rw [exec_state, exec_state, hkro, hvro, hkrw, hvrw]
  unfold nextWrite
  cases hc : KvDB.written kc vc c with
  | none => exact h
  | some ko =>
    obtain ⟨k, o⟩ := ko
    simp only [write, if_pos hro, hrw, Bool.false_eq_true, if_false]
    refine ⟨⟨hkro, hvro, hkrw, hvrw⟩, ⟨hro, rfl⟩, h.inner, fun k' => ?_, fun k' => ?_, h.empty⟩
    · rw [get?_store, h.staging k']
      by_cases hk : k' = k
      · rw [if_pos hk, if_pos hk.symm, Option.join_some]
      · rw [if_neg hk, if_neg (Ne.symm hk)]
    · rw [get?_store, h.written k']
      by_cases hk : k' = k
      · rw [if_pos hk, if_pos hk.symm, Option.getD_some]
      · rw [if_neg hk, if_neg (Ne.symm hk)]

/-- **A read of both.** They differ if the last write at the key was a delete, and there is a value
below. -/
theorem Beside.get_eq_iff (h : Beside kc vc content w ro rw) (key : K) :
    (get key ro).res = (get key rw).res ↔
      ∀ k, kc.encode key = .ok k → w k = some none → content.get? k = none := by
  obtain ⟨hkro, hvro, hkrw, hvrw⟩ := h.codings
  cases hk : kc.encode key with
  | error e =>
    rw [get_run_error (hkro ▸ hk), get_run_error (hkrw ▸ hk)]
    exact iff_of_true rfl fun k hk' => by cases hk'
  | ok k =>
    have hforall : (∀ k', (.ok k : Except (Fail Unit) Bytes) = .ok k' → w k' = some none →
        content.get? k' = none) ↔ (w k = some none → content.get? k = none) :=
      ⟨fun hall => hall k rfl, fun hone k' hk' => by cases hk'; exact hone⟩
    rw [get_run (hkro ▸ hk), get_run (hkrw ▸ hk), hforall, hvro, hvrw]
    unfold found
    rw [h.staging k, h.inner, h.empty, h.written k, get?_empty, Option.none_or]
    rcases hw : w k with _ | _ | v
    · exact iff_of_true rfl fun h => by cases h
    · cases hraw : content.get? k with
      | none => exact iff_of_true rfl fun _ => rfl
      | some raw => exact iff_of_false (readOf_some_ne_none vc k raw) fun h => by cases h rfl
    · exact iff_of_true rfl fun h => by cases h

/-! ## Sequences of calls -/

theorem forall_get_cons {P : List (KvCall K V) → K → Prop} {c : KvCall K V} {calls : List (KvCall K V)} :
    (∀ pre key post, c :: calls = pre ++ .get key :: post → P pre key) ↔
      (∀ key, c = .get key → P [] key) ∧
        ∀ pre key post, calls = pre ++ .get key :: post → P (c :: pre) key := by
  constructor
  · refine fun h => ⟨fun key hc => h [] key calls (by rw [hc]; rfl), fun pre key post hcalls => ?_⟩
    exact h (c :: pre) key post (by rw [hcalls]; rfl)
  · rintro ⟨hfirst, hrest⟩ pre key post hcalls
    cases pre with
    | nil =>
      cases hcalls
      exact hfirst key rfl
    | cons d pre =>
      cases hcalls
      exact hrest pre key post rfl

theorem Beside.reads_eq_iff (calls : List (KvCall K V)) :
    ∀ {w : Bytes → Option (Option Bytes)} {ro rw : KvDB K V}, Beside kc vc content w ro rw →
      (reads calls ro = reads calls rw ↔ ∀ pre key post, calls = pre ++ .get key :: post →
        ∀ k, kc.encode key = .ok k →
          pre.foldl (fun w c => nextWrite kc vc w k c) (w k) = some none → content.get? k = none) := by
  induction calls with
  | nil =>
    intro w ro rw _
    refine iff_of_true rfl fun pre key post h => ?_
    cases pre <;> cases h
  | cons c calls ih =>
    intro w ro rw h
    rw [forall_get_cons (P := fun pre key => ∀ k, kc.encode key = .ok k →
      pre.foldl (fun w c => nextWrite kc vc w k c) (w k) = some none → content.get? k = none)]
    have hrest := ih (h.exec c)
    cases c with
    | get key =>
      have hone := h.get_eq_iff key
      simp only [reads, List.cons.injEq]
      rw [hone, hrest]
      refine and_congr_left' ⟨fun hk key' hc => ?_, fun hk => hk key rfl⟩
      cases hc
      exact hk
    | put key value =>
      refine hrest.trans ⟨fun hr => ⟨fun key' hc => ?_, hr⟩, fun hr => hr.2⟩
      cases hc
    | delete key =>
      refine hrest.trans ⟨fun hr => ⟨fun key' hc => ?_, hr⟩, fun hr => hr.2⟩
      cases hc

theorem inner_after (calls : List (KvCall K V)) : ∀ {db : KvDB K V}, db.readOnly = true →
    (after calls db).inner = db.inner := by
  induction calls with
  | nil => exact fun _ => rfl
  | cons c calls ih =>
    intro db h
    have hstep : (exec c db).state.inner = db.inner ∧ (exec c db).state.readOnly = true := by
      rw [exec_state]
      rcases written db.key db.value c with _ | ⟨k, o⟩
      · exact ⟨rfl, h⟩
      · rw [write, if_pos h]
        exact ⟨rfl, h⟩
    exact (ih hstep.2).trans hstep.1

/-- **A read-only database reads as a writable one** exactly if no key is read whose last write was a
delete and that the database below has. That database never changes. -/
theorem readOnly_refines_iff (kc : Coding K) (vc : Coding V) (content : BTreeMap Bytes Bytes)
    (calls : List (KvCall K V)) :
    (reads calls (openReadOnlyAtRoot kc vc content) = reads calls (openWritable kc vc content) ∧
      (after calls (openReadOnlyAtRoot kc vc content)).inner = content) ↔
      ∀ pre key post, calls = pre ++ .get key :: post → ∀ k, kc.encode key = .ok k →
        lastWrite kc vc pre k = some none → content.get? k = none := by
  have hstart : Beside kc vc content (fun _ => none) (openReadOnlyAtRoot kc vc content)
      (openWritable kc vc content) :=
    ⟨⟨rfl, rfl, rfl, rfl⟩, ⟨rfl, rfl⟩, rfl, fun _ => rfl, fun _ => rfl, rfl⟩
  rw [hstart.reads_eq_iff calls]
  exact and_iff_left (inner_after calls rfl)

/-- Bytes, as they are. -/
def plain : Coding Bytes := ⟨.ok, .ok⟩

/-- A deleted key that comes back. -/
theorem readOnly_shows_deleted :
    reads [.delete [1], .get [1]] (openReadOnlyAtRoot plain plain (empty.insert [1] [2])) =
        [.ok [2]] ∧
      reads [.delete [1], .get [1]] (openWritable plain plain (empty.insert [1] [2])) =
        [.error (.err (.invalidKey "0x01"))] := by
  decide +kernel

end KvDB

end Uchain
