import Uchain.Lib.Protobuf

/-!
# Reading by a schema

A schema says what the field of each tag holds (`Kind`). `Kind.scan` goes through a buffer as the
reader of a message does, but builds no value: it follows keys and lengths and ends with the rest of
the buffer or with the first thing that is wrong with it. Bytes that a reader turns into a value of a
fixed size without a check are `unfit` if they have another length.
-/

namespace Lib.Protobuf

/-- What is wrong with a buffer. -/
inductive Trouble where
  | malformed (e : DecodeError)
  /-- A field that is there in full, and that the reader has no value for. -/
  | unfit
  | endless
  deriving DecidableEq, Repr

def trouble : Fail DecodeError → Trouble
  | .err e => .malformed e
  | .panic => .unfit
  | .diverge => .endless

/-- What is left of a buffer, or what is wrong with it. -/
abbrev Scanner := List UInt8 → Except Trouble (List UInt8)

def forget {α : Type} : Except (Fail DecodeError) (α × List UInt8) → Except Trouble (List UInt8)
  | .ok p => .ok p.2
  | .error e => .error (trouble e)

/-- The fields of a message, until `limit` bytes are left. -/
def scanLoop (field : Nat → WireType → Nat → Scanner) (ctx limit : Nat) : (fuel : Nat) → Scanner
  | fuel, buf =>
    if limit < buf.length then
      match fuel with
      | 0 => .error .endless
      | fuel + 1 =>
        match decodeKey buf with
        | .error e => .error (trouble e)
        | .ok key =>
          match field key.1.1 key.1.2 ctx key.2 with
          | .error t => .error t
          | .ok buf => scanLoop field ctx limit fuel buf
    else if buf.length = limit then .ok buf
    else .error (.malformed .lengthExceeded)

def scanNested (field : Nat → WireType → Nat → Scanner) (w : WireType) (ctx : Nat) : Scanner :=
  fun buf =>
    if w ≠ .lengthDelimited then .error (.malformed .unexpectedWireType)
    else if ctx = 0 then .error (.malformed .recursionLimit)
    else match decodeVarint buf with
      | .error e => .error (trouble e)
      | .ok len =>
        if len.2.length < len.1 then .error (.malformed .bufferUnderflow)
        else scanLoop field (ctx - 1) (len.2.length - len.1) len.2.length len.2

inductive Kind where
  /-- A field of another version, which is skipped. -/
  | unknown
  | uint
  /-- Bytes, of a length that fits the value made of them. -/
  | bytes (fits : Nat → Bool)
  | string
  | message (field : Nat → Kind)
  /-- A tag that the reader claims and has no case for. -/
  | unreachable

namespace Kind

def scan : Kind → (tag : Nat) → WireType → (ctx : Nat) → Scanner
  | unknown, tag, w, ctx => fun buf => forget (skipped w tag ctx () buf)
  | uint, _, w, _ => fun buf => forget (mergeVarint w buf)
  | bytes fits, _, w, _ => fun buf =>
    match mergeBytes w buf with
    | .error e => .error (trouble e)
    | .ok b => if fits b.1.length then .ok b.2 else .error .unfit
  | string, _, w, _ => fun buf => forget (mergeString w buf)
  | message field, _, w, ctx => scanNested (fun tag => (field tag).scan tag) w ctx
  | unreachable, _, _, _ => fun _ => .error .unfit

/-- Bytes of any length. -/
def anyBytes : Kind := bytes fun _ => true

def scanAll (field : Nat → Kind) : Scanner := fun buf =>
  scanLoop (fun tag => (field tag).scan tag) 100 0 buf.length buf

end Kind

/-! ## Scans come to an end -/

/-- The scan ends, with at most `n` bytes left. -/
def Settles (n : Nat) : Except Trouble (List UInt8) → Prop
  | .ok rest => rest.length ≤ n
  | .error t => t ≠ .endless

theorem Settles.mono {n m : Nat} {x : Except Trouble (List UInt8)} (h : Settles n x) (hn : n ≤ m) :
    Settles m x := by
  cases x with
  | error t => exact h
  | ok rest => exact Nat.le_trans h hn

theorem settles_failure {α : Type} (n : Nat) (e : DecodeError) :
    Settles n (forget (failure e : Except (Fail DecodeError) (α × List UInt8))) := by
  show Trouble.malformed e ≠ .endless
  simp

theorem Settles.bind {α β : Type} {n m : Nat} {x : Except (Fail DecodeError) (α × List UInt8)}
    {f : α × List UInt8 → Except (Fail DecodeError) (β × List UInt8)}
    (h : Settles n (forget x)) (hf : ∀ p, p.2.length ≤ n → Settles m (forget (f p))) :
    Settles m (forget (x >>= f)) := by
  cases x with
  | error e => exact h
  | ok p => exact hf p h

theorem settles_decodeVarintAux : ∀ (n value shift : Nat) (buf : List UInt8),
    Settles (buf.length - 1) (forget (decodeVarintAux n value shift buf))
  | 0, _, _, _ => settles_failure _ _
  | _ + 1, _, _, [] => settles_failure _ _
  | n + 1, value, shift, b :: rest => by
    unfold decodeVarintAux
    split
    · split
      · exact settles_failure _ _
      · exact Nat.le_refl rest.length
    · exact (settles_decodeVarintAux n _ _ rest).mono (by simp)

theorem settles_decodeVarint (buf : List UInt8) :
    Settles (buf.length - 1) (forget (decodeVarint buf)) :=
  settles_decodeVarintAux 10 0 0 buf

theorem settles_decodeKey (buf : List UInt8) :
    Settles (buf.length - 1) (forget (decodeKey buf)) := by
  refine (settles_decodeVarint buf).bind fun p hp => ?_
  dsimp only
  split
  · exact settles_failure _ _
  · split
    · exact settles_failure _ _
    · split
      · exact settles_failure _ _
      · exact hp

theorem pos_of_decodeKey {buf : List UInt8} {key : (Nat × WireType) × List UInt8}
    (h : decodeKey buf = .ok key) : 0 < buf.length := by
  cases buf with
  | nil => cases h
  | cons b buf => simp

theorem settles_skipBytes (n : Nat) (buf : List UInt8) :
    Settles buf.length (forget (skipBytes n buf)) := by
  unfold skipBytes
  split
  · exact settles_failure _ _
  · show (buf.drop n).length ≤ buf.length
    simp

theorem settles_mergeBytes (w : WireType) (buf : List UInt8) :
    Settles buf.length (forget (mergeBytes w buf)) := by
  unfold mergeBytes
  split
  · refine (settles_decodeVarint buf).bind fun p hp => ?_
    dsimp only
    split
    · exact settles_failure _ _
    · show (p.2.drop p.1).length ≤ buf.length
      simp only [List.length_drop]
      omega
  · exact settles_failure _ _

theorem settles_mergeString (w : WireType) (buf : List UInt8) :
    Settles buf.length (forget (mergeString w buf)) := by
  refine (settles_mergeBytes w buf).bind fun p hp => ?_
  dsimp only
  split
  · exact settles_failure _ _
  · exact hp

/-- Each call of `skipGroup` reads a key, and each call of `skipField` that reads nothing goes on
with `skipGroup`: twice the length of the buffer is enough. -/
theorem settles_skip (fuel : Nat) :
    (∀ w tag ctx (buf : List UInt8), 2 * buf.length + 2 ≤ fuel →
      Settles buf.length (forget (skipField fuel w tag ctx buf))) ∧
    (∀ tag ctx (buf : List UInt8), 2 * buf.length + 1 ≤ fuel →
      Settles buf.length (forget (skipGroup fuel tag ctx buf))) := by
  induction fuel with
  | zero =>
    constructor
    · intro w tag ctx buf h
      omega
    · intro tag ctx buf h
      omega
  | succ fuel ih =>
    obtain ⟨ihField, ihGroup⟩ := ih
    constructor
    · intro w tag ctx buf h
      unfold skipField
      split
      · exact settles_failure _ _
      · cases w with
        | varint =>
          refine (settles_decodeVarint buf).bind fun p hp => ?_
          show p.2.length ≤ buf.length
          omega
        | thirtyTwoBit => exact settles_skipBytes 4 buf
        | sixtyFourBit => exact settles_skipBytes 8 buf
        | lengthDelimited =>
          refine (settles_decodeVarint buf).bind fun p hp => ?_
          exact (settles_skipBytes p.1 p.2).mono (by omega)
        | startGroup => exact ihGroup tag ctx buf (by omega)
        | endGroup => exact settles_failure _ _
    · intro tag ctx buf h
      unfold skipGroup
      cases hkey : decodeKey buf with
      | error e =>
        have := settles_decodeKey buf
        rw [hkey] at this
        exact this
      | ok key =>
        have hpos := pos_of_decodeKey hkey
        have hkeyLen : key.2.length ≤ buf.length - 1 := by
          have := settles_decodeKey buf
          rw [hkey] at this
          exact this
        simp only [bind, Except.bind]
        split
        · split
          · show key.2.length ≤ buf.length
            omega
          · exact settles_failure _ _
        · refine Settles.bind (ihField key.1.2 key.1.1 (ctx - 1) key.2 (by omega)) fun p hp => ?_
          exact (ihGroup tag ctx p.2 (by omega)).mono (by omega)

theorem settles_skipped (w : WireType) (tag ctx : Nat) (buf : List UInt8) :
    Settles buf.length (forget (skipped w tag ctx () buf)) :=
  Settles.bind ((settles_skip _).1 w tag ctx buf (Nat.le_refl _)) fun _ hp => hp

section Loop

variable {field : Nat → WireType → Nat → Scanner}

theorem settles_scanLoop (hfield : ∀ tag w ctx buf, Settles buf.length (field tag w ctx buf))
    (ctx limit : Nat) : ∀ fuel (buf : List UInt8), buf.length ≤ fuel + limit →
      Settles buf.length (scanLoop field ctx limit fuel buf) := by
  intro fuel
  induction fuel with
  | zero =>
    intro buf hfuel
    unfold scanLoop
    rw [if_neg (by omega)]
    split
    · exact Nat.le_refl _
    · exact settles_failure (α := Unit) _ _
  | succ fuel ih =>
    intro buf hfuel
    unfold scanLoop
    split
    · have hsettles := settles_decodeKey buf
      cases hkey : decodeKey buf with
      | error e =>
        rw [hkey] at hsettles
        exact hsettles
      | ok key =>
        have hpos := pos_of_decodeKey hkey
        rw [hkey] at hsettles
        have hkeyLen : key.2.length ≤ buf.length - 1 := hsettles
        have hstep := hfield key.1.1 key.1.2 ctx key.2
        dsimp only
        cases hres : field key.1.1 key.1.2 ctx key.2 with
        | error t =>
          rw [hres] at hstep
          exact hstep
        | ok rest =>
          rw [hres] at hstep
          have hrest : rest.length ≤ key.2.length := hstep
          exact (ih rest (by omega)).mono (by omega)
    · split
      · exact Nat.le_refl _
      · exact settles_failure (α := Unit) _ _

theorem settles_scanNested (hfield : ∀ tag w ctx buf, Settles buf.length (field tag w ctx buf))
    (w : WireType) (ctx : Nat) (buf : List UInt8) :
    Settles buf.length (scanNested field w ctx buf) := by
  unfold scanNested
  split
  · exact settles_failure (α := Unit) _ _
  · split
    · exact settles_failure (α := Unit) _ _
    · have hsettles := settles_decodeVarint buf
      cases hlen : decodeVarint buf with
      | error e =>
        rw [hlen] at hsettles
        exact hsettles
      | ok len =>
        rw [hlen] at hsettles
        have hrest : len.2.length ≤ buf.length - 1 := hsettles
        dsimp only
        split
        · exact settles_failure (α := Unit) _ _
        · exact (settles_scanLoop hfield _ _ _ _ (by omega)).mono (by omega)

end Loop

/-- **A scan comes to an end**, whatever the schema and the buffer are. -/
theorem Kind.settles_scan (k : Kind) : ∀ tag w ctx (buf : List UInt8),
    Settles buf.length (k.scan tag w ctx buf) := by
  induction k with
  | unknown => exact fun tag w ctx buf => settles_skipped w tag ctx buf
  | uint =>
    intro tag w ctx buf
    show Settles _ (forget (mergeVarint w buf))
    unfold mergeVarint
    split
    · exact (settles_decodeVarint buf).mono (by omega)
    · exact settles_failure _ _
  | bytes fits =>
    intro tag w ctx buf
    have hsettles := settles_mergeBytes w buf
    unfold Kind.scan
    cases hb : mergeBytes w buf with
    | error e =>
      rw [hb] at hsettles
      exact hsettles
    | ok b =>
      rw [hb] at hsettles
      dsimp only
      split
      · exact hsettles
      · simp [Settles]
  | string => exact fun tag w ctx buf => settles_mergeString w buf
  | message field ih => exact fun tag w ctx buf => settles_scanNested (fun tag => ih tag tag) w ctx buf
  | unreachable =>
    intro tag w ctx buf
    simp [Kind.scan, Settles]

theorem Kind.settles_scanAll (field : Nat → Kind) (buf : List UInt8) :
    Settles buf.length (scanAll field buf) :=
  settles_scanLoop (fun tag => (field tag).settles_scan tag) _ _ _ _ (by omega)

/-! ## Readers that follow a schema -/

namespace Message

variable {α : Type} {m : Message α} {field : Nat → Kind}

/-- The reader goes through a buffer as the schema says, whatever the value so far is. -/
def Follows (m : Message α) (field : Nat → Kind) : Prop :=
  ∀ tag w ctx a buf, forget (m.mergeField tag w ctx a buf) = (field tag).scan tag w ctx buf

theorem Follows.mergeLoop (h : m.Follows field) (ctx limit : Nat) : ∀ fuel a buf,
    forget (m.mergeLoop ctx limit fuel a buf) =
      scanLoop (fun tag => (field tag).scan tag) ctx limit fuel buf := by
  intro fuel
  induction fuel with
  | zero =>
    intro a buf
    unfold Message.mergeLoop scanLoop
    split
    · rfl
    · split
      · rfl
      · rfl
  | succ fuel ih =>
    intro a buf
    unfold Message.mergeLoop scanLoop
    split
    · unfold Message.step
      cases decodeKey buf with
      | error e => rfl
      | ok key =>
        have hfield := h key.1.1 key.1.2 ctx a key.2
        simp only [bind, Except.bind]
        cases hres : m.mergeField key.1.1 key.1.2 ctx a key.2 with
        | error e =>
          rw [hres] at hfield
          rw [← hfield]
          rfl
        | ok p =>
          rw [hres] at hfield
          rw [← hfield]
          exact ih p.1 p.2
    · split
      · rfl
      · rfl

theorem Follows.merge (h : m.Follows field) (tag : Nat) (w : WireType) (ctx : Nat) (a : α)
    (buf : List UInt8) :
    forget (m.merge w ctx a buf) = (Kind.message field).scan tag w ctx buf := by
  unfold Message.merge Kind.scan scanNested
  split
  · rfl
  · split
    · rfl
    · cases decodeVarint buf with
      | error e => rfl
      | ok len =>
        simp only [bind, Except.bind]
        split
        · rfl
        · exact h.mergeLoop _ _ _ _ _

/-- **When a buffer is decoded or refused**: exactly if the scan meets nothing unfit. -/
theorem Follows.returns_decode_iff (h : m.Follows field) (buf : List UInt8) :
    ((∃ a, m.decode buf = .ok a) ∨ ∃ e, m.decode buf = .error (.err e)) ↔
      Kind.scanAll field buf ≠ .error .unfit := by
  have hscan : forget (m.mergeLoop 100 0 buf.length m.default buf) = Kind.scanAll field buf :=
    h.mergeLoop 100 0 buf.length m.default buf
  have hsettles := Kind.settles_scanAll field buf
  rw [← hscan] at hsettles ⊢
  unfold Message.decode
  generalize m.mergeLoop 100 0 buf.length m.default buf = res at hsettles ⊢
  cases res with
  | ok p => simp [bind, Except.bind, forget]
  | error e =>
    cases e with
    | err e => simp [bind, Except.bind, forget, trouble]
    | panic => simp [bind, Except.bind, forget, trouble]
    | diverge => exact absurd rfl hsettles

end Message

/-! ## The parts of a reader -/

section Parts

variable {α β : Type} {w : WireType} {ctx : Nat} {buf : List UInt8}

theorem forget_bind_ok (x : Except (Fail DecodeError) (α × List UInt8))
    {f : α × List UInt8 → Except (Fail DecodeError) (β × List UInt8)}
    (hf : ∀ p, forget (f p) = .ok p.2) : forget (x >>= f) = forget x := by
  cases x with
  | error e => rfl
  | ok p => exact hf p

theorem forget_unknown {kind : Kind} (h : kind = .unknown) (tag : Nat) (a : α) :
    forget (skipped w tag ctx a buf) = kind.scan tag w ctx buf := by
  subst h
  unfold Kind.scan skipped
  rw [forget_bind_ok _ fun _ => rfl, forget_bind_ok _ fun _ => rfl]

theorem forget_mergeBytes (tag : Nat) :
    forget (mergeBytes w buf) = Kind.anyBytes.scan tag w ctx buf := by
  unfold Kind.anyBytes Kind.scan
  cases mergeBytes w buf <;> rfl

/-- Bytes that are turned into a value if their length fits. -/
theorem forget_bind_fits {fits : Nat → Bool} (tag : Nat)
    {f : List UInt8 × List UInt8 → Except (Fail DecodeError) (α × List UInt8)}
    (hf : ∀ b, forget (f b) = if fits b.1.length then .ok b.2 else .error .unfit) :
    forget (mergeBytes w buf >>= f) = (Kind.bytes fits).scan tag w ctx buf := by
  unfold Kind.scan
  cases mergeBytes w buf with
  | error e => rfl
  | ok b => exact hf b

end Parts

end Lib.Protobuf
