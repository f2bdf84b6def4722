import Mathlib.Data.Nat.Log
import Mathlib.Tactic.Ring
import Uchain.Lib.Exec

/-!
# The protocol buffers wire format

Encoding and decoding as the `prost` library does them. A message is a sequence of fields, each a
key (a tag and a wire type) followed by a value. A nested message is written as its key, the varint
of the length it *announces* (`Message.encodedLen`) and its bytes (`Message.encodeRaw`); it is read
back by the announced length. Nothing checks that the two agree.

`mergeMessage_of_sound`: a nested message that announces its length and reads back field by field is
read back.
-/

namespace Lib.Protobuf

/-- Why a buffer is not a message. -/
inductive DecodeError where
  | invalidVarint
  | invalidKey
  | invalidTag
  | invalidWireType
  | unexpectedWireType
  | bufferUnderflow
  | lengthExceeded
  | invalidString
  | recursionLimit
  | unexpectedEndGroup
  deriving DecidableEq, Repr

abbrev Parser (α : Type) := List UInt8 → Except (Fail DecodeError) (α × List UInt8)

def failure {α : Type} (e : DecodeError) : Except (Fail DecodeError) α := .error (.err e)

/-! ## Varints -/

/-- The base-128 digits of `v`, at most `n` of them, with the continuation bit on all but the last. -/
def encodeVarintAux : Nat → Nat → List UInt8
  | 0, _ => []
  | n + 1, v =>
    if v < 0x80 then [UInt8.ofNat v]
    else UInt8.ofNat (v % 0x80 + 0x80) :: encodeVarintAux n (v / 0x80)

def encodeVarint (v : Nat) : List UInt8 := encodeVarintAux 10 v

/-- `n` more digits can be read; `value` and `shift` are those of the digits so far. -/
def decodeVarintAux : Nat → (value shift : Nat) → Parser Nat
  | 0, _, _, _ => failure .invalidVarint
  | _ + 1, _, _, [] => failure .invalidVarint
  | n + 1, value, shift, b :: rest =>
    let value := value + b.toNat % 0x80 * 2 ^ shift
    if b.toNat < 0x80 then
      -- the tenth digit of a `u64` is one bit
      if n = 0 ∧ 2 ≤ b.toNat then failure .invalidVarint else .ok (value, rest)
    else decodeVarintAux n value (shift + 7) rest

def decodeVarint : Parser Nat := decodeVarintAux 10 0 0

def encodedLenVarint (v : Nat) : Nat := (Nat.log2 (v ||| 1) * 9 + 73) / 64

theorem decodeVarintAux_encodeVarintAux (rest : List UInt8) : ∀ (n v value shift : Nat),
    n < 10 → v < 2 ^ (7 * n + 1) →
    decodeVarintAux (n + 1) value shift (encodeVarintAux (n + 1) v ++ rest) =
      .ok (value + v * 2 ^ shift, rest)
  | 0, v, value, shift, _, hv => by
    have hv : v < 2 := hv
    unfold encodeVarintAux decodeVarintAux
    rw [if_pos (by omega)]
    have hb : (UInt8.ofNat v).toNat = v := by
      rw [UInt8.toNat_ofNat']
      omega
    simp only [List.singleton_append, hb]
    rw [if_pos (by omega), if_neg (by omega), Nat.mod_eq_of_lt (by omega)]
  | n + 1, v, value, shift, hn, hv => by
    unfold encodeVarintAux decodeVarintAux
    by_cases h : v < 0x80
    · have hb : (UInt8.ofNat v).toNat = v := by
        rw [UInt8.toNat_ofNat']
        omega
      rw [if_pos h]
      simp only [List.singleton_append, hb]
      rw [if_pos h, if_neg (by omega), Nat.mod_eq_of_lt h]
    · have hb : (UInt8.ofNat (v % 0x80 + 0x80)).toNat = v % 0x80 + 0x80 := by
        rw [UInt8.toNat_ofNat']
        omega
      have hdiv : v / 0x80 < 2 ^ (7 * n + 1) := by
        rw [Nat.div_lt_iff_lt_mul (by decide)]
        calc v < 2 ^ (7 * (n + 1) + 1) := hv
          _ = 2 ^ (7 * n + 1) * 0x80 := by
            rw [show 7 * (n + 1) + 1 = 7 * n + 1 + 7 by omega, Nat.pow_add]
      rw [if_neg h]
      simp only [List.cons_append, hb]
      rw [if_neg (by omega), decodeVarintAux_encodeVarintAux rest n _ _ _ (by omega) hdiv]
      -- the digits before and after the shift add up to the value
      have hsum : value + (v % 0x80 + 0x80) % 0x80 * 2 ^ shift + v / 0x80 * 2 ^ (shift + 7) =
          value + v * 2 ^ shift := by
        have hmod : (v % 0x80 + 0x80) % 0x80 = v % 0x80 := by omega
        rw [hmod, Nat.pow_add, Nat.add_assoc]
        congr 1
        calc v % 0x80 * 2 ^ shift + v / 0x80 * (2 ^ shift * 2 ^ 7)
            = (v % 0x80 + v / 0x80 * 0x80) * 2 ^ shift := by ring
          _ = v * 2 ^ shift := by rw [Nat.mod_add_div']
      rw [hsum]

variable {v : Nat}

/-- **Varints read back.** -/
theorem decodeVarint_encodeVarint (h : v < 2 ^ 64) (rest : List UInt8) :
    decodeVarint (encodeVarint v ++ rest) = .ok (v, rest) := by
  have := decodeVarintAux_encodeVarintAux rest 9 v 0 0 (by decide) h
  rwa [Nat.zero_add, Nat.pow_zero, Nat.mul_one] at this

theorem length_encodeVarintAux : ∀ (n k v : Nat), k < n → v < 2 ^ (7 * (k + 1)) →
    (k = 0 ∨ 2 ^ (7 * k) ≤ v) → (encodeVarintAux n v).length = k + 1
  | n + 1, 0, v, _, hv, _ => by
    unfold encodeVarintAux
    rw [if_pos (by simpa using hv)]
    rfl
  | n + 1, k + 1, v, hk, hv, hle => by
    have hle : 2 ^ (7 * (k + 1)) ≤ v := by
      rcases hle with h | h
      · cases h
      · exact h
    have hpow : 2 ^ (7 * (k + 1)) = 2 ^ (7 * k) * 0x80 := by
      rw [show 7 * (k + 1) = 7 * k + 7 by omega, Nat.pow_add]
    have hpow' : 2 ^ (7 * (k + 1 + 1)) = 2 ^ (7 * (k + 1)) * 0x80 := by
      rw [show 7 * (k + 1 + 1) = 7 * (k + 1) + 7 by omega, Nat.pow_add]
    have hone : 0 < 2 ^ (7 * k) := Nat.two_pow_pos _
    unfold encodeVarintAux
    rw [if_neg (by omega), List.length_cons, length_encodeVarintAux n k (v / 0x80) (by omega)]
    · rw [Nat.div_lt_iff_lt_mul (by decide), ← hpow']
      exact hv
    · right
      rw [Nat.le_div_iff_mul_le (by decide), ← hpow]
      exact hle

theorem or_one (v : Nat) : v ||| 1 = 2 * (v / 2) + 1 := by
  apply Nat.eq_of_testBit_eq
  intro i
  rw [Nat.testBit_or]
  cases i with
  | zero => simp
  | succ i =>
    rw [Nat.testBit_succ, Nat.testBit_succ, Nat.testBit_succ]
    have : (2 * (v / 2) + 1) / 2 = v / 2 := by omega
    simp [this]

theorem length_encodeVarint (h : v < 2 ^ 64) :
    (encodeVarint v).length = encodedLenVarint v := by
  -- the number of digits, from the position of the highest bit
  have hor := or_one v
  have hlow : 2 ^ Nat.log2 (v ||| 1) ≤ v ||| 1 := Nat.log2_self_le (by omega)
  have hhigh : v ||| 1 < 2 ^ (Nat.log2 (v ||| 1) + 1) := Nat.lt_log2_self
  have hlog : Nat.log2 (v ||| 1) < 64 := by
    rw [Nat.log2_lt (by omega)]
    omega
  obtain ⟨k, hk⟩ : ∃ k, k = Nat.log2 (v ||| 1) / 7 := ⟨_, rfl⟩
  have hlt : v < 2 ^ (7 * (k + 1)) :=
    calc v < 2 ^ (Nat.log2 (v ||| 1) + 1) := by omega
      _ ≤ 2 ^ (7 * (k + 1)) := Nat.pow_le_pow_right (by decide) (by omega)
  have hge : k = 0 ∨ 2 ^ (7 * k) ≤ v := by
    rcases Nat.eq_zero_or_pos k with h0 | h0
    · exact .inl h0
    · right
      have heven : 2 ^ (7 * k) = 2 * 2 ^ (7 * k - 1) := by
        rw [← Nat.pow_succ', Nat.succ_eq_add_one, Nat.sub_add_cancel (by omega)]
      have hle : 2 ^ (7 * k) ≤ v ||| 1 :=
        le_trans (Nat.pow_le_pow_right (by decide) (by omega)) hlow
      -- an even bound on an odd number
      omega
  rw [encodeVarint, length_encodeVarintAux 10 k v (by omega) hlt hge, encodedLenVarint]
  omega

/-! ## Keys -/

inductive WireType where
  | varint
  | sixtyFourBit
  | lengthDelimited
  | startGroup
  | endGroup
  | thirtyTwoBit
  deriving DecidableEq, Repr

namespace WireType

def toNat : WireType → Nat
  | varint => 0
  | sixtyFourBit => 1
  | lengthDelimited => 2
  | startGroup => 3
  | endGroup => 4
  | thirtyTwoBit => 5

def ofNat? : Nat → Option WireType
  | 0 => some varint
  | 1 => some sixtyFourBit
  | 2 => some lengthDelimited
  | 3 => some startGroup
  | 4 => some endGroup
  | 5 => some thirtyTwoBit
  | _ => none

theorem ofNat?_toNat (w : WireType) : ofNat? w.toNat = some w := by cases w <;> rfl

theorem toNat_lt (w : WireType) : w.toNat < 8 := by cases w <;> decide

end WireType

def encodeKey (tag : Nat) (w : WireType) : List UInt8 := encodeVarint (tag * 8 + w.toNat)

def keyLen (tag : Nat) : Nat := encodedLenVarint (tag * 8)

def decodeKey : Parser (Nat × WireType) := fun buf => do
  let (key, buf) ← decodeVarint buf
  if 2 ^ 32 ≤ key then failure .invalidKey
  else match WireType.ofNat? (key % 8) with
    | none => failure .invalidWireType
    | some w => if key / 8 < 1 then failure .invalidTag else .ok ((key / 8, w), buf)

def Tag (tag : Nat) : Prop := 1 ≤ tag ∧ tag < 16

instance (tag : Nat) : Decidable (Tag tag) := inferInstanceAs (Decidable (_ ∧ _))

variable {tag : Nat}

theorem decodeKey_encodeKey (h : Tag tag) (w : WireType) (rest : List UInt8) :
    decodeKey (encodeKey tag w ++ rest) = .ok ((tag, w), rest) := by
  obtain ⟨h1, h16⟩ := h
  have hw := w.toNat_lt
  have hmod : (tag * 8 + w.toNat) % 8 = w.toNat := by omega
  have hdiv : (tag * 8 + w.toNat) / 8 = tag := by omega
  unfold decodeKey encodeKey
  rw [decodeVarint_encodeVarint (by omega)]
  simp only [bind, Except.bind, hmod, hdiv, WireType.ofNat?_toNat]
  rw [if_neg (by omega), if_neg (by omega)]

theorem length_encodeKey (h : Tag tag) (w : WireType) :
    (encodeKey tag w).length = keyLen tag := by
  obtain ⟨h1, h16⟩ := h
  have hw := w.toNat_lt
  have hone {v : Nat} (hv : v < 0x80) : encodedLenVarint v = 1 := by
    have hlen := length_encodeVarintAux 10 0 v (by decide) (by omega) (.inl rfl)
    rw [← length_encodeVarint (by omega)]
    exact hlen
  rw [encodeKey, keyLen, length_encodeVarint (by omega), hone (by omega), hone (by omega)]

theorem encodeKey_ne_nil (h : Tag tag) (w : WireType) : encodeKey tag w ≠ [] := by
  intro hnil
  have hlen := length_encodeKey h w
  rw [hnil] at hlen
  obtain ⟨h1, h16⟩ := h
  have : 1 ≤ keyLen tag := by
    unfold keyLen encodedLenVarint
    omega
  simp at hlen
  omega

/-! ## Values -/

def skipBytes (n : Nat) : Parser Unit := fun buf =>
  if buf.length < n then failure .bufferUnderflow else .ok ((), buf.drop n)

/-- A length and that many bytes. -/
def takeBytes : Parser (List UInt8) := fun buf => do
  let (len, buf) ← decodeVarint buf
  if buf.length < len then failure .bufferUnderflow else .ok (buf.take len, buf.drop len)

def mergeVarint (w : WireType) : Parser Nat := fun buf =>
  if w = .varint then decodeVarint buf else failure .unexpectedWireType

def mergeBytes (w : WireType) : Parser (List UInt8) := fun buf =>
  if w = .lengthDelimited then takeBytes buf else failure .unexpectedWireType

def mergeString (w : WireType) : Parser String := fun buf => do
  let (bytes, buf) ← mergeBytes w buf
  match String.fromUTF8? ⟨bytes.toArray⟩ with
  | none => failure .invalidString
  | some s => .ok (s, buf)

def stringBytes (s : String) : List UInt8 := s.toUTF8.data.toList

def encodeBytes (tag : Nat) (b : List UInt8) : List UInt8 :=
  encodeKey tag .lengthDelimited ++ (encodeVarint b.length ++ b)

def encodeUint (tag v : Nat) : List UInt8 := encodeKey tag .varint ++ encodeVarint v

def lenBytes (tag : Nat) (b : List UInt8) : Nat :=
  keyLen tag + (encodedLenVarint b.length + b.length)

def lenUint (tag v : Nat) : Nat := keyLen tag + encodedLenVarint v

/-- A number that is left out when it is zero. -/
def optUint (tag v : Nat) : List UInt8 := if v = 0 then [] else encodeUint tag v

def lenOptUint (tag v : Nat) : Nat := if v = 0 then 0 else lenUint tag v

/-- Bytes that are left out when there are none. -/
def optBytes (tag : Nat) (b : List UInt8) : List UInt8 :=
  if b.isEmpty then [] else encodeBytes tag b

def lenOptBytes (tag : Nat) (b : List UInt8) : Nat := if b.isEmpty then 0 else lenBytes tag b

variable {b : List UInt8}

theorem length_encodeBytes (h : Tag tag) (hb : b.length < 2 ^ 64) :
    (encodeBytes tag b).length = lenBytes tag b := by
  unfold encodeBytes lenBytes
  rw [List.length_append, List.length_append, length_encodeKey h, length_encodeVarint hb]

theorem length_le_encodeBytes (tag : Nat) (b : List UInt8) :
    b.length ≤ (encodeBytes tag b).length := by
  unfold encodeBytes
  simp only [List.length_append]
  omega

theorem length_le_optBytes (tag : Nat) (b : List UInt8) : b.length ≤ (optBytes tag b).length := by
  unfold optBytes
  split
  · rename_i hb
    rw [List.isEmpty_iff.1 hb]
  · exact length_le_encodeBytes tag b

theorem length_encodeUint (h : Tag tag) (hv : v < 2 ^ 64) :
    (encodeUint tag v).length = lenUint tag v := by
  unfold encodeUint lenUint
  rw [List.length_append, length_encodeKey h, length_encodeVarint hv]

theorem length_optUint (h : Tag tag) (hv : v < 2 ^ 64) :
    (optUint tag v).length = lenOptUint tag v := by
  unfold optUint lenOptUint
  split
  · rfl
  · exact length_encodeUint h hv

theorem length_optBytes (h : Tag tag) (hb : b.length < 2 ^ 64) :
    (optBytes tag b).length = lenOptBytes tag b := by
  unfold optBytes lenOptBytes
  split
  · rfl
  · exact length_encodeBytes h hb

theorem takeBytes_append (h : b.length < 2 ^ 64) (rest : List UInt8) :
    takeBytes (encodeVarint b.length ++ b ++ rest) = .ok (b, rest) := by
  unfold takeBytes
  rw [List.append_assoc, decodeVarint_encodeVarint h]
  simp [bind, Except.bind]

theorem fromUTF8?_stringBytes (s : String) :
    String.fromUTF8? ⟨(stringBytes s).toArray⟩ = some s := by
  have hbytes : (⟨(stringBytes s).toArray⟩ : ByteArray) = s.toUTF8 := by
    unfold stringBytes
    rw [Array.toArray_toList]
  rw [hbytes]
  unfold String.fromUTF8?
  rw [dif_pos (show s.toUTF8.IsValidUTF8 from s.isValidUTF8)]
  rfl

theorem mergeString_append {s : String} (h : (stringBytes s).length < 2 ^ 64) (rest : List UInt8) :
    mergeString .lengthDelimited (encodeVarint (stringBytes s).length ++ stringBytes s ++ rest) =
      .ok (s, rest) := by
  unfold mergeString mergeBytes
  rw [if_pos rfl, takeBytes_append h]
  simp only [bind, Except.bind, fromUTF8?_stringBytes]

/-! ## Unknown fields -/

mutual

/-- `skip_field`; `ctx` is how deep groups and messages may still be nested. -/
def skipField : (fuel : Nat) → WireType → (tag ctx : Nat) → Parser Unit
  | 0, _, _, _, _ => .error .diverge
  | fuel + 1, w, tag, ctx, buf =>
    if ctx = 0 then failure .recursionLimit
    else match w with
      | .varint => do
        let (_, buf) ← decodeVarint buf
        .ok ((), buf)
      | .thirtyTwoBit => skipBytes 4 buf
      | .sixtyFourBit => skipBytes 8 buf
      | .lengthDelimited => do
        let (len, buf) ← decodeVarint buf
        skipBytes len buf
      | .startGroup => skipGroup fuel tag ctx buf
      | .endGroup => failure .unexpectedEndGroup

/-- The fields of a group, up to the end of the group with the tag. -/
def skipGroup : (fuel tag ctx : Nat) → Parser Unit
  | 0, _, _, _ => .error .diverge
  | fuel + 1, tag, ctx, buf => do
    let ((innerTag, innerWire), buf) ← decodeKey buf
    if innerWire = .endGroup then
      if innerTag = tag then .ok ((), buf) else failure .unexpectedEndGroup
    else
      let (_, buf) ← skipField fuel innerWire innerTag (ctx - 1) buf
      skipGroup fuel tag ctx buf

end

/-- Skip a field and keep the value; each call consumes a byte or goes one group deeper. -/
def skipped {α : Type} (w : WireType) (tag ctx : Nat) (a : α) : Parser α := fun buf => do
  let (_, buf) ← skipField (2 * buf.length + 2) w tag ctx buf
  .ok (a, buf)

/-! ## Messages -/

/-- What a message type implements. -/
structure Message (α : Type) where
  default : α
  encodeRaw : α → List UInt8
  encodedLen : α → Nat
  mergeField : (tag : Nat) → WireType → (ctx : Nat) → α → Parser α

namespace Message

variable {α : Type} (m : Message α)

def step (ctx : Nat) (a : α) : Parser α := fun buf => do
  let ((tag, w), buf) ← decodeKey buf
  m.mergeField tag w ctx a buf

/-- `merge_loop`: fields, until `limit` bytes are left. -/
def mergeLoop (ctx limit : Nat) : (fuel : Nat) → α → Parser α
  | fuel, a, buf =>
    if limit < buf.length then
      match fuel with
      | 0 => .error .diverge
      | fuel + 1 => do
        let (a, buf) ← m.step ctx a buf
        mergeLoop ctx limit fuel a buf
    else if buf.length = limit then .ok (a, buf)
    else failure .lengthExceeded

/-- `message::merge`: a nested message, into `a`. -/
def merge (w : WireType) (ctx : Nat) (a : α) : Parser α := fun buf =>
  if w ≠ .lengthDelimited then failure .unexpectedWireType
  else if ctx = 0 then failure .recursionLimit
  else do
    let (len, buf) ← decodeVarint buf
    if buf.length < len then failure .bufferUnderflow
    else m.mergeLoop (ctx - 1) (buf.length - len) buf.length a buf

def encodeField (tag : Nat) (a : α) : List UInt8 :=
  encodeKey tag .lengthDelimited ++ (encodeVarint (m.encodedLen a) ++ m.encodeRaw a)

def lenField (tag : Nat) (a : α) : Nat :=
  keyLen tag + (encodedLenVarint (m.encodedLen a) + m.encodedLen a)

def encode (a : α) : List UInt8 := m.encodeRaw a

/-- `Message::decode`: all fields of a buffer. The nesting is limited to 100. -/
def decode (buf : List UInt8) : Except (Fail DecodeError) α := do
  let (a, _) ← m.mergeLoop 100 0 buf.length m.default buf
  .ok a

variable {m} {ctx : Nat} {a a' a'' : α} {b b' : List UInt8}

/-- Field by field, the bytes take the value `a` to `a'`. -/
inductive Reads (m : Message α) (ctx : Nat) : α → List UInt8 → α → Prop where
  | nil (a : α) : Reads m ctx a [] a
  | cons {a a' a'' : α} {b b' : List UInt8} (ne : b ≠ [])
      (step : ∀ rest, m.step ctx a (b ++ rest) = .ok (a', rest)) (reads : Reads m ctx a' b' a'') :
      Reads m ctx a (b ++ b') a''

theorem Reads.trans (h : Reads m ctx a b a') (h' : Reads m ctx a' b' a'') :
    Reads m ctx a (b ++ b') a'' := by
  induction h with
  | nil => exact h'
  | cons ne step _ ih =>
    rw [List.append_assoc]
    exact .cons ne step (ih h')

theorem mergeLoop_of_reads (h : Reads m ctx a b a') (rest : List UInt8) :
    ∀ {fuel : Nat}, b.length ≤ fuel →
      m.mergeLoop ctx rest.length fuel a (b ++ rest) = .ok (a', rest) := by
  induction h with
  | nil a =>
    intro fuel _
    unfold mergeLoop
    rw [List.nil_append, if_neg (Nat.lt_irrefl _), if_pos rfl]
  | @cons a a₁ a₂ b b' ne step reads ih =>
    intro fuel hfuel
    have hb : 0 < b.length := List.length_pos_iff.2 ne
    rw [List.length_append] at hfuel
    obtain ⟨fuel, rfl⟩ : ∃ n, fuel = n + 1 := ⟨fuel - 1, by omega⟩
    unfold mergeLoop
    rw [if_pos (by simp only [List.length_append]; omega), List.append_assoc, step]
    exact ih (by omega)

theorem mergeLoop_ne_ok_of_step {limit : Nat} {buf : List UInt8} (hlimit : limit < buf.length)
    (h : ∀ x, m.step ctx a buf ≠ .ok x) : ∀ fuel x, m.mergeLoop ctx limit fuel a buf ≠ .ok x := by
  intro fuel x
  unfold mergeLoop
  rw [if_pos hlimit]
  cases fuel with
  | zero => nofun
  | succ fuel =>
    cases hstep : m.step ctx a buf with
    | error e =>
      simp only [bind, Except.bind]
      nofun
    | ok y => exact absurd hstep (h y)

theorem mergeLoop_ne_ok_of_reads {limit : Nat} {rest : List UInt8} (hlimit : limit ≤ rest.length)
    (hreads : Reads m ctx a b a') (h : ∀ fuel x, m.mergeLoop ctx limit fuel a' rest ≠ .ok x) :
    ∀ fuel x, m.mergeLoop ctx limit fuel a (b ++ rest) ≠ .ok x := by
  induction hreads with
  | nil => exact h
  | @cons a a₁ a₂ b b' ne step _ ih =>
    intro fuel x
    have hb : 0 < b.length := List.length_pos_iff.2 ne
    unfold mergeLoop
    rw [if_pos (by simp only [List.length_append]; omega)]
    cases fuel with
    | zero => nofun
    | succ fuel =>
      rw [List.append_assoc]
      simp only [step, bind, Except.bind]
      exact ih h fuel x

variable {tag : Nat}

theorem step_encodeKey (h : Tag tag) (w : WireType) (rest : List UInt8) :
    m.step ctx a (encodeKey tag w ++ rest) = m.mergeField tag w ctx a rest := by
  unfold step
  rw [decodeKey_encodeKey h]
  rfl

theorem Reads.field {w : WireType} (h : Tag tag)
    (hmerge : ∀ rest, m.mergeField tag w ctx a (b ++ rest) = .ok (a', rest)) :
    Reads m ctx a (encodeKey tag w ++ b) a' := by
  have hreads : Reads m ctx a ((encodeKey tag w ++ b) ++ []) a' := by
    refine .cons ?_ (fun rest => ?_) (.nil _)
    · exact fun hnil => encodeKey_ne_nil h w (List.append_eq_nil_iff.1 hnil).1
    · rw [List.append_assoc, step_encodeKey h]
      exact hmerge rest
  rwa [List.append_nil] at hreads

theorem Reads.optUint {v : Nat} (h : Tag tag) (hzero : v = 0 → a' = a)
    (hmerge : ∀ rest, m.mergeField tag .varint ctx a (encodeVarint v ++ rest) = .ok (a', rest)) :
    Reads m ctx a (Protobuf.optUint tag v) a' := by
  unfold Protobuf.optUint
  split
  · rename_i hv
    rw [hzero hv]
    exact .nil a
  · exact .field h hmerge

theorem Reads.optBytes {bytes : List UInt8} (h : Tag tag) (hnil : bytes = [] → a' = a)
    (hmerge : ∀ rest, m.mergeField tag .lengthDelimited ctx a (encodeVarint bytes.length ++ bytes ++ rest) = .ok (a', rest))
    :
    Reads m ctx a (Protobuf.optBytes tag bytes) a' := by
  unfold Protobuf.optBytes
  split
  · rename_i hb
    rw [hnil (List.isEmpty_iff.1 hb)]
    exact .nil a
  · exact .field h hmerge

/-- The value announces its length and reads back, in `d` levels of nesting. -/
structure Sound (m : Message α) (d : Nat) (a : α) : Prop where
  length : m.encodedLen a = (m.encodeRaw a).length
  reads : ∀ ctx, d ≤ ctx → m.Reads ctx m.default (m.encodeRaw a) a

variable {d : Nat}

/-- **A nested message reads back.** -/
theorem Sound.merge (h : m.Sound d a) (hctx : d < ctx) (hsize : (m.encodeRaw a).length < 2 ^ 64)
    (rest : List UInt8) :
    m.merge .lengthDelimited ctx m.default
      (encodeVarint (m.encodedLen a) ++ m.encodeRaw a ++ rest) = .ok (a, rest) := by
  unfold Message.merge
  rw [if_neg (by simp), if_neg (by omega), List.append_assoc, h.length,
    decodeVarint_encodeVarint hsize]
  have hlimit : (m.encodeRaw a ++ rest).length - (m.encodeRaw a).length = rest.length := by
    simp
  simp only [bind, Except.bind]
  rw [if_neg (by simp), hlimit]
  exact mergeLoop_of_reads (h.reads _ (by omega)) rest (by simp)

theorem Sound.field {β : Type} {p : Message β} {x y : β} (h : m.Sound d a) (htag : Tag tag)
    (hctx : d < ctx) (hsize : (m.encodeRaw a).length < 2 ^ 64)
    (hmerge : ∀ buf rest, m.merge .lengthDelimited ctx m.default buf = .ok (a, rest) → p.mergeField tag .lengthDelimited ctx x buf = .ok (y, rest))
    :
    Reads p ctx x (m.encodeField tag a) y :=
  Reads.field htag fun rest => hmerge _ rest (h.merge hctx hsize rest)

theorem length_le_encodeField (m : Message α) (tag : Nat) (a : α) :
    (m.encodeRaw a).length ≤ (m.encodeField tag a).length := by
  unfold encodeField
  simp only [List.length_append]
  omega

theorem Sound.length_encodeField (h : m.Sound d a) (htag : Tag tag)
    (hsize : (m.encodeRaw a).length < 2 ^ 64) :
    (m.encodeField tag a).length = m.lenField tag a := by
  unfold encodeField lenField
  rw [List.length_append, List.length_append, length_encodeKey htag,
    length_encodeVarint (by rw [h.length]; exact hsize), h.length]

/-! ### Fields of a record

`put` sets the field; what `mergeField` does with it is a reader and then `put`. -/

section Put

variable {tag : Nat} (htag : Tag tag)

include htag

theorem Reads.varint {κ : Type} {n : Nat} {x : κ} (put : κ → α) (ofNat : Nat → κ) (hn : n < 2 ^ 64)
    (hx : ofNat n = x) (hzero : n = 0 → put x = a) (hmerge : ∀ buf, m.mergeField tag .varint ctx a buf =
      mergeVarint .varint buf >>= fun r => .ok (put (ofNat r.1), r.2)) :
    Reads m ctx a (Protobuf.optUint tag n) (put x) := by
  refine .optUint htag hzero fun rest => ?_
  have hread : mergeVarint .varint (encodeVarint n ++ rest) = .ok (n, rest) :=
    decodeVarint_encodeVarint hn rest
  rw [hmerge, hread, ← hx]
  rfl

theorem Reads.uint64 {x : UInt64} (put : UInt64 → α) (hzero : put 0 = a)
    (hmerge : ∀ buf, m.mergeField tag .varint ctx a buf =
      mergeVarint .varint buf >>= fun r => .ok (put (.ofNat r.1), r.2)) :
    Reads m ctx a (Protobuf.optUint tag x.toNat) (put x) := by
  refine .varint htag put .ofNat x.toNat_lt UInt64.ofNat_toNat (fun hx => ?_) hmerge
  rw [show x = 0 from UInt64.toNat_inj.1 hx, hzero]

theorem Reads.uint32 {x : UInt32} (put : UInt32 → α) (hzero : put 0 = a)
    (hmerge : ∀ buf, m.mergeField tag .varint ctx a buf =
      mergeVarint .varint buf >>= fun r => .ok (put (.ofNat r.1), r.2)) :
    Reads m ctx a (Protobuf.optUint tag x.toNat) (put x) := by
  refine .varint htag put .ofNat (lt_trans x.toNat_lt (by decide)) UInt32.ofNat_toNat (fun hx => ?_) hmerge
  rw [show x = 0 from UInt32.toNat_inj.1 hx, hzero]

theorem Reads.bytes {x : List UInt8} (put : List UInt8 → α) (hx : x.length < 2 ^ 64) (hnil : put [] = a)
    (hmerge : ∀ buf, m.mergeField tag .lengthDelimited ctx a buf =
      mergeBytes .lengthDelimited buf >>= fun r => .ok (put r.1, r.2)) :
    Reads m ctx a (Protobuf.optBytes tag x) (put x) := by
  refine .optBytes htag (fun h => by rw [h, hnil]) fun rest => ?_
  have hread : mergeBytes .lengthDelimited (encodeVarint x.length ++ x ++ rest) = .ok (x, rest) :=
    takeBytes_append hx rest
  rw [hmerge, hread]
  rfl

theorem Sound.put {β : Type} {p : Message β} {d : Nat} {x : β} (put : α → β) (h : m.Sound d a)
    (hctx : d < ctx) (hsize : (m.encodeRaw a).length < 2 ^ 64)
    (hmerge : ∀ buf, p.mergeField tag .lengthDelimited ctx x buf =
      m.merge .lengthDelimited ctx m.default buf >>= fun r => .ok (put r.1, r.2)) :
    Reads p ctx x (m.encodeField tag a) (put a) := by
  refine h.field htag hctx hsize fun buf rest hbuf => ?_
  rw [hmerge, hbuf]
  rfl

end Put

end Message

end Lib.Protobuf
