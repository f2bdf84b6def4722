import Mathlib.Tactic.Ring
import Uchain.Primitives.Hex

/-!
# Hexadecimal texts, read back

Both conversions are compared through the number that digits spell (`hexValue`).

* `encode_skip`, `hex_round_trips_iff`: which byte strings read back. Leading zero bytes are lost, and the
  text of an array starts with a marker that its reader does not know.
-/

namespace Uchain

theorem ofBeBytes_zeros : ∀ n : Nat, ofBeBytes (List.replicate n 0) = 0
  | 0 => rfl
  | n + 1 => by
    rw [List.replicate_succ, ofBeBytes, ofBeBytes_zeros n]
    simp

namespace Hex

open Lib

/-! ## Digits -/

def IsDigits (v : Bytes) : Prop := ∀ b ∈ v, (digit? b).isSome = true

def hexValue : Bytes → Nat
  | [] => 0
  | b :: v => ((digit? b).getD 0).toNat * 16 ^ v.length + hexValue v

theorem digit?_lt {b d : UInt8} (h : digit? b = some d) : d.toNat < 16 := by
  have hall : ∀ n < 256, ((digit? (UInt8.ofNat n)).getD 0).toNat < 16 := by decide +kernel
  have hb := hall b.toNat b.toNat_lt
  rwa [UInt8.ofNat_toNat, h, Option.getD_some] at hb

theorem digit?_charAt {i : UInt8} (h : i.toNat < 16) : digit? (charAt i) = some i := by
  have hall : ∀ n < 16, digit? (charAt (UInt8.ofNat n)) = some (UInt8.ofNat n) := by decide
  have hi := hall i.toNat h
  rwa [UInt8.ofNat_toNat] at hi

theorem hexValue_lt : ∀ {v : Bytes}, IsDigits v → hexValue v < 16 ^ v.length
  | [], _ => Nat.one_pos
  | b :: v, h => by
    obtain ⟨d, hd⟩ := Option.isSome_iff_exists.1 (h b List.mem_cons_self)
    have hlt := digit?_lt hd
    have hrest := hexValue_lt fun c hc => h c (List.mem_cons_of_mem _ hc)
    rw [hexValue, hd, Option.getD_some, List.length_cons, pow_succ]
    calc d.toNat * 16 ^ v.length + hexValue v
        < d.toNat * 16 ^ v.length + 16 ^ v.length := by omega
      _ = (d.toNat + 1) * 16 ^ v.length := (Nat.succ_mul _ _).symm
      _ ≤ 16 * 16 ^ v.length := Nat.mul_le_mul_right _ hlt
      _ = 16 ^ v.length * 16 := Nat.mul_comm _ _

theorem toNat_shift_or (buf : UInt8) {d : UInt8} (hd : d.toNat < 16) :
    (buf <<< 4 ||| d).toNat = buf.toNat % 16 * 16 + d.toNat := by
  have hbuf := buf.toNat_lt
  have hshift : (buf <<< 4).toNat = (buf.toNat % 16) <<< 4 := by
    rw [UInt8.toNat_shiftLeft, Nat.shiftLeft_eq, Nat.shiftLeft_eq]
    simp
    omega
  rw [UInt8.toNat_or, hshift, ← Nat.shiftLeft_add_eq_or_of_lt hd, Nat.shiftLeft_eq]

/-! ## Decoding -/

/-- The loop over digits: what is left of `bytes` is filled, and the whole spells the number of the bytes
before, the digit that waits for its second one, and the digits. -/
theorem decodeLoop_digits (stripped : Bool) : ∀ (v : Bytes) (index modulus : Nat) (buf : UInt8) (pos : Nat)
    (bytes : Bytes), IsDigits v → modulus < 2 → 2 * bytes.length = 2 * pos + modulus + v.length →
      ∃ out, decodeLoop stripped v index modulus buf pos bytes = .ok (bytes.length, out) ∧
        out.length = bytes.length ∧
        ofBeBytes out = (ofBeBytes (bytes.take pos) * 16 ^ modulus + modulus * (buf.toNat % 16)) *
          16 ^ v.length + hexValue v
  | [], index, modulus, buf, pos, bytes, _, hmodulus, hlen => by
    have hzero : modulus = 0 := by
      rw [List.length_nil] at hlen
      omega
    have hpos : pos = bytes.length := by
      rw [List.length_nil] at hlen
      omega
    subst hzero hpos
    exact ⟨bytes, rfl, rfl, by simp [hexValue]⟩
  | byte :: v, index, modulus, buf, pos, bytes, hdigits, hmodulus, hlen => by
    obtain ⟨d, hd⟩ := Option.isSome_iff_exists.1 (hdigits byte List.mem_cons_self)
    have hrest : IsDigits v := fun c hc => hdigits c (List.mem_cons_of_mem _ hc)
    have hbuf := toNat_shift_or buf (digit?_lt hd)
    have hlt := digit?_lt hd
    rw [List.length_cons] at hlen
    rw [decodeLoop]
    simp only [hd, hexValue, Option.getD_some, List.length_cons, pow_succ]
    by_cases hsecond : modulus = 1
    · -- the second digit of a byte
      subst hsecond
      have hpos : pos < bytes.length := by omega
      rw [if_pos rfl, if_pos hpos]
      obtain ⟨out, hrun, hout, hvalue⟩ := decodeLoop_digits stripped v (index + 1) 0 (buf <<< 4 ||| d)
        (pos + 1) (bytes.set pos (buf <<< 4 ||| d)) hrest (by decide) (by rw [List.length_set]; omega)
      rw [List.length_set] at hrun hout
      refine ⟨out, hrun, hout, ?_⟩
      have htake : (bytes.set pos (buf <<< 4 ||| d)).take (pos + 1) =
          bytes.take pos ++ [buf <<< 4 ||| d] := by
        rw [List.take_succ_eq_append_getElem (by rw [List.length_set]; exact hpos), List.take_set_of_le (le_refl _),
          List.getElem_set_self]
      rw [hvalue, htake, ofBeBytes_append]
      simp only [ofBeBytes, List.length_singleton, List.length_nil, hbuf]
      ring
    · have hzero : modulus = 0 := by omega
      subst hzero
      rw [if_neg (by decide)]
      obtain ⟨out, hrun, hout, hvalue⟩ := decodeLoop_digits stripped v (index + 1) 1 (buf <<< 4 ||| d) pos
        bytes hrest (by decide) (by omega)
      refine ⟨out, hrun, hout, ?_⟩
      rw [hvalue, hbuf, Nat.mul_add_mod', Nat.mod_eq_of_lt hlt]
      ring

theorem strip_digits {v : Bytes} (h : IsDigits v) : strip v = (v, false) := by
  unfold strip
  rw [if_neg ?_]
  intro hmarker
  have hx : (120 : UInt8) ∈ v := by
    have hmem : (120 : UInt8) ∈ v.take 2 := by
      rw [hmarker]
      decide
    exact List.mem_of_mem_take hmem
  exact absurd (h 120 hx) (by decide)

theorem strip_marker (v : Bytes) : strip (marker ++ v) = (v, true) := if_pos rfl

/-- What may stand before digits. -/
def lead (marked : Bool) : Bytes := if marked then marker else []

/-- **A text of digits** decodes to the bytes of its number. -/
theorem decode_digits {v : Bytes} (h : IsDigits v) (marked : Bool) :
    ∃ out, decode (lead marked ++ v) = .ok out ∧ out.length = (v.length + 1) / 2 ∧
      ofBeBytes out = hexValue v := by
  have hstrip : strip (lead marked ++ v) = (v, marked) := by
    cases marked with
    | false => exact strip_digits h
    | true => exact strip_marker v
  obtain ⟨out, hrun, hlen, hvalue⟩ := decodeLoop_digits marked v 0 (v.length % 2) 0 0
    (List.replicate ((v.length + 1) / 2) 0) h (Nat.mod_lt _ (by decide))
    (by rw [List.length_replicate]; omega)
  refine ⟨out, ?_, ?_, ?_⟩
  · unfold decode decodeToSlice
    rw [hstrip]
    dsimp only
    rw [hrun]
    rfl
  · rw [hlen, List.length_replicate]
  · rw [hvalue]
    simp [ofBeBytes]

/-! ## Encoding -/

def pair (b : UInt8) : Bytes := [charAt (b >>> 4), charAt (b &&& 0xf)]

theorem toNat_high (b : UInt8) : (b >>> 4).toNat = b.toNat / 16 := by
  rw [UInt8.toNat_shiftRight, Nat.shiftRight_eq_div_pow]
  rfl

theorem toNat_low (b : UInt8) : (b &&& 0xf).toNat = b.toNat % 16 := by
  rw [UInt8.toNat_and]
  exact Nat.and_two_pow_sub_one_eq_mod b.toNat 4

theorem digit?_high (b : UInt8) : digit? (charAt (b >>> 4)) = some (b >>> 4) := by
  have hb := b.toNat_lt
  refine digit?_charAt ?_
  rw [toNat_high]
  omega

theorem digit?_low (b : UInt8) : digit? (charAt (b &&& 0xf)) = some (b &&& 0xf) := by
  refine digit?_charAt ?_
  rw [toNat_low]
  omega

theorem length_pairs (b : Bytes) : (b.flatMap pair).length = 2 * b.length := by
  induction b with
  | nil => rfl
  | cons x b ih =>
    rw [List.flatMap_cons, List.length_append, ih, List.length_cons]
    show 2 + 2 * b.length = _
    omega

theorem isDigits_pairs (b : Bytes) : IsDigits (b.flatMap pair) := by
  intro c hc
  obtain ⟨x, -, hx⟩ := List.mem_flatMap.1 hc
  simp only [pair, List.mem_cons, List.not_mem_nil, or_false] at hx
  rcases hx with rfl | rfl
  · rw [digit?_high]
    rfl
  · rw [digit?_low]
    rfl

theorem hexValue_pairs : ∀ b : Bytes, hexValue (b.flatMap pair) = ofBeBytes b
  | [] => rfl
  | x :: b => by
    have hpow : 16 ^ (b.flatMap pair).length = 256 ^ b.length := by
      rw [length_pairs, pow_mul]
      rfl
    have hx := Nat.div_add_mod' x.toNat 16
    show hexValue (charAt (x >>> 4) :: charAt (x &&& 0xf) :: b.flatMap pair) = _
    rw [hexValue, hexValue, digit?_high, digit?_low, hexValue_pairs b, ofBeBytes, List.length_cons, pow_succ,
      hpow, Option.getD_some, Option.getD_some, toNat_high, toNat_low]
    calc x.toNat / 16 * (256 ^ b.length * 16) + (x.toNat % 16 * 256 ^ b.length + ofBeBytes b)
        = (x.toNat / 16 * 16 + x.toNat % 16) * 256 ^ b.length + ofBeBytes b := by ring
      _ = x.toNat * 256 ^ b.length + ofBeBytes b := by rw [hx]

theorem encodeToSlice_cons (first : UInt8) (rest : Bytes) (skip : Bool) :
    encodeToSlice (List.replicate (((first :: rest).length + 1) * 2) 0) (first :: rest) skip =
      .ok (marker ++ ((if first >>> 4 ≠ 0 ∨ !skip then [charAt (first >>> 4)] else []) ++
        charAt (first &&& 0xf) :: rest.flatMap pair)) := by
  unfold encodeToSlice
  rw [if_pos (by rw [List.length_replicate]; omega)]
  simp only [List.append_assoc]
  rfl

/-- The text of a byte string whose first byte is not zero: its digits, of which the first is not zero
either. -/
theorem encode_skip {first : UInt8} (rest : Bytes) (h : first ≠ 0) : ∃ digits,
    encode (first :: rest) true = .ok (marker ++ digits) ∧ IsDigits digits ∧
      hexValue digits = ofBeBytes (first :: rest) ∧
      (digits.length + 1) / 2 = (first :: rest).length := by
  have hdrop : (first :: rest).dropWhile (· == 0) = first :: rest :=
    List.dropWhile_cons_of_neg (by simpa using h)
  have hall := isDigits_pairs (first :: rest)
  have hvalue := hexValue_pairs (first :: rest)
  have hlen := length_pairs (first :: rest)
  have hrun : encode (first :: rest) true = .ok (marker ++
      ((if first >>> 4 ≠ 0 then [charAt (first >>> 4)] else []) ++
        charAt (first &&& 0xf) :: rest.flatMap pair)) := by
    unfold encode
    simp only [if_true, hdrop, List.isEmpty_cons, Bool.false_eq_true, if_false]
    rw [encodeToSlice_cons]
    simp
  by_cases hzero : first >>> 4 = 0
  · -- the first digit is zero, and left out
    rw [if_neg (not_not.2 hzero), List.nil_append] at hrun
    have hskip : (first :: rest).flatMap pair = charAt (first >>> 4) ::
        (charAt (first &&& 0xf) :: rest.flatMap pair) := rfl
    rw [hskip] at hall hvalue hlen
    refine ⟨_, hrun, fun c hc => hall c (List.mem_cons_of_mem _ hc), ?_, ?_⟩
    · rw [hexValue, digit?_high, hzero] at hvalue
      rw [← hvalue]
      simp
    · rw [List.length_cons] at hlen
      omega
  · rw [if_pos hzero] at hrun
    refine ⟨(first :: rest).flatMap pair, hrun, hall, hvalue, ?_⟩
    omega

/-! ## Byte strings -/

theorem encode_of_dropWhile {b : Bytes} {first : UInt8} {rest : Bytes}
    (h : b.dropWhile (· == 0) = first :: rest) :
    first ≠ 0 ∧ encode b true = encode (first :: rest) true := by
  have hne : first ≠ 0 := by
    have hhead := List.head?_dropWhile_not (· == 0) b
    rw [h] at hhead
    simpa using hhead
  refine ⟨hne, ?_⟩
  unfold encode
  simp only [if_true]
  rw [h, List.dropWhile_cons_of_neg (by simpa using hne)]

/-- The text of a vector: the digits of its number, and so without its leading zeros. -/
theorem decode_encode_skip (b : Bytes) : ∃ text, encode b true = .ok text ∧
    decode text = .ok (if b.dropWhile (· == 0) = [] then [0] else b.dropWhile (· == 0)) := by
  cases hrest : b.dropWhile (· == 0) with
  | nil =>
    refine ⟨marker ++ [48], ?_, by decide⟩
    unfold encode
    rw [if_pos rfl, hrest]
    rfl
  | cons first rest =>
    obtain ⟨hne, hsame⟩ := encode_of_dropWhile hrest
    obtain ⟨digits, hrun, hdigits, hvalue, hlen⟩ := encode_skip rest hne
    obtain ⟨out, hdecode, hout, hnum⟩ := decode_digits hdigits true
    refine ⟨_, hsame.trans hrun, ?_⟩
    rw [if_neg (List.cons_ne_nil _ _), ← ofBeBytes_inj (hout.trans hlen) (hnum.trans hvalue)]
    exact hdecode

theorem decodeToSlice_marker (text bytes : Bytes) (heven : text.length % 2 = 0) :
    decodeToSlice (marker ++ text) bytes false = .error (.err (.invalidHex 'x' 1)) := by
  have hmodulus : (marker ++ text).length % 2 = 0 := by
    rw [List.length_append]
    show (2 + text.length) % 2 = 0
    omega
  unfold decodeToSlice
  rw [hmodulus]
  rfl

/-- **Which byte strings read back** from their hexadecimal text: vectors without a leading zero byte, and
the vector of one zero byte. No array does. -/
theorem hex_round_trips_iff (x : HexBytes) :
    (x.encodeHex >>= x.fromHex) = .ok x.bytes ↔
      ∃ b, x = .vec b ∧ (b = [0] ∨ ∃ first rest, b = first :: rest ∧ first ≠ 0) := by
  cases x with
  | vec b =>
    obtain ⟨text, htext, hback⟩ := decode_encode_skip b
    have hrun : ((HexBytes.vec b).encodeHex >>= (HexBytes.vec b).fromHex) =
        .ok (if b.dropWhile (· == 0) = [] then [0] else b.dropWhile (· == 0)) := by
      rw [← hback]
      show (encode b true >>= decode) = _
      rw [htext]
      rfl
    rw [hrun]
    show Except.ok _ = Except.ok b ↔ _
    rw [Except.ok.injEq]
    have hvec : (∃ c, HexBytes.vec b = .vec c ∧
        (c = [0] ∨ ∃ first rest, c = first :: rest ∧ first ≠ 0)) ↔
        (b = [0] ∨ ∃ first rest, b = first :: rest ∧ first ≠ 0) :=
      ⟨fun ⟨c, hc, h⟩ => HexBytes.vec.inj hc ▸ h, fun h => ⟨b, rfl, h⟩⟩
    rw [hvec]
    cases b with
    | nil => simp
    | cons first rest =>
      by_cases hzero : first = 0
      · subst hzero
        rw [List.dropWhile_cons_of_pos (by simp)]
        have hle := (List.dropWhile_sublist (l := rest) (· == 0)).length_le
        cases hrest : rest.dropWhile (· == 0) with
        | nil => simp [eq_comm]
        | cons c cs =>
          rw [if_neg (List.cons_ne_nil _ _)]
          refine iff_of_false (fun h => ?_) ?_
          · rw [hrest, h, List.length_cons] at hle
            omega
          · rintro (h | ⟨first, rest', h, hne⟩)
            · cases h
              cases hrest
            · cases h
              exact hne rfl
      · rw [List.dropWhile_cons_of_neg (by simpa using hzero), if_neg (List.cons_ne_nil _ _)]
        exact iff_of_true rfl (.inr ⟨first, rest, rfl, hzero⟩)
  | array b size =>
    have hrun : ((HexBytes.array b size).encodeHex >>= (HexBytes.array b size).fromHex) =
        .error (.err (.invalidHex 'x' 1)) := by
      cases b with
      | nil => exact absurd size (by decide)
      | cons first rest =>
        have htext : encode (first :: rest) false = .ok (marker ++ (first :: rest).flatMap pair) := by
          unfold encode
          simp only [Bool.false_eq_true, if_false, List.isEmpty_cons]
          rw [encodeToSlice_cons]
          simp [pair]
        have hrefused := decodeToSlice_marker ((first :: rest).flatMap pair)
          (List.replicate (first :: rest).length 0) (by rw [length_pairs]; omega)
        show (encode (first :: rest) false >>= (HexBytes.array (first :: rest) size).fromHex) = _
        rw [htext]
        show (decodeToSlice (marker ++ (first :: rest).flatMap pair) _ false >>= _) = _
        rw [hrefused]
        rfl
    rw [hrun]
    refine iff_of_false (fun h => by cases h) ?_
    rintro ⟨c, hc, -⟩
    cases hc

/-- The empty vector, one that starts with a zero byte, and an array. -/
theorem hex_round_trip_fails :
    ((HexBytes.vec []).encodeHex >>= (HexBytes.vec []).fromHex) = .ok [0] ∧
      ((HexBytes.vec [0, 1]).encodeHex >>= (HexBytes.vec [0, 1]).fromHex) = .ok [1] ∧
      ((HexBytes.array [1, 2] (by decide)).encodeHex >>= (HexBytes.array [1, 2] (by decide)).fromHex) =
        .error (.err (.invalidHex 'x' 1)) := by
  decide

/-! ## Integers -/

theorem fillLoop_eq : ∀ (iter : Bytes) (i : Nat) (raw : Bytes), i + iter.length = raw.length →
    fillLoop iter.length i iter raw = .ok (raw.take i ++ iter)
  | [], i, raw, h => by
    rw [List.append_nil, List.take_of_length_le (by simp at h; omega)]
    rfl
  | byte :: iter, i, raw, h => by
    rw [List.length_cons] at h
    have hi : i < raw.length := by omega
    rw [List.length_cons, fillLoop, if_pos hi,
      fillLoop_eq iter (i + 1) (raw.set i byte) (by rw [List.length_set]; omega),
      List.take_succ_eq_append_getElem (by rw [List.length_set]; exact hi), List.take_set_of_le (le_refl _),
      List.getElem_set_self, List.append_assoc]
    rfl

/-- Digits that fit the width are read, however the arithmetic is. -/
theorem fromHex_digits (checked : Bool) (w : Width) (marked : Bool) {digits : Bytes}
    (h : IsDigits digits) (hlen : digits.length ≤ 2 * w.len) :
    w.fromHex checked (lead marked ++ digits) = .ok (hexValue digits) := by
  obtain ⟨decoded, hdecode, hlength, hvalue⟩ := decode_digits h marked
  have hle : decoded.length ≤ w.len := by omega
  have hstart : startIndex checked w.len decoded.length = .ok (w.len - decoded.length) := if_pos hle
  have hfill : fillLoop (w.len - (w.len - decoded.length)) (w.len - decoded.length) decoded
      (List.replicate w.len 0) = .ok (List.replicate (w.len - decoded.length) 0 ++ decoded) := by
    have hrun := fillLoop_eq decoded (w.len - decoded.length) (List.replicate w.len 0)
      (by rw [List.length_replicate]; omega)
    rw [List.take_replicate, Nat.min_eq_left (Nat.sub_le _ _)] at hrun
    rwa [Nat.sub_sub_self hle]
  unfold Width.fromHex
  rw [hdecode]
  show (startIndex checked w.len decoded.length >>= _) = _
  rw [hstart]
  show (fillLoop _ _ _ _ >>= _) = _
  rw [hfill]
  show Except.ok (ofBeBytes _) = _
  rw [ofBeBytes_append, ofBeBytes_zeros, Nat.zero_mul, Nat.zero_add, hvalue]

/-- More digits than the width has make the subtraction of the lengths underflow. -/
theorem fromHex_checked (w : Width) (marked : Bool) {digits : Bytes} (h : IsDigits digits)
    (hlen : 2 * w.len < digits.length) :
    w.fromHex true (lead marked ++ digits) = .error .panic := by
  obtain ⟨decoded, hdecode, hlength, -⟩ := decode_digits h marked
  have hstart : startIndex true w.len decoded.length = .error .panic := by
    unfold startIndex
    rw [if_neg (by omega), if_pos rfl]
  unfold Width.fromHex
  rw [hdecode]
  show (startIndex true w.len decoded.length >>= _) = _
  rw [hstart]
  rfl

/-- The result is the number of the digits if it fits the width, and an error otherwise. -/
def Exact (w : Width) (digits : Bytes) (res : R Nat) : Prop :=
  (hexValue digits < 256 ^ w.len → res = .ok (hexValue digits)) ∧
    (256 ^ w.len ≤ hexValue digits → ∃ e, res = .error (.err e))

/-- **Which texts of integers are read**, with checked arithmetic and without: those with at most as many
digits as the width has. -/
theorem fromHex_exact_iff (w : Width) (marked : Bool) {digits : Bytes} (h : IsDigits digits) :
    (∀ checked, Exact w digits (w.fromHex checked (lead marked ++ digits))) ↔
      digits.length ≤ 2 * w.len := by
  constructor
  · intro hexact
    by_contra hlen
    have hpanic := fromHex_checked w marked h (Nat.lt_of_not_le hlen)
    obtain ⟨hfits, herr⟩ := hexact true
    rw [hpanic] at hfits herr
    rcases Nat.lt_or_ge (hexValue digits) (256 ^ w.len) with hlt | hge
    · cases hfits hlt
    · obtain ⟨e, he⟩ := herr hge
      cases he
  · intro hlen checked
    refine ⟨fun _ => fromHex_digits checked w marked h hlen, fun hge => ?_⟩
    have hlt := hexValue_lt h
    have hpow : 16 ^ digits.length ≤ 256 ^ w.len := by
      calc 16 ^ digits.length ≤ 16 ^ (2 * w.len) := Nat.pow_le_pow_right (by decide) hlen
        _ = 256 ^ w.len := by rw [pow_mul]; rfl
    omega

theorem fromHex_exact_iff_u16 :
    IsDigits [49, 50, 102] ∧ ∀ checked, Exact .u16 [49, 50, 102] (Width.u16.fromHex checked
      (lead true ++ [49, 50, 102])) :=
  have hdigits : IsDigits [49, 50, 102] := List.all_eq_true.1 (by decide)
  ⟨hdigits, (fromHex_exact_iff .u16 true hdigits).2 (by decide)⟩

/-- `0x0ff` and `0x100` as a `u8`: a panic, or zero. -/
theorem fromHex_too_long :
    Width.u8.fromHex true (marker ++ [48, 102, 102]) = .error .panic ∧
      Width.u8.fromHex false (marker ++ [48, 102, 102]) = .ok 0 ∧
      Width.u8.fromHex false (marker ++ [49, 48, 48]) = .ok 0 := by
  decide

theorem ofBeBytes_dropWhile : ∀ b : Bytes, ofBeBytes (b.dropWhile (· == 0)) = ofBeBytes b
  | [] => rfl
  | x :: b => by
    by_cases hx : x = 0
    · rw [List.dropWhile_cons_of_pos (by simpa using hx), ofBeBytes_dropWhile b, ofBeBytes, hx]
      simp
    · rw [List.dropWhile_cons_of_neg (by simpa using hx)]

theorem encodeHex_eq (w : Width) (x : Nat) : w.encodeHex x = encode (beBytes w.len x) true := by
  have huint (b : Bytes) : encodeUint b = encode b true := by
    unfold encodeUint
    cases hrest : b.dropWhile (· == 0) with
    | nil =>
      unfold encode
      simp [hrest]
    | cons first rest =>
      dsimp only
      rw [List.isEmpty_cons, if_neg Bool.false_ne_true]
      exact (encode_of_dropWhile hrest).2.symm
  cases w with
  | U128 | U192 | U256 => rfl
  | _ => exact huint _

/-- **Integers read back.** -/
theorem fromHex_encodeHex (checked : Bool) (w : Width) {x : Nat} (hx : x < 256 ^ w.len) :
    (w.encodeHex x >>= w.fromHex checked) = .ok x := by
  have hvalue : ofBeBytes (beBytes w.len x) = x := by
    rw [ofBeBytes_beBytes, Nat.mod_eq_of_lt hx]
  rw [encodeHex_eq]
  cases hrest : (beBytes w.len x).dropWhile (· == 0) with
  | nil =>
    have hzero : x = 0 := by
      rw [← hvalue, ← ofBeBytes_dropWhile, hrest]
      rfl
    have htext : encode (beBytes w.len x) true = .ok (lead true ++ [48]) := by
      unfold encode
      simp only [if_true, hrest]
      rfl
    rw [htext, hzero]
    have hdigit : IsDigits [48] := List.all_eq_true.1 (by decide)
    exact fromHex_digits checked w true hdigit (by cases w <;> decide)
  | cons first rest =>
    obtain ⟨hne, hsame⟩ := encode_of_dropWhile hrest
    obtain ⟨digits, hrun, hdigits, hnum, hlen⟩ := encode_skip rest hne
    have hle := (List.dropWhile_sublist (l := beBytes w.len x) (· == 0)).length_le
    rw [hrest, length_beBytes] at hle
    rw [hsame, hrun, ← hvalue, ← ofBeBytes_dropWhile, hrest, ← hnum]
    exact fromHex_digits checked w true hdigits (by omega)

/-- An odd number of digits: `0x12c`. -/
theorem fromHex_encodeHex_u16 :
    300 < 256 ^ Width.u16.len ∧ (Width.u16.encodeHex 300 >>= Width.u16.fromHex true) = .ok 300 :=
  have hlt : 300 < 256 ^ Width.u16.len := by decide
  ⟨hlt, fromHex_encodeHex true .u16 hlt⟩

end Hex

end Uchain
