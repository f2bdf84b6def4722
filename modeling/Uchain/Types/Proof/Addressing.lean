import Uchain.Types.Addressing
import Uchain.Types.Proof.Bech32

/-!
# Addresses tell their payload

* `addressWith_ok`: a payload of 20 bytes has an address on every network.
* `PackageName.packageId_eq`: a package id is the hash of what the last join hashes.
-/

namespace Uchain

open Lib
open Lib.Protobuf (stringBytes fromUTF8?_stringBytes)

/-! ## Texts of ASCII characters -/

theorem stringBytes_ofList (l : List Char) :
    stringBytes (String.ofList l) = l.flatMap String.utf8EncodeChar := by
  unfold stringBytes
  simp [String.toUTF8, List.utf8Encode]

theorem length_stringBytes_ascii {l : List Char} (h : ∀ c ∈ l, c.val.toNat ≤ 127) :
    (stringBytes (String.ofList l)).length = l.length := by
  rw [stringBytes_ofList]
  induction l with
  | nil => rfl
  | cons c l ih =>
    have hc : String.utf8EncodeChar c = [UInt8.ofNat c.val.toNat] := by
      unfold String.utf8EncodeChar
      exact if_pos (h c List.mem_cons_self)
    rw [List.flatMap_cons, hc, List.length_append, List.length_singleton, List.length_cons,
      ih fun c hc => h c (List.mem_cons_of_mem _ hc), Nat.add_comm]

theorem Bech32.toChar_ascii (v : Bech32.U5) : (Bech32.toChar v).val.toNat ≤ 127 := by
  have hall : ∀ v : Bech32.U5, (Bech32.toChar v).val.toNat ≤ 127 := by decide +kernel
  exact hall v

/-! ## Addresses -/

theorem Network.checkHrp_hrp (network : Network) : Bech32.checkHrp network.hrp = .ok .lower := by
  cases network <;> decide +kernel

theorem Network.hrp_ascii (network : Network) :
    network.hrp.toList.length = 5 ∧ ∀ c ∈ network.hrp.toList, c.val.toNat ≤ 127 := by
  cases network <;> simp [hrp]

theorem length_payload [Crypto] (hash : H256) : (payload hash).length = 20 := by
  rw [payload, List.length_drop, FixedBytes.length_bytes]

/-- The address of a payload of 20 bytes, and what its text says. -/
theorem address_eq {b : Bytes} (h : b.length = 20) (network : Network) : ∃ text, ∃ a : Address,
    Bech32.encode network.hrp (Bech32.toBase32 b) .bech32m = .ok text ∧
      (stringBytes text).length = addressLen ∧
      addressWith b network = .ok a ∧ addressOf b network = .ok a ∧
      a.decode = some (network.hrp, Bech32.toBase32 b, .bech32m) := by
  obtain ⟨text, htext, hdecode, hchars⟩ :=
    Bech32.decode_encode network.checkHrp_hrp (by decide) (Bech32.toBase32 b) .bech32m
  have hlen : (stringBytes text).length = addressLen := by
    obtain ⟨hhrp, hascii⟩ := network.hrp_ascii
    rw [← String.ofList_toList (s := text), length_stringBytes_ascii, hchars]
    · simp only [List.length_append, List.length_cons, List.length_map, hhrp,
        Bech32.length_checksum, Bech32.length_toBase32, h]
      decide
    · intro c hc
      rw [hchars, List.mem_append, List.mem_cons] at hc
      rcases hc with hc | rfl | hc
      · exact hascii c hc
      · decide
      · obtain ⟨v, -, rfl⟩ := List.mem_map.1 hc
        exact Bech32.toChar_ascii v
  obtain ⟨a, hslice, ha⟩ : ∃ a : Address,
    FixedBytes.fromSlice? addressLen (stringBytes text) = some a ∧ a.bytes = stringBytes text :=
    FixedBytes.exists_fromSlice? hlen
  refine ⟨text, a, htext, hlen, ?_, ?_, ?_⟩
  · rw [addressWith, htext]
    dsimp only
    rw [List.take_of_length_le (le_of_eq hlen), hslice]
  · rw [addressOf, htext]
    dsimp only
    rw [hslice]
  · unfold Address.decode
    rw [ha, fromUTF8?_stringBytes]
    dsimp only
    rw [hdecode]
    rfl

theorem addressWith_ok {b : Bytes} (h : b.length = 20) (network : Network) :
    ∃ address, addressWith b network = .ok address := by
  obtain ⟨_, a, _, _, ha, _⟩ := address_eq h network
  exact ⟨a, ha⟩

theorem Network.hrp_injective : Function.Injective Network.hrp := by
  have hall : ∀ n n' : Network, n.hrp = n'.hrp → n = n' := by
    intro n n'
    cases n <;> cases n' <;> decide
  exact fun n n' => hall n n'

/-- **Addresses tell their payload** and their network. -/
theorem addressWith_inj {b b' : Bytes} (h : b.length = 20) (h' : b'.length = 20)
    {network network' : Network} (he : addressWith b network = addressWith b' network') :
    b = b' ∧ network = network' := by
  obtain ⟨_, a, _, _, ha, _, hdecode⟩ := address_eq h network
  obtain ⟨_, a', _, _, ha', _, hdecode'⟩ := address_eq h' network'
  rw [ha, ha'] at he
  obtain rfl := Except.ok.inj he
  rw [hdecode] at hdecode'
  obtain ⟨hhrp, hdata, -⟩ := Prod.mk.inj (Option.some.inj hdecode') |>.imp id Prod.mk.inj
  exact ⟨Bech32.toBase32_injective hdata, Network.hrp_injective hhrp⟩

/-- **Addresses read back.** The text of a payload of 20 bytes has the length of an address, whose
network and payload are those it was made of; addresses of other payloads or networks differ. -/
theorem address_reads_back [Crypto] (p : FixedBytes 20) (network : Network) :
    ∃ text, ∃ a : Address,
      Bech32.encode network.hrp (Bech32.toBase32 p.bytes) .bech32m = .ok text ∧
      (stringBytes text).length = addressLen ∧
      (∀ pubKey : PublicKey, payload pubKey.hash = p.bytes →
        getAddressFromPubKey pubKey network = .ok a) ∧
      (∀ seed, payload (Crypto.keccak256 seed) = p.bytes →
        getAddressFromSeed seed network = .ok a) ∧
      a.isValid = true ∧ a.network = some network ∧ a.toAddress20 = .ok (some p) ∧
      ∀ (p' : FixedBytes 20) network', addressWith p'.bytes network' = .ok a →
        p' = p ∧ network' = network := by
  obtain ⟨text, a, htext, hlen, hwith, hof, hdecode⟩ := address_eq p.length_bytes network
  refine ⟨text, a, htext, hlen, ?_, ?_, ?_, ?_, ?_, ?_⟩
  · intro pubKey hkey
    rw [getAddressFromPubKey, hkey, hof]
  · intro seed hseed
    rw [getAddressFromSeed, hseed, hwith]
  · rw [Address.isValid, hdecode]
    dsimp only
    cases network <;> decide
  · rw [Address.network, Address.hrp, hdecode]
    cases network <;> rfl
  · rw [Address.toAddress20, hdecode]
    dsimp only
    rw [Bech32.convertBits_toBase32]
    dsimp only
    rw [FixedBytes.fromSlice?_bytes]
  · intro p' network' he
    obtain ⟨hp, hnetwork⟩ := addressWith_inj p'.length_bytes p.length_bytes (he.trans hwith.symm)
    exact ⟨FixedBytes.bytes_injective hp, hnetwork⟩

/-! ## Texts that are addresses -/

section Parse

variable {ε : Type}

/-- Parsing a text ends in a value or an error, and a value is a bech32 text of the length of an
address, byte for byte. -/
def ParsesTotally (parse : String → Except (Fail ε) Address) (s : String) : Prop :=
  parse s ≠ .error .panic ∧ parse s ≠ .error .diverge ∧
    ∀ a, parse s = .ok a → (∃ parts, Bech32.decode s = .ok parts) ∧
      (stringBytes s).length = addressLen ∧ a.bytes = stringBytes s

/-- The length test compares the complement of the length, so it finds nothing. -/
theorem parseAddress_eq (invalidLength : Nat → ε) (custom : Bech32.Error → ε) {s : String}
    (hlen : (stringBytes s).length < 2 ^ 63) : parseAddress invalidLength custom s =
      match Bech32.decode s with
      | .error e => .error (.err (custom e))
      | .ok _ =>
        match FixedBytes.fromSlice? addressLen (stringBytes s) with
        | none => .error .panic
        | some bytes => .ok bytes := by
  refine if_neg fun h => ?_
  have hnat := congrArg UInt64.toNat h
  rw [UInt64.toNat_not, UInt64.toNat_ofNat', Nat.mod_eq_of_lt (by omega)] at hnat
  have hsize : UInt64.size = 2 ^ 64 := rfl
  have haddress : (UInt64.ofNat addressLen).toNat = 44 := rfl
  omega

theorem parsesTotally_iff (invalidLength : Nat → ε) (custom : Bech32.Error → ε) {s : String}
    (hlen : (stringBytes s).length < 2 ^ 63) :
    ParsesTotally (parseAddress invalidLength custom) s ↔
      (stringBytes s).length = addressLen ∨ ∀ parts, Bech32.decode s ≠ .ok parts := by
  rw [ParsesTotally, parseAddress_eq invalidLength custom hlen]
  cases hdecode : Bech32.decode s with
  | error e => simp
  | ok parts =>
    dsimp only
    by_cases hsize : (stringBytes s).length = addressLen
    · obtain ⟨a, hslice, ha⟩ := FixedBytes.exists_fromSlice? hsize
      rw [hslice]
      refine iff_of_true ⟨by simp, by simp, ?_⟩ (.inl hsize)
      rintro _ ⟨⟩
      exact ⟨⟨parts, rfl⟩, hsize, ha⟩
    · rw [FixedBytes.fromSlice?, if_neg hsize]
      simp [hsize]

end Parse

/-- **When parsing an address is total**: for texts of the length of an address, and for texts that
are not bech32. -/
theorem parse_total_iff (s : String) (hlen : (stringBytes s).length < 2 ^ 63) :
    (ParsesTotally Address.fromStr s ∧ ParsesTotally AddressVisitor.visitStr s) ↔
      (stringBytes s).length = addressLen ∨ ∀ parts, Bech32.decode s ≠ .ok parts := by
  have hstr := parsesTotally_iff (fun _ => .invalidLength) id hlen
  have hvisit := parsesTotally_iff VisitError.invalidLength .custom hlen
  exact ⟨fun h => hstr.1 h.1, fun h => ⟨hstr.2 h, hvisit.2 h⟩⟩

theorem parse_total_empty : ParsesTotally Address.fromStr "" ∧
    ParsesTotally AddressVisitor.visitStr "" :=
  (parse_total_iff "" (by decide)).2 (.inr fun parts h => nomatch h)

/-- The bech32 text of an empty data behind "a" is valid, and both parsers panic on it. -/
theorem parse_panics : (Bech32.decode "a12uel5l").toOption = some ("a", [], .bech32) ∧
    Address.fromStr "a12uel5l" = .error .panic ∧
    AddressVisitor.visitStr "a12uel5l" = .error .panic := by
  decide +kernel

/-! ## Package names -/

namespace PackageName

variable [Crypto]

/-- What the last join of a package's parts hashes. -/
def lastInput (parts : List String) : Bytes :=
  joined (((parts.drop 2).dropLast.map hashPart).foldl join (organisation parts))
    (hashPart (parts.getLastD ""))

omit [Crypto] in
theorem parts_length {s : String} {l : List String} (h : parts s = .ok l) : 3 ≤ l.length := by
  unfold parts at h
  split at h
  · cases h
  · dsimp only at h
    split at h
    · cases h
    · rename_i hlen
      split at h
      · cases h
      · split at h
        · cases h
        · cases h
          omega

theorem packageId_eq {s : String} {l : List String} (h : parts s = .ok l) :
    ∃ package, parse s = .ok package ∧ package.packageId = Crypto.keccak256 (lastInput l) := by
  have hlen := parts_length h
  rw [parse, h]
  refine ⟨_, rfl, ?_⟩
  have hne : l.drop 2 ≠ [] := by
    intro hnil
    have := congrArg List.length hnil
    rw [List.length_drop, List.length_nil] at this
    omega
  have hlast : (l.drop 2).getLast hne = l.getLastD "" := by
    rw [List.getLast_drop, List.getLastD_eq_getLast?, List.getLast?_eq_some_getLast (by
      intro hnil
      rw [hnil] at hlen
      exact absurd hlen (by decide))]
    rfl
  dsimp only
  rw [lastInput, ← hlast]
  nth_rewrite 1 [← List.dropLast_append_getLast hne]
  rw [List.map_append, List.foldl_append]
  rfl

end PackageName

end Uchain
