import Uchain.Types.Sample

/-!
# What a signature is over

`Transaction::pack` writes the fixed-width fields, a tag for the kind of payload, and the payload
without lengths. The name and the binary of a `create` run into each other: moving bytes from one to
the other gives another transaction with the same packing, and so the same signatures.
-/

namespace Uchain

open Lib.Protobuf (stringBytes)

namespace Transaction

/-- The two payloads pack alike: they are equal, or two `create`s whose names and binaries have the
same concatenation. -/
def SamePacking : Option TransactionData → Option TransactionData → Prop
  | some (.create a), some (.create b) =>
    stringBytes a.packageName ++ a.binary = stringBytes b.packageName ++ b.binary
  | a, b => a = b

theorem tag_append_inj {t t' : UInt32} {x y : Bytes} (h : toBeBytes32 t ++ x = toBeBytes32 t' ++ y) :
    t = t' ∧ x = y := by
  obtain ⟨ht, hx⟩ := List.append_inj h (by simp)
  exact ⟨toBeBytes32_injective ht, hx⟩

/-- The tag of a kind of payload. -/
def kind : TransactionData → UInt32
  | .payment _ => 1
  | .call _ => 2
  | .create _ => 3
  | .update _ => 4
  | .rawData _ => 5

/-- What follows the tag. -/
def body : TransactionData → Bytes
  | .payment recipient => recipient.bytes
  | .call v => v.appId.bytes ++ (toBeBytes64 v.service ++ (toBeBytes64 v.method ++ v.args))
  | .create v => stringBytes v.packageName ++ v.binary
  | .update v => v.appId.bytes ++ ([if v.migrate then 1 else 0] ++ v.binary)
  | .rawData v => v

theorem packData_eq (d : TransactionData) : packData d = toBeBytes32 (kind d) ++ body d := by
  cases d <;> simp [packData, kind, body]

theorem samePacking_of_body {d d' : TransactionData} (hk : kind d = kind d') (hb : body d = body d') :
    SamePacking (some d) (some d') := by
  cases d <;> cases d' <;> first | (simp [kind] at hk; done) | skip
  case payment a b =>
    cases FixedBytes.bytes_injective hb
    rfl
  case call a b =>
    obtain ⟨h₁, hb⟩ := List.append_inj hb (by simp)
    obtain ⟨h₂, hb⟩ := List.append_inj hb (by simp)
    obtain ⟨h₃, h₄⟩ := List.append_inj hb (by simp)
    cases a
    cases b
    cases FixedBytes.bytes_injective h₁
    cases toBeBytes64_injective h₂
    cases toBeBytes64_injective h₃
    cases h₄
    rfl
  case create a b => exact hb
  case update a b =>
    obtain ⟨h₁, hb⟩ := List.append_inj hb (by simp)
    obtain ⟨h₂, h₃⟩ := List.append_inj hb (by simp)
    have hmigrate : a.migrate = b.migrate := by
      cases ha : a.migrate <;> cases hb : b.migrate <;> simp [ha, hb] at h₂ ⊢
    cases a
    cases b
    cases FixedBytes.bytes_injective h₁
    cases h₃
    cases hmigrate
    rfl
  case rawData a b =>
    cases show a = b from hb
    rfl

theorem body_of_samePacking {d d' : TransactionData} (h : SamePacking (some d) (some d')) :
    kind d = kind d' ∧ body d = body d' := by
  cases d <;> cases d' <;> first | exact ⟨rfl, h⟩ | cases h
  all_goals exact ⟨rfl, rfl⟩

theorem samePacking_iff {d d' : Option TransactionData} :
    (d.map packData).getD [] = (d'.map packData).getD [] ↔ SamePacking d d' := by
  cases d with
  | none =>
    cases d' with
    | none => simp [SamePacking]
    | some d' => simp [SamePacking, packData_eq, toBeBytes32, beBytes]
  | some d =>
    cases d' with
    | none => cases d <;> simp [SamePacking, packData_eq, toBeBytes32, beBytes]
    | some d' =>
      simp only [Option.map_some, Option.getD_some, packData_eq]
      constructor
      · intro h
        obtain ⟨hk, hb⟩ := tag_append_inj h
        exact samePacking_of_body hk hb
      · intro h
        obtain ⟨hk, hb⟩ := body_of_samePacking h
        rw [hk, hb]

/-- **Two transactions pack alike** if their fields are equal and their payloads pack alike. -/
theorem pack_eq_iff {t t' : Transaction} : t.pack = t'.pack ↔
    (t.nonce = t'.nonce ∧ t.chainId = t'.chainId ∧ t.genesisHash = t'.genesisHash ∧
      t.fee = t'.fee ∧ t.value = t'.value) ∧ SamePacking t.data t'.data := by
  rw [← samePacking_iff]
  constructor
  · intro h
    unfold pack at h
    simp only [List.append_assoc] at h
    obtain ⟨h₁, h⟩ := List.append_inj h (by simp)
    obtain ⟨h₂, h⟩ := List.append_inj h (by simp)
    obtain ⟨h₃, h⟩ := List.append_inj h (by simp)
    obtain ⟨h₄, h⟩ := List.append_inj h (by simp)
    obtain ⟨h₅, h₆⟩ := List.append_inj h (by simp)
    exact ⟨⟨toBeBytes64_injective h₁, toBeBytes32_injective h₂, FixedBytes.bytes_injective h₃,
      toBeBytes64_injective h₄, toBeBytes64_injective h₅⟩, h₆⟩
  · intro ⟨⟨h₁, h₂, h₃, h₄, h₅⟩, h₆⟩
    unfold pack
    rw [h₁, h₂, h₃, h₄, h₅, h₆]

theorem ext_fields {t t' : Transaction} (h : t.nonce = t'.nonce ∧ t.chainId = t'.chainId ∧
    t.genesisHash = t'.genesisHash ∧ t.fee = t'.fee ∧ t.value = t'.value) (hd : t.data = t'.data) :
    t = t' := by
  obtain ⟨h₁, h₂, h₃, h₄, h₅⟩ := h
  cases t
  cases t'
  simp_all

/-- Only the empty name is spelled by the front of the binary, and that is the name. -/
def NameFixed (c : CreateApplication) : Prop :=
  c.packageName = "" ∧ ∀ name : String, stringBytes name <+: c.binary → name = ""

/-- **Which transactions share their packing with no other**: all but those that create an
application and whose name, or a name at the front of the binary, is not empty. -/
theorem pack_unambiguous_iff (t : Transaction) : (∀ t' : Transaction, t.pack = t'.pack → t = t') ↔
    ∀ c, t.data = some (.create c) → NameFixed c := by
  constructor
  · intro h c hc
    -- the transaction with another split of the same bytes
    have hsplit (name : String) (binary : Bytes)
        (he : stringBytes c.packageName ++ c.binary = stringBytes name ++ binary) :
        c = ⟨name, binary⟩ := by
      have := h { t with data := some (.create ⟨name, binary⟩) }
        (pack_eq_iff.2 ⟨⟨rfl, rfl, rfl, rfl, rfl⟩, by rw [hc]; exact he⟩)
      rw [this] at hc
      exact ((TransactionData.create.injEq _ _).mp (Option.some.inj hc)).symm
    have hname : c.packageName = "" := by
      have := hsplit "" (stringBytes c.packageName ++ c.binary) rfl
      rw [this]
    refine ⟨hname, fun name hpre => ?_⟩
    obtain ⟨binary, hb⟩ := hpre
    have := hsplit name binary (by rw [hname, hb]; rfl)
    rw [this] at hname
    exact hname
  · intro h t' hpack
    obtain ⟨hfields, hdata⟩ := pack_eq_iff.1 hpack
    refine ext_fields hfields ?_
    cases ht : t.data with
    | none =>
      rw [ht] at hdata
      exact hdata
    | some d =>
      rw [ht] at hdata
      cases ht' : t'.data with
      | none =>
        rw [ht'] at hdata
        cases d <;> exact absurd hdata (by simp [SamePacking])
      | some d' =>
        rw [ht'] at hdata
        obtain ⟨hk, hb⟩ := body_of_samePacking hdata
        cases d <;> cases d' <;> first | (simp [kind] at hk; done) | exact hdata | skip
        rename_i c c'
        obtain ⟨hname, hpre⟩ := h c ht
        have he : stringBytes c.packageName ++ c.binary =
          stringBytes c'.packageName ++ c'.binary := hb
        rw [hname] at he
        have hname' : c'.packageName = "" := hpre _ ⟨c'.binary, he.symm⟩
        rw [hname'] at he
        cases c
        cases c'
        cases hname
        cases hname'
        cases he
        rfl

/-- An application `a` with the binary `b c`, and an application `ab` with the binary `c`. -/
theorem pack_ambiguous :
    let t (name : String) (binary : Bytes) : Transaction :=
      ⟨1, 0, .zero, 1, 0, some (.create ⟨name, binary⟩)⟩
    (t "a" [0x62, 0x63]).pack = (t "ab" [0x63]).pack ∧ t "a" [0x62, 0x63] ≠ t "ab" [0x63] := by
  decide +kernel

end Transaction

/-! ## Identity and signer -/

section Identity

variable [Crypto]

namespace SignedTransaction

end SignedTransaction

end Identity

namespace SignedTransaction

open Sample

end SignedTransaction

end Uchain
