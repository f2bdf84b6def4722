import Uchain.Lib.BTreeMap
import Uchain.Types.Tx

/-!
# A concrete instance

Stand-ins for what the model takes as parameters, so that it can be run: a multiplicative checksum
for the hash functions, a signature that names its signer, and a fixed-width codec for accounts.
The instances are scoped: only a section that opens `Sample` sees them.

`collisionFree` and `sha256Distinct` decide whether a log of hash inputs has a collision.
-/

namespace Uchain.Sample

open Lib

section CollisionFree

variable (f : Bytes → H256) (ok : H256 → Bool)

/-- No two of the inputs have the same hash, and each hash passes the test; `seen` has the inputs so
far. -/
def distinctHashes : List Bytes → BTreeMap H256 Bytes → Bool
  | [], _ => true
  | b :: l, seen =>
    match seen.get? (f b) with
    | some b' => b = b' && distinctHashes l seen
    | none => ok (f b) && distinctHashes l (seen.insert (f b) b)

/-- The hashes in `seen` pass the test. -/
def Seen (seen : BTreeMap H256 Bytes) : Prop := ∀ h b, seen.get? h = some b → ok h = true

variable {f ok}

theorem exists_seen {l : List Bytes} : ∀ {seen : BTreeMap H256 Bytes},
    distinctHashes f ok l seen = true → Seen ok seen → ∃ m : BTreeMap H256 Bytes, Seen ok m ∧
      (∀ h b, seen.get? h = some b → m.get? h = some b) ∧ ∀ b ∈ l, m.get? (f b) = some b := by
  induction l with
  | nil => exact fun {seen} _ hs => ⟨seen, hs, fun _ _ h => h, nofun⟩
  | cons b l ih =>
    intro seen h hs
    unfold distinctHashes at h
    cases hget : seen.get? (f b) with
    | some b' =>
      simp only [hget, Bool.and_eq_true, decide_eq_true_eq] at h
      obtain ⟨rfl, h⟩ := h
      obtain ⟨m, hm, hext, hall⟩ := ih h hs
      exact ⟨m, hm, hext, List.forall_mem_cons.2 ⟨hext _ _ hget, hall⟩⟩
    | none =>
      simp only [hget, Bool.and_eq_true] at h
      have hs' : Seen ok (seen.insert (f b) b) := by
        intro i c hi
        rw [BTreeMap.get?_insert] at hi
        split at hi
        · rename_i he
          rw [he]
          exact h.1
        · exact hs i c hi
      obtain ⟨m, hm, hext, hall⟩ := ih h.2 hs'
      refine ⟨m, hm, fun i c hi => hext i c ?_, List.forall_mem_cons.2 ⟨?_, hall⟩⟩
      · rw [BTreeMap.get?_insert_of_ne]
        · exact hi
        · rintro rfl
          rw [hget] at hi
          cases hi
      · exact hext _ _ (BTreeMap.get?_insert_self _ _ _)

/-- A list that passes has no collision. -/
theorem inj_of_distinctHashes {l : List Bytes} (h : distinctHashes f ok l .empty = true) :
    (∀ a ∈ l, ∀ b ∈ l, f a = f b → a = b) ∧ ∀ a ∈ l, ok (f a) = true := by
  obtain ⟨m, hm, -, hall⟩ := exists_seen h nofun
  refine ⟨fun a ha b hb heq => ?_, fun a ha => hm _ a (hall a ha)⟩
  have := hall a ha
  rw [heq, hall b hb] at this
  cases this
  rfl

/-- The inputs of `keccak256` in a log. -/
def keccakInputs (l : List Query) : List Bytes :=
  l.filterMap fun | .keccak256 b => some b | .sha256 _ => none

/-- The inputs of `sha256` in a log. -/
def sha256Inputs (l : List Query) : List Bytes :=
  l.filterMap fun | .sha256 b => some b | .keccak256 _ => none

variable {b : Bytes} {l : List Query}

theorem mem_keccakInputs (h : .keccak256 b ∈ l) : b ∈ keccakInputs l :=
  List.mem_filterMap.2 ⟨_, h, rfl⟩

theorem mem_sha256Inputs (h : .sha256 b ∈ l) : b ∈ sha256Inputs l :=
  List.mem_filterMap.2 ⟨_, h, rfl⟩

variable [Crypto]

/-- No two of the inputs given to `keccak256` have the same hash, and none has the hash zero. -/
def collisionFree (l : List Query) (seen : BTreeMap H256 Bytes) : Bool :=
  distinctHashes Crypto.keccak256 (fun h => !h.isZero) (keccakInputs l) seen

/-- No two of the inputs given to `sha256` have the same hash. -/
def sha256Distinct (l : List Query) : Bool :=
  distinctHashes Crypto.sha256 (fun _ => true) (sha256Inputs l) .empty

theorem keccakGood_of_collisionFree (h : collisionFree l .empty = true) :
    KeccakGood {q | q ∈ l} := by
  obtain ⟨hinj, hne⟩ := inj_of_distinctHashes h
  refine ⟨fun a b ha hb => hinj a (mem_keccakInputs ha) b (mem_keccakInputs hb), fun a ha => ?_⟩
  exact FixedBytes.isZero_eq_false_iff.1 (Bool.not_eq_true' _ ▸ hne a (mem_keccakInputs ha))

theorem sha256_inj_of_distinct (h : sha256Distinct l = true) {a : Bytes} (ha : .sha256 a ∈ l)
    (hb : .sha256 b ∈ l) (heq : Crypto.sha256 a = Crypto.sha256 b) : a = b :=
  (inj_of_distinctHashes h).1 a (mem_sha256Inputs ha) b (mem_sha256Inputs hb) heq

end CollisionFree

/-- An odd multiplier with irregular bits. -/
def multiplier : Nat := 0x9E3779B97F4A7C15F39CC0605CEDC8341082276BF3A27251F86C6A11D0C18E95

def checksum (b : Bytes) : Nat :=
  b.foldl (fun h c => (h + c.toNat + 1) * multiplier % 2 ^ 256) 0

/-- The signer is named by the `r` of the signature. -/
scoped instance : Crypto where
  keccak256 b := .ofNum 32 (checksum b)
  sha256 b := .ofNum 32 (checksum b / 2 ^ 64)
  recoverAddress r _ _ _ _ := some (.ofNum 44 r.num)
  packageAddress _ _ := none

def encodeApp : Option AppState → Bytes
  | none => []
  | some a => beBytes 32 a.rootHash.num ++ (beBytes 32 a.codeHash.num ++
      (beBytes 44 a.creator.num ++ (beBytes 4 a.version.toNat ++ [])))

def decodeApp (b : Bytes) : Option AppState :=
  if b.isEmpty then none
  else some
    { rootHash := .ofNum 32 (ofBeBytes (b.take 32))
      codeHash := .ofNum 32 (ofBeBytes ((b.drop 32).take 32))
      creator := .ofNum 44 (ofBeBytes (((b.drop 32).drop 32).take 44))
      version := .ofNat (ofBeBytes ((((b.drop 32).drop 32).drop 44).take 4)) }

theorem ofNum_num {n : Nat} (h : FixedBytes n) : FixedBytes.ofNum n h.num = h :=
  FixedBytes.num_injective (Nat.mod_eq_of_lt h.lt)

theorem decodeApp_encodeApp : ∀ a, decodeApp (encodeApp a) = a
  | none => rfl
  | some a => by
    have hne : (encodeApp (some a)).isEmpty = false := by
      rw [encodeApp, beBytes]
      rfl
    rw [decodeApp, hne, if_neg Bool.false_ne_true, encodeApp]
    simp only [drop_beBytes, ofBeBytes_take a.rootHash.lt, ofBeBytes_take a.codeHash.lt,
      ofBeBytes_take a.creator.lt, ofBeBytes_take (show a.version.toNat < 256 ^ 4 from
        a.version.toNat_lt), ofNum_num, UInt32.ofNat_toNat]

scoped instance : Codec AccountState where
  encode x := beBytes 8 x.freeBalance.toNat ++ (beBytes 8 x.reserveBalance.toNat ++
    (beBytes 8 x.nonce.toNat ++ encodeApp x.appState))
  decode b := some
    { freeBalance := .ofNat (ofBeBytes (b.take 8))
      reserveBalance := .ofNat (ofBeBytes ((b.drop 8).take 8))
      nonce := .ofNat (ofBeBytes (((b.drop 8).drop 8).take 8))
      appState := decodeApp (((b.drop 8).drop 8).drop 8) }
  decode_encode x := by
    have hlt (y : UInt64) : y.toNat < 256 ^ 8 := y.toNat_lt
    simp only [drop_beBytes, ofBeBytes_take (hlt _), UInt64.ofNat_toNat, decodeApp_encodeApp]
  length_encode x := by
    cases x.appState <;> simp [encodeApp]

def address (n : Nat) : Address := .ofNum 44 n

/-- A payment of `value` from the address `sender` to the address `recipient`. -/
def pay (sender recipient : Nat) (nonce value fee : UInt64) : SignedTransaction where
  tx := ⟨nonce, 0, .zero, fee, value, some (.payment (address recipient))⟩
  r := .ofNum 32 sender
  s := .zero
  v := 0

/-- A call of the application at the address `app`, by the signer `sender`. -/
def call (sender app : Nat) (nonce value fee : UInt64) : SignedTransaction where
  tx := ⟨nonce, 0, .zero, fee, value, some (.call ⟨address app, 0, 0, []⟩)⟩
  r := .ofNum 32 sender
  s := .zero
  v := 0

end Uchain.Sample
