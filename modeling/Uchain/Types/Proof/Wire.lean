import Uchain.Types.Wire

/-!
# Wire formats read back

Every message but `SignedTransaction` announces its length (`Message.Sound`). A signed transaction
with `v = 0` announces two bytes more than it writes, so that in a list or in a block whatever
follows it is read as a part of it.

* `signedTransaction_sound`: with `v ≠ 0` a signed transaction reads back.
* `transactionList_decode_iff`, `block_decode_iff`: exactly which lists and blocks read back.
-/

namespace Uchain.Wire

open Lib Lib.Protobuf

/-! ## Parts -/

variable {n : Nat}

theorem fixedBytes_sound (hn : n < 2 ^ 64) (h : FixedBytes n) :
    (fixedBytes n).Sound 0 h := by
  have hlen : h.bytes.length < 2 ^ 64 := by rwa [h.length_bytes]
  refine ⟨?_, fun ctx _ => ?_⟩
  · show _ = (encodeBytes 1 h.bytes).length
    rw [length_encodeBytes (by decide) hlen, lenBytes, h.length_bytes]
    rfl
  · refine Message.Reads.field (by decide) fun rest => ?_
    simp only [fixedBytes, mergeBytes, if_true, takeBytes_append hlen, bind, Except.bind,
      FixedBytes.fromSlice?_bytes]

theorem h256_sound (h : H256) : h256.Sound 0 h := fixedBytes_sound (by decide) h

theorem address_sound (a : Address) : address.Sound 0 a := fixedBytes_sound (by decide) a

theorem length_fixedBytes (n : Nat) (h : FixedBytes n) (hn : n < 128) :
    ((fixedBytes n).encodeRaw h).length < 2 ^ 64 := by
  rw [← (fixedBytes_sound (by omega) h).length]
  show keyLen 1 + (encodedLenVarint n + n) < 2 ^ 64
  have hvar : encodedLenVarint n ≤ 10 := by
    have hlog : Nat.log2 (n ||| 1) < 7 := by
      rw [Nat.log2_lt (by rw [or_one]; omega), or_one]
      omega
    unfold encodedLenVarint
    omega
  have hkey : keyLen 1 = 1 := by decide
  omega

theorem u256_sound (x : U256) : u256.Sound 0 x := by
  have hlen : (beBytes 32 x.toNat).length < 2 ^ 64 := by
    rw [length_beBytes]
    decide
  refine ⟨?_, fun ctx _ => ?_⟩
  · show _ = (encodeBytes 1 (beBytes 32 x.toNat)).length
    rw [length_encodeBytes (by decide) hlen, lenBytes, length_beBytes]
    rfl
  · refine Message.Reads.field (by decide) fun rest => ?_
    have hlt : x.toNat < 256 ^ 32 := x.isLt
    have hback : BitVec.ofNat 256 (ofBeBytes (beBytes 32 x.toNat)) = x := by
      rw [ofBeBytes_beBytes, Nat.mod_eq_of_lt hlt, BitVec.ofNat_toNat, BitVec.setWidth_eq]
    simp only [u256, mergeBytes, if_true, takeBytes_append hlen, bind, Except.bind]
    rw [if_neg (by rw [length_beBytes]; decide), hback]

theorem payment_sound (v : Address) : payment.Sound 1 v := by
  have hsize := length_fixedBytes 44 v (by decide)
  refine ⟨((address_sound v).length_encodeField (by decide) hsize).symm, fun ctx hctx => ?_⟩
  exact (address_sound v).field (by decide) (by omega) hsize fun buf rest h => h

theorem length_u256 (x : U256) : (u256.encodeRaw x).length < 2 ^ 64 := by
  rw [← (u256_sound x).length]
  show keyLen 1 + (encodedLenVarint (4 * 8) + 4 * 8) < 2 ^ 64
  decide

theorem eq_zero_of_toNat32 {x : UInt32} (h : x.toNat = 0) : x = 0 := UInt32.toNat_inj.1 h

section Fields

variable {α : Type} {p : Message α} {ctx tag : Nat} {a : α}

theorem reads_h256 (put : H256 → α) {h : H256} (htag : Tag tag) (hctx : 0 < ctx)
    (hmerge : ∀ buf, p.mergeField tag .lengthDelimited ctx a buf =
      h256.merge .lengthDelimited ctx .zero buf >>= fun r => .ok (put r.1, r.2)) :
    p.Reads ctx a (h256.encodeField tag h) (put h) :=
  Message.Sound.put htag put (h256_sound h) hctx (length_fixedBytes 32 h (by decide)) hmerge

theorem reads_address (put : Address → α) {x : Address} (htag : Tag tag) (hctx : 0 < ctx)
    (hmerge : ∀ buf, p.mergeField tag .lengthDelimited ctx a buf =
      address.merge .lengthDelimited ctx .zero buf >>= fun r => .ok (put r.1, r.2)) :
    p.Reads ctx a (address.encodeField tag x) (put x) :=
  Message.Sound.put htag put (address_sound x) hctx (length_fixedBytes 44 x (by decide)) hmerge

theorem length_h256Field (h : H256) (htag : Tag tag) :
    (h256.encodeField tag h).length = h256.lenField tag h :=
  (h256_sound h).length_encodeField htag (length_fixedBytes 32 h (by decide))

theorem length_addressField (x : Address) (htag : Tag tag) :
    (address.encodeField tag x).length = address.lenField tag x :=
  (address_sound x).length_encodeField htag (length_fixedBytes 44 x (by decide))

end Fields

theorem mergeBytes_append {b : Bytes} (h : b.length < 2 ^ 64) (rest : Bytes) :
    mergeBytes .lengthDelimited (encodeVarint b.length ++ b ++ rest) = .ok (b, rest) :=
  takeBytes_append h rest

theorem call_sound {v : ApplicationCall} (hsize : (call.encodeRaw v).length < 2 ^ 64) :
    call.Sound 1 v := by
  have hargs : v.args.length < 2 ^ 64 := by
    have hle := length_le_optBytes 4 v.args
    simp only [call, List.length_append] at hsize
    omega
  refine ⟨?_, fun ctx hctx => ?_⟩
  · simp only [call, List.length_append]
    rw [length_addressField _ (by decide), length_optUint (by decide) v.service.toNat_lt,
      length_optUint (by decide) v.method.toNat_lt, length_optBytes (by decide) hargs]
  · refine (reads_address (fun x => ⟨x, 0, 0, []⟩) (by decide) hctx fun _ => rfl).trans ?_
    refine .trans (.uint64 (by decide) (fun x => ⟨v.appId, x, 0, []⟩) rfl fun _ => rfl) ?_
    refine .trans (.uint64 (by decide) (fun x => ⟨v.appId, v.service, x, []⟩) rfl
      fun _ => rfl) ?_
    exact Message.Reads.bytes (m := call) (by decide) (fun x => ⟨v.appId, v.service, v.method, x⟩) hargs
      rfl fun _ => rfl

theorem create_sound {v : CreateApplication} (hsize : (create.encodeRaw v).length < 2 ^ 64) :
    create.Sound 0 v := by
  have hname : (stringBytes v.packageName).length < 2 ^ 64 := by
    have hle := length_le_encodeBytes 1 (stringBytes v.packageName)
    simp only [create, List.length_append] at hsize
    omega
  have hbinary : v.binary.length < 2 ^ 64 := by
    have hle := length_le_optBytes 2 v.binary
    simp only [create, List.length_append] at hsize
    omega
  refine ⟨?_, fun ctx hctx => ?_⟩
  · simp only [create, List.length_append]
    rw [length_encodeBytes (by decide) hname, length_optBytes (by decide) hbinary]
  · have hread : create.Reads ctx ⟨"", []⟩ (encodeBytes 1 (stringBytes v.packageName))
        ⟨v.packageName, []⟩ :=
      .field (by decide) fun rest => by
        simp only [create, mergeString_append hname, bind, Except.bind]
    exact hread.trans (Message.Reads.bytes (m := create) (by decide) (fun x => ⟨v.packageName, x⟩) hbinary
      rfl fun _ => rfl)

theorem update_sound {v : UpdateApplication} (hsize : (update.encodeRaw v).length < 2 ^ 64) :
    update.Sound 1 v := by
  have hmigrate : v.migrate.toNat < 2 ^ 64 := by cases v.migrate <;> decide
  have hbinary : v.binary.length < 2 ^ 64 := by
    have hle := length_le_optBytes 2 v.binary
    simp only [update, List.length_append] at hsize
    omega
  refine ⟨?_, fun ctx hctx => ?_⟩
  · simp only [update, List.length_append]
    rw [length_addressField _ (by decide), length_optBytes (by decide) hbinary,
      length_optUint (by decide) hmigrate]
  · refine (reads_address (fun x => ⟨x, [], false⟩) (by decide) hctx fun _ => rfl).trans ?_
    refine .trans (.bytes (by decide) (fun x => ⟨v.appId, x, false⟩) hbinary rfl
      fun _ => rfl) ?_
    obtain ⟨appId, binary, migrate⟩ := v
    refine Message.Reads.varint (m := update) (by decide) (fun x => ⟨appId, binary, x⟩) (fun n => decide (n ≠ 0)) hmigrate ?_ ?_
      fun _ => rfl
    · cases migrate <;> rfl
    · cases migrate
      · exact fun _ => rfl
      · exact fun h => by cases h

/-! ## Transactions -/

theorem length_encodeData {d : TransactionData} (hsize : (encodeData d).length < 2 ^ 64) :
    (encodeData d).length = lenData d := by
  cases d with
  | payment v =>
    have hv := Message.length_le_encodeField payment 6 v
    exact (payment_sound v).length_encodeField (by decide) (lt_of_le_of_lt hv hsize)
  | call v =>
    have hv := Message.length_le_encodeField call 7 v
    have hlt : (call.encodeRaw v).length < 2 ^ 64 := lt_of_le_of_lt hv hsize
    exact (call_sound hlt).length_encodeField (by decide) hlt
  | create v =>
    have hv := Message.length_le_encodeField create 8 v
    have hlt : (create.encodeRaw v).length < 2 ^ 64 := lt_of_le_of_lt hv hsize
    exact (create_sound hlt).length_encodeField (by decide) hlt
  | update v =>
    have hv := Message.length_le_encodeField update 9 v
    have hlt : (update.encodeRaw v).length < 2 ^ 64 := lt_of_le_of_lt hv hsize
    exact (update_sound hlt).length_encodeField (by decide) hlt
  | rawData v =>
    have hv := length_le_encodeBytes 10 v
    exact length_encodeBytes (by decide) (lt_of_le_of_lt hv hsize)

variable {ctx : Nat}

/-- The payload is the last field, and is read into a transaction without one. -/
theorem reads_data {d : TransactionData} (hsize : (encodeData d).length < 2 ^ 64) (hctx : 2 ≤ ctx)
    (t : Transaction) (ht : t.data = none) :
    transaction.Reads ctx t (encodeData d) { t with data := some d } := by
  cases d with
  | payment v =>
    have hv := Message.length_le_encodeField payment 6 v
    refine (payment_sound v).field (by decide) (by omega) (lt_of_le_of_lt hv hsize)
      fun buf rest h => ?_
    simp only [transaction, mergeData, ht, mergeVariant, h, bind, Except.bind]
  | call v =>
    have hv := Message.length_le_encodeField call 7 v
    have hlt : (call.encodeRaw v).length < 2 ^ 64 := lt_of_le_of_lt hv hsize
    refine (call_sound hlt).field (by decide) (by omega) hlt fun buf rest h => ?_
    simp only [transaction, mergeData, ht, mergeVariant, h, bind, Except.bind]
  | create v =>
    have hv := Message.length_le_encodeField create 8 v
    have hlt : (create.encodeRaw v).length < 2 ^ 64 := lt_of_le_of_lt hv hsize
    refine (create_sound hlt).field (by decide) (by omega) hlt fun buf rest h => ?_
    simp only [transaction, mergeData, ht, mergeVariant, h, bind, Except.bind]
  | update v =>
    have hv := Message.length_le_encodeField update 9 v
    have hlt : (update.encodeRaw v).length < 2 ^ 64 := lt_of_le_of_lt hv hsize
    refine (update_sound hlt).field (by decide) (by omega) hlt fun buf rest h => ?_
    simp only [transaction, mergeData, ht, mergeVariant, h, bind, Except.bind]
  | rawData v =>
    have hv := length_le_encodeBytes 10 v
    have hlt : v.length < 2 ^ 64 := lt_of_le_of_lt hv hsize
    refine .field (by decide) fun rest => ?_
    simp only [transaction, mergeData, mergeBytes_append hlt, bind, Except.bind]

theorem transaction_sound {t : Transaction} (hsize : (transaction.encodeRaw t).length < 2 ^ 64) :
    transaction.Sound 2 t := by
  have hchain : t.chainId.toNat < 2 ^ 64 := lt_trans t.chainId.toNat_lt (by decide)
  have hdata {d : TransactionData} (hd : t.data = some d) : (encodeData d).length < 2 ^ 64 := by
    simp only [transaction, List.length_append, hd, Option.map_some, Option.getD_some] at hsize
    omega
  refine ⟨?_, fun ctx hctx => ?_⟩
  · simp only [transaction, List.length_append]
    rw [length_optUint (by decide) t.nonce.toNat_lt, length_optUint (by decide) hchain,
      length_optUint (by decide) t.fee.toNat_lt, length_optUint (by decide) t.value.toNat_lt]
    have hlast : ((t.data.map encodeData).getD []).length = (t.data.map lenData).getD 0 := by
      cases hd : t.data with
      | none => rfl
      | some d => exact length_encodeData (hdata hd)
    rw [length_h256Field _ (by decide), hlast]
  · refine .trans (.uint64 (by decide) (fun x => ⟨x, 0, .zero, 0, 0, none⟩) rfl
      fun _ => rfl) ?_
    refine .trans (.uint32 (by decide) (fun x => ⟨t.nonce, x, .zero, 0, 0, none⟩) rfl
      fun _ => rfl) ?_
    refine (reads_h256 (fun x => ⟨t.nonce, t.chainId, x, 0, 0, none⟩) (by decide) (by omega)
      fun _ => rfl).trans ?_
    refine .trans (.uint64 (by decide)
      (fun x => ⟨t.nonce, t.chainId, t.genesisHash, x, 0, none⟩) rfl fun _ => rfl) ?_
    refine .trans (.uint64 (by decide)
      (fun x => ⟨t.nonce, t.chainId, t.genesisHash, t.fee, x, none⟩) rfl fun _ => rfl) ?_
    obtain ⟨nonce, chainId, genesisHash, fee, value, data⟩ := t
    cases data with
    | none => exact .nil _
    | some d => exact reads_data (hdata rfl) hctx ⟨nonce, chainId, genesisHash, fee, value, none⟩ rfl

variable {t : SignedTransaction}

theorem length_tx_lt (hsize : (signedTransaction.encodeRaw t).length < 2 ^ 64) :
    (transaction.encodeRaw t.tx).length < 2 ^ 64 := by
  have hle := Message.length_le_encodeField transaction 1 t.tx
  simp only [signedTransaction, List.length_append] at hsize
  omega

/-- Field by field a signed transaction always reads back; only its length may be wrong. -/
theorem reads_signedTransaction (hsize : (signedTransaction.encodeRaw t).length < 2 ^ 64)
    (hctx : 3 ≤ ctx) :
    signedTransaction.Reads ctx signedTransaction.default (signedTransaction.encodeRaw t) t := by
  have htx := length_tx_lt hsize
  refine ((transaction_sound htx).put (by decide) (fun x => ⟨x, .zero, .zero, 0⟩) (by omega) htx
    fun _ => rfl).trans ?_
  refine (reads_h256 (fun x => ⟨t.tx, x, .zero, 0⟩) (by decide) (by omega) fun _ => rfl).trans ?_
  refine (reads_h256 (fun x => ⟨t.tx, t.r, x, 0⟩) (by decide) (by omega) fun _ => rfl).trans ?_
  exact Message.Reads.uint32 (m := signedTransaction) (by decide) (fun x => ⟨t.tx, t.r, t.s, x⟩) rfl
    fun _ => rfl

/-- What a signed transaction announces: two bytes too many if `v` is zero. -/
theorem encodedLen_signedTransaction (hsize : (signedTransaction.encodeRaw t).length < 2 ^ 64) :
    signedTransaction.encodedLen t =
      (signedTransaction.encodeRaw t).length + if t.v = 0 then 2 else 0 := by
  have htx := length_tx_lt hsize
  have hv : t.v.toNat < 2 ^ 64 := lt_trans t.v.toNat_lt (by decide)
  have hvlen : lenUint 4 t.v.toNat = lenOptUint 4 t.v.toNat + if t.v = 0 then 2 else 0 := by
    unfold lenOptUint
    by_cases h : t.v = 0
    · rw [h]
      decide
    · rw [if_neg (fun h' => h (eq_zero_of_toNat32 h')), if_neg h]
      rfl
  simp only [signedTransaction, List.length_append]
  rw [(transaction_sound htx).length_encodeField (by decide) htx, hvlen,
    length_optUint (by decide) hv, length_h256Field _ (by decide), length_h256Field _ (by decide)]
  omega

/-- **A signed transaction with `v ≠ 0` is sound.** -/
theorem signedTransaction_sound (hsize : (signedTransaction.encodeRaw t).length < 2 ^ 64)
    (hv : t.v ≠ 0) :
    signedTransaction.Sound 3 t := by
  refine ⟨?_, fun ctx hctx => reads_signedTransaction hsize hctx⟩
  rw [encodedLen_signedTransaction hsize, if_neg hv]
  rfl

/-! ## What follows a transaction with `v = 0` -/

theorem merge_ne_ok {α : Type} {m : Message α} {a : α} {b : Bytes} (hn : n < 2 ^ 64) (hpos : 0 < n)
    (h : ∀ x, m.step (ctx - 1) a b ≠ .ok x) :
    ∀ x, m.merge .lengthDelimited ctx a (encodeVarint n ++ b) ≠ .ok x := by
  intro x
  unfold Message.merge
  rw [if_neg (by simp), decodeVarint_encodeVarint hn]
  split
  · nofun
  · simp only [bind, Except.bind]
    split
    · nofun
    · exact Message.mergeLoop_ne_ok_of_step (by omega) h _ x

/-- A signed transaction read as a transaction: its first field is not a number. -/
theorem transaction_merge_ne_ok (ctx : Nat) (t : Transaction) (hn : n < 2 ^ 64) (hpos : 0 < n)
    (b : Bytes) :
    ∀ x, transaction.merge .lengthDelimited ctx t
      (encodeVarint n ++ (encodeKey 1 .lengthDelimited ++ b)) ≠ .ok x := by
  refine merge_ne_ok hn hpos fun x => ?_
  rw [Message.step_encodeKey (by decide)]
  nofun

/-- A signed transaction read as a hash: its first field does not have 32 bytes. -/
theorem h256_merge_ne_ok (ctx : Nat) (h : H256) {k : Nat} (hn : n < 2 ^ 64) (hpos : 0 < n)
    (hk : k < 2 ^ 64) (hne : k ≠ 32) (b : Bytes) :
    ∀ x, h256.merge .lengthDelimited ctx h
      (encodeVarint n ++ (encodeKey 1 .lengthDelimited ++ (encodeVarint k ++ b))) ≠ .ok x := by
  refine merge_ne_ok hn hpos fun x => ?_
  rw [Message.step_encodeKey (by decide)]
  simp only [h256, fixedBytes, mergeBytes, if_true, takeBytes, decodeVarint_encodeVarint hk, bind,
    Except.bind]
  by_cases hlen : b.length < k
  · rw [if_pos hlen]
    nofun
  · rw [if_neg hlen]
    have hslice : FixedBytes.fromSlice? 32 (b.take k) = none := by
      unfold FixedBytes.fromSlice?
      rw [if_neg]
      rw [List.length_take]
      omega
    simp only [hslice]
    nofun

theorem le_encodedLen_transaction (t : Transaction) : 36 ≤ transaction.encodedLen t := by
  have hgen : h256.lenField 3 t.genesisHash = 36 := by
    show keyLen 3 + (encodedLenVarint (keyLen 1 + (encodedLenVarint 32 + 32)) +
      (keyLen 1 + (encodedLenVarint 32 + 32))) = 36
    decide
  simp only [transaction, hgen]
  omega

/-- The next element of the list, read as a field of the transaction before it. -/
theorem step_next_ne_ok {tag : Nat} (htag : tag = 1 ∨ tag = 2) (t t' : SignedTransaction)
    (hsize : (signedTransaction.encodeRaw t').length + 2 < 2 ^ 64) (rest : Bytes) :
    ∀ x, signedTransaction.step ctx t (signedTransaction.encodeField tag t' ++ rest) ≠ .ok x := by
  have hraw : (signedTransaction.encodeRaw t').length < 2 ^ 64 := by omega
  have htx : (transaction.encodeRaw t'.tx).length < 2 ^ 64 := by
    have hle := Message.length_le_encodeField transaction 1 t'.tx
    simp only [signedTransaction, List.length_append] at hraw
    omega
  have hlen := (transaction_sound htx).length
  have h36 := le_encodedLen_transaction t'.tx
  have hn := encodedLen_signedTransaction hraw
  have hle : (transaction.encodeRaw t'.tx).length ≤ (signedTransaction.encodeRaw t').length := by
    have hle := Message.length_le_encodeField transaction 1 t'.tx
    simp only [signedTransaction, List.length_append]
    omega
  obtain ⟨n, hn'⟩ : ∃ n, n = signedTransaction.encodedLen t' := ⟨_, rfl⟩
  have hbound : n < 2 ^ 64 ∧ 0 < n := by
    rw [hn', hn]
    split <;> omega
  -- the bytes of the element, up to its first field
  have hbytes : signedTransaction.encodeField tag t' ++ rest = encodeKey tag .lengthDelimited ++
      (encodeVarint n ++ (encodeKey 1 .lengthDelimited ++
        (encodeVarint (transaction.encodedLen t'.tx) ++ (transaction.encodeRaw t'.tx ++
          (h256.encodeField 2 t'.r ++ (h256.encodeField 3 t'.s ++ (optUint 4 t'.v.toNat ++
            rest))))))) := by
    rw [hn']
    simp only [Message.encodeField, signedTransaction, List.append_assoc]
  rw [hbytes]
  intro x
  rcases htag with rfl | rfl
  · rw [Message.step_encodeKey (by decide)]
    have hfail := transaction_merge_ne_ok ctx t.tx hbound.1 hbound.2
      (encodeVarint (transaction.encodedLen t'.tx) ++ (transaction.encodeRaw t'.tx ++
        (h256.encodeField 2 t'.r ++ (h256.encodeField 3 t'.s ++ (optUint 4 t'.v.toNat ++ rest)))))
    simp only [signedTransaction] at hfail ⊢
    cases hm : transaction.merge .lengthDelimited ctx t.tx _ with
    | error e => simp [bind, Except.bind]
    | ok y => exact absurd hm (hfail y)
  · rw [Message.step_encodeKey (by decide)]
    have hfail := h256_merge_ne_ok ctx t.r hbound.1 hbound.2
      (show transaction.encodedLen t'.tx < 2 ^ 64 by omega) (by omega)
      (transaction.encodeRaw t'.tx ++
        (h256.encodeField 2 t'.r ++ (h256.encodeField 3 t'.s ++ (optUint 4 t'.v.toNat ++ rest))))
    simp only [signedTransaction] at hfail ⊢
    cases hm : h256.merge .lengthDelimited ctx t.r _ with
    | error e => simp [bind, Except.bind]
    | ok y => exact absurd hm (hfail y)

variable {l : List SignedTransaction}

/-- **A transaction with `v = 0` is not read**, whatever comes after it. -/
theorem merge_ne_ok_of_zero {tag : Nat} (htag : tag = 1 ∨ tag = 2) (hv : t.v = 0)
    (hsize : ∀ t' ∈ t :: l, (signedTransaction.encodeRaw t').length + 2 < 2 ^ 64) :
    ∀ x, signedTransaction.merge .lengthDelimited 100 signedTransaction.default
      (encodeVarint (signedTransaction.encodedLen t) ++ signedTransaction.encodeRaw t ++
        encodeRepeated signedTransaction tag l) ≠ .ok x := by
  obtain ⟨ht, hl⟩ := List.forall_mem_cons.1 hsize
  have hraw : (signedTransaction.encodeRaw t).length < 2 ^ 64 := by omega
  have hlen := encodedLen_signedTransaction hraw
  rw [if_pos hv] at hlen
  intro x
  unfold Message.merge
  rw [if_neg (by simp), if_neg (by decide), List.append_assoc, hlen, decodeVarint_encodeVarint ht]
  simp only [bind, Except.bind]
  split
  · nofun
  · rename_i hfits
    simp only [List.length_append] at hfits ⊢
    cases l with
    | nil => simp [encodeRepeated] at hfits
    | cons t' l =>
      refine Message.mergeLoop_ne_ok_of_reads (by omega)
        (reads_signedTransaction hraw (by decide)) ?_ _ x
      refine Message.mergeLoop_ne_ok_of_step (by omega) ?_
      exact step_next_ne_ok htag t t' (hl t' List.mem_cons_self) _

/-! ## Lists and blocks -/

/-- A message with a repeated field of signed transactions: `f l` is the value that has read `l`. -/
structure Collects {β : Type} (p : Message β) (tag : Nat) (f : List SignedTransaction → β) :
    Prop where
  which : tag = 1 ∨ tag = 2
  merge : ∀ l buf, p.mergeField tag .lengthDelimited 100 (f l) buf = (do
    let (t, buf) ← signedTransaction.merge .lengthDelimited 100 signedTransaction.default buf
    .ok (f (l ++ [t]), buf))

section Collects

variable {β : Type} {p : Message β} {tag : Nat} {f : List SignedTransaction → β}

theorem Collects.isTag (h : Collects p tag f) : Tag tag := by
  rcases h.which with rfl | rfl <;> decide

theorem Collects.reads (h : Collects p tag f) : ∀ (l₀ : List SignedTransaction)
    {l : List SignedTransaction},
    (∀ t ∈ l, (signedTransaction.encodeRaw t).length + 2 < 2 ^ 64) → (∀ t ∈ l, t.v ≠ 0) →
    p.Reads 100 (f l₀) (encodeRepeated signedTransaction tag l) (f (l₀ ++ l))
  | l₀, [], _, _ => by
    rw [List.append_nil]
    exact .nil _
  | l₀, t :: l, hsize, hv => by
    obtain ⟨ht, hl⟩ := List.forall_mem_cons.1 hsize
    obtain ⟨htv, hlv⟩ := List.forall_mem_cons.1 hv
    have hraw : (signedTransaction.encodeRaw t).length < 2 ^ 64 := by omega
    have hone : p.Reads 100 (f l₀) (signedTransaction.encodeField tag t) (f (l₀ ++ [t])) :=
      (signedTransaction_sound hraw htv).field h.isTag (by decide) hraw fun buf rest hm => by
        rw [h.merge, hm]
        rfl
    have hrest := Collects.reads h (l₀ ++ [t]) hl hlv
    rw [List.append_assoc] at hrest
    exact hone.trans hrest

theorem Collects.ne_ok (h : Collects p tag f) : ∀ (l₀ : List SignedTransaction)
    {l : List SignedTransaction},
    (∀ t ∈ l, (signedTransaction.encodeRaw t).length + 2 < 2 ^ 64) → (¬ ∀ t ∈ l, t.v ≠ 0) →
    ∀ fuel x, p.mergeLoop 100 0 fuel (f l₀) (encodeRepeated signedTransaction tag l) ≠ .ok x
  | _, [], _, hv => absurd nofun hv
  | l₀, t :: l, hsize, hv => by
    obtain ⟨ht, hl⟩ := List.forall_mem_cons.1 hsize
    have hraw : (signedTransaction.encodeRaw t).length < 2 ^ 64 := by omega
    by_cases htv : t.v = 0
    · -- the first one that is not read
      refine Message.mergeLoop_ne_ok_of_step ?_ fun x => ?_
      · have := List.length_pos_iff.2 (encodeKey_ne_nil h.isTag .lengthDelimited)
        simp only [encodeRepeated, List.flatMap_cons, List.length_append, Message.encodeField]
        omega
      · have hbytes : encodeRepeated signedTransaction tag (t :: l) =
            encodeKey tag .lengthDelimited ++ (encodeVarint (signedTransaction.encodedLen t) ++
              signedTransaction.encodeRaw t ++ encodeRepeated signedTransaction tag l) := by
          simp only [encodeRepeated, List.flatMap_cons, Message.encodeField, List.append_assoc]
        rw [hbytes, Message.step_encodeKey h.isTag, h.merge]
        have hfail := merge_ne_ok_of_zero h.which htv hsize
        cases hm : signedTransaction.merge .lengthDelimited 100 signedTransaction.default _ with
        | error e => simp [bind, Except.bind]
        | ok y => exact absurd hm (hfail y)
    · have hone : p.Reads 100 (f l₀) (signedTransaction.encodeField tag t) (f (l₀ ++ [t])) :=
        (signedTransaction_sound hraw htv).field h.isTag (by decide) hraw fun buf rest hm => by
          rw [h.merge, hm]
          rfl
      have hrest : ¬ ∀ t ∈ l, t.v ≠ 0 := fun hall => hv (List.forall_mem_cons.2 ⟨htv, hall⟩)
      exact Message.mergeLoop_ne_ok_of_reads (Nat.zero_le _) hone (Collects.ne_ok h _ hl hrest)

end Collects

theorem collects_signedTransactions : Collects signedTransactions 1 id :=
  ⟨.inl rfl, fun _ _ => rfl⟩

theorem collects_block (header : BlockHeader) :
    Collects block 2 (fun l => ⟨header, l⟩) := by
  refine ⟨.inr rfl, fun l buf => ?_⟩
  simp only [block, mergeRepeated]
  cases signedTransaction.merge .lengthDelimited 100 signedTransaction.default buf <;> rfl

theorem length_le_encodeRepeated {α : Type} (m : Message α) (tag : Nat) {l : List α} {a : α}
    (h : a ∈ l) : (m.encodeRaw a).length ≤ (encodeRepeated m tag l).length := by
  obtain ⟨l₁, l₂, rfl⟩ := List.append_of_mem h
  have hle := Message.length_le_encodeField m tag a
  simp only [encodeRepeated, List.flatMap_append, List.flatMap_cons, List.length_append]
  omega

theorem toNat_lt_of_uint32 (x : UInt32) : x.toNat < 2 ^ 64 := lt_trans x.toNat_lt (by decide)

theorem encodedLen_blockHeader (h : BlockHeader) :
    blockHeader.encodedLen h = (blockHeader.encodeRaw h).length := by
  simp only [blockHeader, List.length_append]
  rw [length_h256Field _ (by decide), length_h256Field _ (by decide), length_h256Field _ (by decide),
    length_h256Field _ (by decide), length_addressField _ (by decide),
    (u256_sound h.mixNonce).length_encodeField (by decide) (length_u256 h.mixNonce),
    length_optUint (by decide) (toNat_lt_of_uint32 h.difficulty),
    length_optUint (by decide) (toNat_lt_of_uint32 h.chainId),
    length_optUint (by decide) (toNat_lt_of_uint32 h.level),
    length_optUint (by decide) (toNat_lt_of_uint32 h.time),
    length_optUint (by decide) h.nonce.toNat_lt]

/-- Field by field, each put where the header that is read so far has a default. -/
theorem blockHeader_sound (h : BlockHeader) : blockHeader.Sound 1 h := by
  refine ⟨encodedLen_blockHeader h, fun ctx hctx => ?_⟩
  obtain ⟨parent, receipt, tx, state, mix, coinbase, difficulty, chain, level, time, nonce⟩ := h
  refine (reads_h256 (fun x => ⟨x, .zero, .zero, .zero, 0, .zero, 0, 0, 0, 0, 0⟩) (by decide) hctx
    fun _ => rfl).trans ?_
  refine (reads_h256 (fun x => ⟨parent, x, .zero, .zero, 0, .zero, 0, 0, 0, 0, 0⟩) (by decide) hctx
    fun _ => rfl).trans ?_
  refine (reads_h256 (fun x => ⟨parent, receipt, x, .zero, 0, .zero, 0, 0, 0, 0, 0⟩) (by decide) hctx
    fun _ => rfl).trans ?_
  refine (reads_h256 (fun x => ⟨parent, receipt, tx, x, 0, .zero, 0, 0, 0, 0, 0⟩) (by decide) hctx
    fun _ => rfl).trans ?_
  refine ((u256_sound mix).put (by decide)
    (fun x => ⟨parent, receipt, tx, state, x, .zero, 0, 0, 0, 0, 0⟩) hctx (length_u256 mix)
    fun _ => rfl).trans ?_
  refine (reads_address (fun x => ⟨parent, receipt, tx, state, mix, x, 0, 0, 0, 0, 0⟩) (by decide) hctx
    fun _ => rfl).trans ?_
  refine .trans (.uint32 (by decide)
    (fun x => ⟨parent, receipt, tx, state, mix, coinbase, x, 0, 0, 0, 0⟩) rfl fun _ => rfl) ?_
  refine .trans (.uint32 (by decide)
    (fun x => ⟨parent, receipt, tx, state, mix, coinbase, difficulty, x, 0, 0, 0⟩) rfl
    fun _ => rfl) ?_
  refine .trans (.uint32 (by decide)
    (fun x => ⟨parent, receipt, tx, state, mix, coinbase, difficulty, chain, x, 0, 0⟩) rfl
    fun _ => rfl) ?_
  refine .trans (.uint32 (by decide)
    (fun x => ⟨parent, receipt, tx, state, mix, coinbase, difficulty, chain, level, x, 0⟩) rfl
    fun _ => rfl) ?_
  exact Message.Reads.uint64 (m := blockHeader) (by decide)
    (fun x => ⟨parent, receipt, tx, state, mix, coinbase, difficulty, chain, level, time, x⟩) rfl
    fun _ => rfl

/-- What a list that was written reads back as, if it does. -/
theorem signedTransactions_decode_eq_ok_iff {l' : List SignedTransaction}
    (hsize : ∀ t ∈ l, (signedTransaction.encodeRaw t).length + 2 < 2 ^ 64) :
    signedTransactions.decode (signedTransactions.encode l) = .ok l' ↔
      l = l' ∧ ∀ t ∈ l, t.v ≠ 0 := by
  by_cases hv : ∀ t ∈ l, t.v ≠ 0
  · have hreads := collects_signedTransactions.reads [] hsize hv
    have hloop := Message.mergeLoop_of_reads hreads [] (Nat.le_refl _)
    rw [List.append_nil] at hloop
    have hloop : signedTransactions.mergeLoop 100 0 (signedTransactions.encode l).length
        signedTransactions.default (signedTransactions.encode l) = .ok (l, []) := hloop
    have hdecode : signedTransactions.decode (signedTransactions.encode l) = .ok l := by
      unfold Message.decode
      rw [hloop]
      rfl
    rw [hdecode, Except.ok.injEq]
    exact (and_iff_left hv).symm
  · have hne := collects_signedTransactions.ne_ok [] hsize hv (signedTransactions.encode l).length
    refine iff_of_false (fun h => ?_) fun h => hv h.2
    unfold Message.decode at h
    cases hloop : signedTransactions.mergeLoop 100 0 (signedTransactions.encode l).length
        signedTransactions.default (signedTransactions.encode l) with
    | error e => simp [hloop, bind, Except.bind] at h
    | ok x => exact hne x hloop

theorem signedTransactions_decode_iff
    (hsize : ∀ t ∈ l, (signedTransaction.encodeRaw t).length + 2 < 2 ^ 64) :
    signedTransactions.decode (signedTransactions.encode l) = .ok l ↔ ∀ t ∈ l, t.v ≠ 0 := by
  rw [signedTransactions_decode_eq_ok_iff hsize]
  exact and_iff_right rfl

/-- The list column of a store: what it reads back as. -/
theorem transactionList_decode_eq_ok_iff {l' : List SignedTransaction}
    (hsize : (transactionList.encode l).length < 2 ^ 63) :
    transactionList.decode (transactionList.encode l) = .ok l' ↔ l = l' ∧ ∀ t ∈ l, t.v ≠ 0 := by
  refine signedTransactions_decode_eq_ok_iff fun t ht => ?_
  have hle := length_le_encodeRepeated signedTransaction 1 ht
  have hlen : (encodeRepeated signedTransaction 1 l).length < 2 ^ 63 := hsize
  omega

theorem block_decode_iff {b : Block} (hheader : (blockHeader.encodeRaw b.header).length < 2 ^ 64)
    (hsize : ∀ t ∈ b.transactions, (signedTransaction.encodeRaw t).length + 2 < 2 ^ 64) :
    block.decode (block.encode b) = .ok b ↔ ∀ t ∈ b.transactions, t.v ≠ 0 := by
  have hread : block.Reads 100 ⟨blockHeader.default, []⟩ (blockHeader.encodeField 1 b.header)
      ⟨b.header, []⟩ :=
    (blockHeader_sound b.header).field (by decide) (by decide) hheader fun buf rest h => by
      simp only [block, h, bind, Except.bind]
  have hcollects := collects_block b.header
  constructor
  · intro h
    by_contra hv
    have hrest := hcollects.ne_ok [] hsize hv
    have hne := Message.mergeLoop_ne_ok_of_reads (Nat.zero_le _) hread hrest (block.encode b).length
    unfold Message.decode at h
    cases hloop : block.mergeLoop 100 0 (block.encode b).length block.default (block.encode b) with
    | error e => simp [hloop, bind, Except.bind] at h
    | ok x => exact hne x hloop
  · intro hv
    have hreads := hread.trans (hcollects.reads [] hsize hv)
    have hloop := Message.mergeLoop_of_reads hreads [] (Nat.le_refl _)
    rw [List.append_nil] at hloop
    have hloop : block.mergeLoop 100 0 (block.encode b).length block.default (block.encode b) =
        .ok (b, []) := hloop
    unfold Message.decode
    rw [hloop]
    rfl

/-- **Which lists and blocks read back**: those in which no transaction has `v = 0`. An encoding is a
vector, so it has less than `2 ^ 63` bytes. -/
theorem wire_decode_iff (b : Block) (hsize : (block.encode b).length < 2 ^ 63) :
    (transactionList.decode (transactionList.encode b.transactions) = .ok b.transactions ↔
      ∀ t ∈ b.transactions, t.v ≠ 0) ∧
    (broadcastTransactionMessage.decode (broadcastTransactionMessage.encode b.transactions) =
      .ok b.transactions ↔ ∀ t ∈ b.transactions, t.v ≠ 0) ∧
    (block.decode (block.encode b) = .ok b ↔ ∀ t ∈ b.transactions, t.v ≠ 0) := by
  have hlen : (block.encode b).length = (blockHeader.encodeField 1 b.header).length +
      (encodeRepeated signedTransaction 2 b.transactions).length := List.length_append
  have hheader : (blockHeader.encodeRaw b.header).length < 2 ^ 64 := by
    have hle := Message.length_le_encodeField blockHeader 1 b.header
    omega
  have htxs : ∀ t ∈ b.transactions, (signedTransaction.encodeRaw t).length + 2 < 2 ^ 64 := by
    intro t ht
    have hle := length_le_encodeRepeated signedTransaction 2 ht
    omega
  exact ⟨signedTransactions_decode_iff htxs, signedTransactions_decode_iff htxs,
    block_decode_iff hheader htxs⟩

/-- A payment signed with the recovery id `v`. -/
def samplePayment (v : UInt32) : SignedTransaction :=
  ⟨⟨1, 0, .zero, 1, 5, some (.payment .zero)⟩, .zero, .zero, v⟩

def sampleBlock (v : UInt32) : Block :=
  ⟨⟨.zero, .zero, .zero, .zero, 0, .zero, 0, 0, 1, 0, 0⟩, [samplePayment v, samplePayment 1]⟩

theorem wire_decode_sample : block.decode (block.encode (sampleBlock 1)) = .ok (sampleBlock 1) :=
  (wire_decode_iff (sampleBlock 1) (by decide +kernel)).2.2.2 (by decide)

/-- With a first payment with `v = 0`, the list ends in an error and the block in a panic. -/
theorem wire_decode_fails :
    transactionList.decode (transactionList.encode (sampleBlock 0).transactions) =
        .error (.err .unexpectedWireType) ∧
      broadcastTransactionMessage.decode
        (broadcastTransactionMessage.encode (sampleBlock 0).transactions) =
          .error (.err .unexpectedWireType) ∧
      block.decode (block.encode (sampleBlock 0)) = .error .panic := by
  decide +kernel

end Uchain.Wire
