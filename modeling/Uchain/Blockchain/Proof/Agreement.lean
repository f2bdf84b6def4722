import Uchain.Blockchain.Proof.Steps
import Uchain.Blockchain.Sample
import Uchain.Consensus.Proof.Finalize

/-!
# The current header and the state

`accept_block` never compares the root that it commits with the header. That the two agree rests on
`process_block`, which executed the block on a copy of its parent's state: the copy shows the same
accounts as the state itself only if no write is pending (`Clean`). `InStep` says both; a block keeps it
if it moves the root.

A commit with an unchanged root leaves its writes pending, and one further block is enough to part
the header from the state.
-/

namespace Uchain

open Lib Exec

namespace ChainState

section Crypto

open BlockStorage

variable [Crypto] [Codec AccountState] {S : Set Query} {c c' : ChainState} {block : Block}
  {setup : Setup} {env : Env}

/-- The state has no pending writes and the root of the current header. -/
structure InStep (S : Set Query) (c : ChainState) : Prop where
  good : State.Good S c.state
  clean : c.state.Clean
  agree : ∃ head, c.header = some head ∧ c.state.root = head.stateRoot

omit [Codec AccountState] in
theorem InStep.congr (h : InStep S c) (hstate : c'.state = c.state) (hheader : c'.header = c.header) :
    InStep S c' :=
  ⟨by rw [hstate]; exact h.good, by rw [hstate]; exact h.clean,
    by rw [hstate, hheader]; exact h.agree⟩

omit [Codec AccountState] in
theorem InStep.root_eq (h : InStep S c) {head : BlockHeader} (hhead : c.header = some head) :
    c.state.root = head.stateRoot := by
  obtain ⟨head', hhead', hroot⟩ := h.agree
  rw [hhead] at hhead'
  cases hhead'
  exact hroot

/-! ## A block on the head -/

theorem acceptOnHead_eq (setup : Setup) (env : Env) (block : Block) :
    acceptOnHead setup env block = (do
      onState (State.advance setup.vm block.transactions block.header.coinbase
        (setup.consensus.minerReward block.header.level))
      setCurrentHeader block.header
      if env.send block.header then return true
      else err .channelClosed) := by
  unfold acceptOnHead State.advance
  simp only [onState_bind, bind_assoc]

/-- **What `process_block` executed on a copy** also succeeds on the state, with the root that the
block has. -/
theorem Processed.advances (hg : KeccakGood S) (hsha : Sha256Good S) (hc : Wf S c)
    (h : InStep S c) (hp : Processed S setup c block) {head : BlockHeader}
    (hhead : c.header = some head) (hashed : head.HashedIn S)
    (hparent : block.parentHash = head.hash)
    (hpay : ∀ tx ∈ block.transactions, tx.isPayment = true) {n : Snapshot}
    (hn : State.Shows S c.state n) : ∃ n', n.advance block.transactions block.header.coinbase
      (setup.consensus.minerReward block.header.level) = .ok n' ∧
      n'.trie.hash = block.header.stateRoot := by
  obtain ⟨parent, copy, prepared, header, hfound, hcopy, hfinal, hlog, hheader, hhash⟩ := hp.executed
  obtain ⟨hparentHash, hparentHashed⟩ := hc.storage.headerByHash hfound
  obtain rfl : parent = head :=
    BlockHeader.hash_inj hsha hparentHashed hashed (hparentHash.trans hparent)
  rw [← h.root_eq hhead] at hcopy
  obtain ⟨t, l₁, l₂, -, hadvance, hfinished, hsub⟩ :=
    BarossaProtocol.finalize_ok (Run.eq_of_res hfinal)
  have hpost := State.wp_advance hg (hn.copy hg h.clean hcopy) setup.vm hpay prepared.coinbase
    (setup.consensus.minerReward prepared.level)
    (by rw [hadvance]; exact fun q hq => hlog q (hsub q (.inr hq)))
  rw [hadvance] at hpost
  -- the finished header is the block's, and has the fields of the prepared one
  obtain rfl : header = block.header := BlockHeader.hash_inj hsha hheader hp.hashed hhash
  rw [hfinished]
  dsimp only
  cases hn' : n.advance block.transactions prepared.coinbase
      (setup.consensus.minerReward prepared.level) with
  | error e =>
    rw [hn'] at hpost
    cases hpost.1
  | ok n' =>
    rw [hn'] at hpost
    obtain ⟨-, -, s₁, hshows, -, hstate⟩ := hpost
    refine ⟨n', rfl, ?_⟩
    rw [hstate]
    exact ((TreeDB.committed_root _ _).trans hshows.root).symm

theorem InStep.acceptOnHead (hg : KeccakGood S) (hsha : Sha256Good S) (hc : Wf S c)
    (h : InStep S c) (hp : Processed S setup c block) {head : BlockHeader}
    (hhead : c.header = some head) (hashed : head.HashedIn S)
    (hparent : block.parentHash = head.hash)
    (hpay : ∀ tx ∈ block.transactions, tx.isPayment = true)
    (hmove : head.stateRoot ≠ block.header.stateRoot) :
    wp S (acceptOnHead setup env block) c fun _ c' => InStep S c' := by
  obtain ⟨n, hn⟩ := h.good.shows
  obtain ⟨n', hadvance, hroot⟩ := hp.advances hg hsha hc h hhead hashed hparent hpay hn
  have hpost := State.wp_advance hg hn setup.vm hpay block.header.coinbase
    (setup.consensus.minerReward block.header.level)
  rw [hadvance] at hpost
  rw [acceptOnHead_eq]
  refine wp_bind_onState hpost (fun _ _ _ he => nomatch he.1) fun _ s' hs' => ?_
  obtain ⟨-, -, s₁, hshows, hsame, rfl⟩ := hs'
  have hgood₁ : State.Good S s₁ := h.good.effect (c := .commit) hg (.staged hsame hshows)
  have hroot₁ : s₁.root = head.stateRoot :=
    (congrArg SparseMerkleTree.root hsame.head).trans (h.root_eq hhead)
  obtain ⟨hgood, hclean, hroot'⟩ := hgood₁.committed hg hshows (by rw [hroot₁, hroot]; exact hmove)
  have hnew : InStep S ⟨{ s₁ with trie := s₁.trie.committed !s₁.readOnly }, c.blockStorage,
      some block.header⟩ := ⟨hgood, hclean, block.header, rfl, hroot'.trans hroot⟩
  refine wp_bind (wp_modify ?_)
  exact wp_ite (fun _ => wp_pure hnew) fun _ => wp_err hnew

/-! ## A block beside the head -/

omit [Codec AccountState] in
/-- A stored version becomes the state, and a header with its root the current one. -/
theorem InStep.reset (hg : KeccakGood S) (hgood : State.Good S c.state) {header : BlockHeader}
    {tree : SparseMerkleTree} (found : c.state.trie.db.trees.get? header.stateRoot = some tree)
    (hstate : c'.state = resetTo tree c.state) (hheader : c'.header = some header) :
    InStep S c' := by
  have hreset : State.Good S c'.state ∧ c'.state.Clean ∧ c'.state.root = header.stateRoot :=
    hgood.reset hg found (by rw [hstate]; rfl) (by rw [hstate]; rfl)
  exact ⟨hreset.1, hreset.2.1, header, hheader, hreset.2.2⟩

omit [Codec AccountState] in
theorem InStep.beside (hg : KeccakGood S) (h : InStep S c) {atRoot : H256}
    {res : Except (Fail StateError) H256} {s' : State} (hb : State.Beside S atRoot c.state res s') :
    InStep S { c with state := s' } := by
  cases hb with
  | failed fixed =>
    have htrie : s'.trie = c.state.trie := congrArg Prod.fst fixed
    refine ⟨h.good.effect (c := .commit) hg (.of_fixed h.good fixed), ?_, ?_⟩
    · show s'.trie.staging = _
      rw [htrie]
      exact h.clean
    · show ∃ head, c.header = some head ∧ s'.trie.head.root = head.stateRoot
      rw [htrie]
      exact h.agree
  | stored found version parent trie mode =>
    refine ⟨h.good.effect (c := .applyTxsNoCommit .insertion atRoot 0 .zero []) hg
      (.stored rfl found version parent trie mode), ?_, ?_⟩
    · show s'.trie.staging = _
      rw [trie]
      exact h.clean
    · show ∃ head, c.header = some head ∧ s'.trie.head.root = head.stateRoot
      rw [trie]
      exact h.agree

theorem InStep.acceptBeside (hg : KeccakGood S) (h : InStep S c) (head : IndexedBlockHeader) :
    wp S (acceptBeside setup env head block) c fun _ c' => InStep S c' := by
  refine wp_bind_keeps (g := id) (keeps_onStorage (keeps_getHeaderByHash _)) rfl
    (fun _ c₁ h₁ => by rw [show c₁ = c from h₁]; exact h) fun found c₁ h₁ => ?_
  obtain rfl : c₁ = c := h₁
  refine wp_bind_keeps (g := id) (keeps_ofOption _ _) rfl
    (fun _ c₂ h₂ => by rw [show c₂ = c₁ from h₂]; exact h) fun parentHeader c₂ h₂ => ?_
  obtain rfl : c₂ = c₁ := h₂
  refine wp_bind_onState (State.wp_applyTxsNoCommit_beside hg h.good _ _ _ _ _ _)
    (fun _ _ _ hb => h.beside hg hb) fun root s' hb => ?_
  have h' := h.beside hg hb
  refine wp_ite (fun _ => wp_err h') fun _ => ?_
  refine wp_ite (fun _ => ?_) fun _ => wp_pure h'
  have hreset := State.reset_run block.header.stateRoot s'
  cases htree : s'.trie.db.trees.get? block.header.stateRoot with
  | none =>
    rw [htree] at hreset
    exact wp_bind_res (onState_run_err hreset) h'
  | some tree =>
    rw [htree] at hreset
    refine wp_bind_run (onState_run hreset) (wp_bind (wp_modify (wp_pure ?_)))
    exact InStep.reset (c := { c₂ with state := s' }) hg h'.good htree rfl rfl

/-! ## A call -/

omit [Codec AccountState] in
theorem InStep.rolledBack (hg : KeccakGood S) (h : InStep S c) {first : Block}
    {res : Except (Fail ChainError) Unit} (hr : RolledBack c first res c') : InStep S c' := by
  cases hr with
  | failed => exact h
  | moved parent_eq found state header headers byHash => exact .reset hg h.good found state header

/-- **Putting a block keeps header and state in step**, if it moves the root of the head. -/
theorem InStep.put (hg : KeccakGood S) (hsha : Sha256Good S) (hc : Wf S c) (h : InStep S c)
    (oldHead : IndexedBlockHeader) (hpay : ∀ tx ∈ block.transactions, tx.isPayment = true)
    (hmove : ∀ head, c.header = some head → head.hash = block.parentHash →
      head.stateRoot ≠ block.header.stateRoot) :
    wp S (putBlock setup env oldHead block) c fun _ c' => InStep S c' := by
  refine wp_bind (wp_mono (wp_processBlock S setup env block c) ?_)
  intro res c' hprocess
  obtain ⟨rfl, hprocessed⟩ := hprocess
  cases res with
  | error e => exact h
  | ok u =>
    have haccept : wp S (acceptBlock setup env block) c' fun _ c' => InStep S c' := by
      refine wp_bind (wp_mono (wp_loadHead S c') ?_)
      intro res c₀ hload
      obtain ⟨rfl, hload⟩ := hload
      cases res with
      | error e => exact h
      | ok i =>
        obtain ⟨head, hhead, hashed, rfl⟩ := hload i rfl
        refine wp_ite (fun hparent => ?_) fun _ => h.acceptBeside hg _
        exact h.acceptOnHead hg hsha hc (hprocessed rfl) hhead hashed hparent hpay
          (hmove head hhead hparent.symm)
    refine wp_bind (wp_mono haccept ?_)
    intro res c₁ h₁
    cases res with
    | error e => exact h₁
    | ok repack =>
      refine wp_bind_res (onStorage_run (put_run block _)) ?_
      have h₂ : InStep S { c₁ with blockStorage := c₁.blockStorage.stored block } := h₁.congr rfl rfl
      refine wp_ite (fun _ _ => ?_) fun _ => wp_pure h₂
      exact h₂.congr (keeps_ofExcept (f := fun c => c.state) _ _)
        (keeps_ofExcept (f := fun c => c.header) _ _)

/-! ## Runs -/

structure Known (headers : List BlockHeader) (c : ChainState) : Prop where
  current : ∀ head, c.header = some head → head ∈ headers
  stored : ∀ k h, c.blockStorage.headers.get? k = some h → h ∈ headers

omit [Crypto] [Codec AccountState] in
theorem Known.rolledBack {headers : List BlockHeader} (h : Known headers c) {first : Block}
    {res : Except (Fail ChainError) Unit} (hr : RolledBack c first res c') : Known headers c' := by
  cases hr with
  | failed => exact h
  | moved parent_eq found state header headers_eq byHash =>
    obtain ⟨k, -, hget⟩ := Option.bind_eq_some_iff.1 parent_eq
    refine ⟨fun head hhead => ?_, by rw [headers_eq]; exact h.stored⟩
    rw [header] at hhead
    cases hhead
    exact h.stored _ _ hget

omit [Codec AccountState] in
theorem Known.stored_block {headers : List BlockHeader} (h : Known headers c)
    (hblock : block.header ∈ headers) :
    Known headers { c with blockStorage := c.blockStorage.stored block } := by
  refine ⟨h.current, fun k h' hk => ?_⟩
  rcases of_headers_stored hk with rfl | hget
  · exact hblock
  · exact h.stored k h' hget

theorem Known.put {headers : List BlockHeader} (h : Known headers c)
    (hblock : block.header ∈ headers) {res : Except (Fail ChainError) Unit}
    (hp : Put S setup env block c res c') : Known headers c' := by
  -- the current header stays or becomes the block's, and the stored ones stay
  have hnew {c₁ : ChainState} (hheader : c₁.header = some block.header)
      (hstorage : c₁.blockStorage = c.blockStorage) : Known headers c₁ := by
    refine ⟨fun head hhead => ?_, by rw [hstorage]; exact h.stored⟩
    rw [hheader] at hhead
    cases hhead
    exact hblock
  have hsame {c₁ : ChainState} (ho : c₁.outline = c.outline) : Known headers c₁ :=
    ⟨by rw [show c₁.header = c.header from congrArg (fun p => p.1) ho]; exact h.current,
      by rw [show c₁.blockStorage = c.blockStorage from congrArg (fun p => p.2.1) ho]
         exact h.stored⟩
  cases hp with
  | rejected outline => exact hsame outline
  | unsent processed closed header storage => exact hnew header storage
  | put processed accepted =>
    refine Known.stored_block ?_ hblock
    cases accepted with
    | onHead current hashed parent header storage sent => exact hnew header storage
    | beside current parent level outline => exact hsame outline
    | overtakes current parent level header storage => exact hnew header storage

/-- The genesis header and the headers of all blocks of a run. -/
def knownHeaders (setup : Setup) (calls : List Call) : List BlockHeader :=
  (new setup .empty).state.header.toList ++
    calls.flatMap fun call => call.blocks.map fun block => block.header

/-- No block of the run has the state root of its parent. -/
def RootsMove (setup : Setup) (calls : List Call) : Prop :=
  ∀ call ∈ calls, ∀ block ∈ call.blocks, ∀ parent ∈ knownHeaders setup calls,
    parent.hash = block.parentHash → parent.stateRoot ≠ block.header.stateRoot

instance (setup : Setup) (calls : List Call) : Decidable (RootsMove setup calls) := by
  unfold RootsMove
  infer_instance

theorem InStep.call (hg : KeccakGood S) (hsha : Sha256Good S) {headers : List BlockHeader}
    (call : Call) (hpay : ∀ block ∈ call.blocks, ∀ tx ∈ block.transactions, tx.isPayment = true)
    (hknown : ∀ block ∈ call.blocks, block.header ∈ headers)
    (hmoves : ∀ block ∈ call.blocks, ∀ parent ∈ headers, parent.hash = block.parentHash →
      parent.stateRoot ≠ block.header.stateRoot)
    (h : Wf S c ∧ Known headers c ∧ InStep S c) :
    wp S (call.run setup) c fun _ c' => Wf S c' ∧ Known headers c' ∧ InStep S c' := by
  obtain ⟨hc, hk, hs⟩ := h
  refine wp_putChain_keeps ?_ ?_ ⟨hc, hk, hs⟩
  · intro head first res c' _ _ _ hr
    exact ⟨hc.rolledBack hr, hk.rolledBack hr, hs.rolledBack hg hr⟩
  · intro block hblock oldHead c h hlog
    obtain ⟨hc, hk, hs⟩ := h
    have hput := wp_putBlock S setup call.env oldHead block c hlog
    refine ⟨hc.put hput, hk.put (hknown block hblock) hput, ?_⟩
    exact hs.put hg hsha hc oldHead (hpay block hblock)
      (fun head hhead => hmoves block hblock head (hk.current head hhead)) hlog

/-! ## The start -/

/-- Nothing committed yet, and something to commit. -/
structure Filled (S : Set Query) (s : State) : Prop where
  good : State.Good S s
  root : s.root = .zero
  filled : ∃ n, State.Shows S s n ∧ n.trie ≠ .empty

omit [Codec AccountState] in
theorem Filled.of_fixed {s s' : State} (hg : KeccakGood S) (h : Filled S s)
    (hf : s'.fixed = s.fixed) : Filled S s' := by
  have htrie : s'.trie = s.trie := congrArg Prod.fst hf
  obtain ⟨n, hn, hne⟩ := h.filled
  refine ⟨h.good.effect (c := .commit) hg (.of_fixed h.good hf), ?_, n, hn.congr htrie, hne⟩
  show s'.trie.head.root = .zero
  rw [htrie]
  exact h.root

theorem filled_put {s s' : State} {n : Snapshot} (hg : KeccakGood S) (hgood : State.Good S s)
    (hroot : s.root = .zero) (hn : State.Shows S s n) {a : Address} {x : AccountState}
    (hshows : State.Shows S s' (n.put a x)) (hsame : State.SameBase s s') : Filled S s' := by
  refine ⟨hgood.effect (c := .commit) hg (.staged hsame hshows),
    (congrArg SparseMerkleTree.root hsame.head).trans hroot, _, hshows, fun hempty => ?_⟩
  have hget := Snapshot.put_trie_get (a := a) (x := x) (hn.sound hg).isTrie.wf (TreeDB.place a)
  rw [hempty, if_pos rfl] at hget
  cases hget

omit [Codec AccountState] in
theorem Filled.committed {s : State} (hg : KeccakGood S) (h : Filled S s) :
    State.Good S { s with trie := s.trie.committed !s.readOnly } ∧
      State.Clean { s with trie := s.trie.committed !s.readOnly } := by
  obtain ⟨n, hn, hne⟩ := h.filled
  obtain ⟨rh, hinv⟩ := hn.inv
  have hmove : s.root ≠ n.trie.hash := by
    rw [h.root, ← hn.root]
    exact fun hz => hne ((hinv.staging.rep.root_eq_zero_iff hg).1 hz.symm)
  obtain ⟨hgood, hclean, -⟩ := h.good.committed hg hn hmove
  exact ⟨hgood, hclean⟩

/-- A node that starts on empty stores has committed its first accounts. -/
theorem wp_new_clean (hg : KeccakGood S) (setup : Setup) :
    wp S (new setup) .empty fun res c =>
      res = .ok () → State.Good S c.state ∧ c.state.Clean := by
  have hst : Stored S (BTreeMap.empty : BTreeMap H256 SparseMerkleTree) := nofun
  have hopen : TreeDB.Inv S (TreeDB.openDb State.new.trie.db) .empty .empty := TreeDB.inv_open S hst
  refine wp_bind (wp_modify ?_)
  refine wp_bind_run (a := none) rfl ?_
  set s₀ : State := { State.new with trie := .openDb State.new.trie.db } with hs₀
  have hn : State.Shows S s₀ ⟨.empty, s₀.trie.view⟩ := State.shows_of_inv hopen
  have hgood : State.Good S s₀ := ⟨⟨_, hn⟩, rfl, rfl⟩
  refine wp_bind_onState (State.wp_creditBalance hg hn .zero 1000000000000)
    (fun _ _ _ _ => nofun) fun _ s₁ hcredit => ?_
  have h₁ : Filled S s₁ := by
    split at hcredit
    · exact filled_put hg hgood rfl hn hcredit.2.1 hcredit.2.2.1
    · cases hcredit.1
  refine wp_bind_keeps (g := fun c => c.state.fixed)
    (keeps_createBuiltIn _ (fun _ _ _ => rfl) (fun _ _ _ => rfl) _ _) rfl
    (fun _ _ _ => nofun) fun states c₂ h₂ => ?_
  have h₂ : Filled S c₂.state := h₁.of_fixed hg h₂
  have hset : wp S (forEach (fun e => do let _ ← onState (State.setAccountState e.1 e.2))
      (setup.order states.entries)) c₂ fun _ c => Filled S c.state := by
    refine wp_forEach_inv (P := fun c => Filled S c.state) (fun e _ c h => ?_) c₂ h₂
    obtain ⟨n, hn, -⟩ := h.filled
    have hput : wp S (State.setAccountState e.1 e.2) c.state fun _ s' => Filled S s' := by
      refine wp_bind (wp_mono (State.wp_putAccount hg hn e.1 e.2) ?_)
      intro res s' hput
      obtain ⟨rfl, hshows, hsame, -, -⟩ := hput
      exact wp_bind (wp_get (wp_pure (filled_put hg h.good h.root hn hshows hsame)))
    exact wp_bind_onState hput (fun _ _ _ h => h) fun _ _ h => wp_pure h
  refine wp_bind (wp_mono hset ?_)
  intro res c₃ h₃
  cases res with
  | error e => exact nofun
  | ok u =>
    refine wp_bind_run (onState_run (State.commit_run _)) ?_
    intro _ _
    exact h₃.committed hg

/-- **The state root is that of the current header** after every call, in every run of blocks of
payments in which no block has the state root of its parent. -/
theorem header_state_root (hg : KeccakGood S) (hsha : Sha256Good S)
    (hstart : (new setup .empty).res = .ok ()) (calls : List Call)
    (hpay : ∀ call ∈ calls, ∀ block ∈ call.blocks, ∀ tx ∈ block.transactions,
      tx.isPayment = true)
    (hmoves : RootsMove setup calls) (hlog : ∀ q ∈ allQueries setup calls, q ∈ S) :
    ∃ head, (reached setup calls).header = some head ∧
      (reached setup calls).state.root = head.stateRoot := by
  have hlog₀ : ∀ q ∈ (new setup .empty).log, q ∈ S := fun q hq =>
    hlog q (List.mem_append_left _ hq)
  obtain ⟨genesis, hgenesis⟩ := wp_new S setup hlog₀ hstart
  obtain ⟨hgood, hclean⟩ := wp_new_clean hg setup hlog₀ hstart
  have hmem : genesis ∈ knownHeaders setup calls := by
    refine List.mem_append_left _ ?_
    rw [hgenesis.header]
    exact List.mem_singleton.2 rfl
  have hknown : Known (knownHeaders setup calls) (new setup .empty).state := by
    refine ⟨fun head hhead => ?_, fun k h hk => ?_⟩
    · rw [hgenesis.header] at hhead
      cases hhead
      exact hmem
    · rw [hgenesis.storage] at hk
      rcases of_headers_stored hk with rfl | hget
      · exact hmem
      · cases hget
  have hrun : Wf S (reached setup calls) ∧ Known (knownHeaders setup calls) (reached setup calls) ∧
      InStep S (reached setup calls) := after_inv
    (P := fun c => Wf S c ∧ Known (knownHeaders setup calls) c ∧ InStep S c)
    (fun call hcall c h => InStep.call hg hsha call (hpay call hcall)
      (fun block hblock => List.mem_append_right _
        (List.mem_flatMap.2 ⟨call, hcall, List.mem_map_of_mem hblock⟩))
      (hmoves call hcall) h)
    ⟨hgenesis.wf, hknown, hgood, hclean, genesis, hgenesis.header, hgenesis.root⟩
    fun q hq => hlog q (List.mem_append_right _ hq)
  exact hrun.2.2.agree

end Crypto

section Agreement

open scoped Sample
open SampleChain

@[irreducible] def agreementLog : List Query := allQueries setup [⟨env, [d1]⟩]

theorem header_state_root_sample :
    RootsMove setup [⟨env, [d1]⟩] ∧ ∃ head, (reached setup [⟨env, [d1]⟩]).header = some head ∧
      (reached setup [⟨env, [d1]⟩]).state.root = head.stateRoot := by
  have hmoves : RootsMove setup [⟨env, [d1]⟩] := by decide +kernel
  have hg : KeccakGood {q | q ∈ agreementLog} :=
    Sample.keccakGood_of_collisionFree (by decide +kernel)
  have hsha : Sha256Good {q | q ∈ agreementLog} := fun a b ha hb =>
    Sample.sha256_inj_of_distinct (by decide +kernel) ha hb
  refine ⟨hmoves, header_state_root hg hsha (by decide +kernel) _ (by decide) hmoves ?_⟩
  intro q hq
  show q ∈ agreementLog
  rw [agreementLog]
  exact hq

/-- `b5` has the state root of its parent `f4`: its writes stay pending. The copy of the state that
`b6` is processed on does not show them, the state itself does. -/
theorem putChain_parts_header_and_state :
    (reached setup [⟨env, [b1]⟩, ⟨env, [b2]⟩, ⟨env, [a3, b3]⟩, ⟨env, [f4]⟩, ⟨env, [b5]⟩,
        ⟨env, [b6]⟩]).header = some b6.header ∧
      (reached setup [⟨env, [b1]⟩, ⟨env, [b2]⟩, ⟨env, [a3, b3]⟩, ⟨env, [f4]⟩, ⟨env, [b5]⟩,
        ⟨env, [b6]⟩]).state.root ≠ b6.header.stateRoot := by
  decide +kernel

end Agreement

end ChainState

end Uchain
