import Uchain.Blockchain.ChainState
import Uchain.Blockchain.Proof.Storage
import Uchain.Consensus.Reader
import Uchain.State.Proof.Frames
import Uchain.State.Proof.Snapshot

/-!
# What a call of `put_chain` can do

The methods of the chain state, each with all that a run of it can do. The rest of the development
about chains uses these and not the definitions.
-/

namespace Uchain

open Lib Exec

section Crypto

variable [Crypto] {S : Set Query}

/-! ## Reading headers -/

def IndexedBlockHeader.of (h : BlockHeader) : IndexedBlockHeader := ⟨h.hash, h⟩

namespace BlockStorage

def headerByHash (b : BlockStorage) (hash : H256) : Option BlockHeader :=
  (b.blockByHash.get? hash).bind fun k => b.headers.get? k

def headerByLevel (b : BlockStorage) (level : UInt32) : Option BlockHeader :=
  (b.blockByLevel.get? level).bind fun k => b.headers.get? k

def indexQueries : Option BlockHeader → List Query
  | none => []
  | some h => h.queries

theorem getHeader_run (hash : H256) (level : UInt32) (b : BlockStorage) :
    getHeader hash level b = ⟨.ok ((b.headers.get? (toLex (level, hash))).map .of), b,
      indexQueries (b.headers.get? (toLex (level, hash)))⟩ := by
  unfold getHeader
  rw [get_bind]
  cases b.headers.get? (toLex (level, hash)) with
  | none => rfl
  | some h =>
    show Run.mk _ _ ((h.queries ++ []) ++ []) = _
    rw [List.append_nil, List.append_nil]
    rfl

theorem getHeaderAt_run (o : Option BlockPrimaryKey) (b : BlockStorage) :
    getHeaderAt o b = ⟨.ok ((o.bind fun k => b.headers.get? k).map .of), b,
      indexQueries (o.bind fun k => b.headers.get? k)⟩ := by
  cases o with
  | none => rfl
  | some k => exact getHeader_run (ofLex k).2 (ofLex k).1 b

theorem getHeaderByHash_run (hash : H256) (b : BlockStorage) :
    getHeaderByHash hash b =
      ⟨.ok ((b.headerByHash hash).map .of), b, indexQueries (b.headerByHash hash)⟩ := by
  unfold getHeaderByHash
  rw [get_bind]
  exact getHeaderAt_run _ b

theorem getHeaderByLevel_run (level : UInt32) (b : BlockStorage) :
    getHeaderByLevel level b =
      ⟨.ok ((b.headerByLevel level).map .of), b, indexQueries (b.headerByLevel level)⟩ := by
  unfold getHeaderByLevel
  rw [get_bind]
  exact getHeaderAt_run _ b

theorem keeps_getHeader (hash : H256) (level : UInt32) : Keeps id (getHeader hash level) :=
  fun b => by rw [getHeader_run]

theorem keeps_getHeaderByHash (hash : H256) : Keeps id (getHeaderByHash hash) :=
  fun b => by rw [getHeaderByHash_run]

/-- Headers are filed under their keys and indexed under their hashes, and all were hashed. -/
structure Indexed (S : Set Query) (b : BlockStorage) : Prop where
  filed : Filed b
  hashed : ∀ k h, b.headers.get? k = some h → h.HashedIn S
  byHash : ∀ hash k, b.blockByHash.get? hash = some k → (ofLex k).2 = hash

variable {b : BlockStorage} {h : BlockHeader} {hash : H256}

theorem Indexed.header (hb : Indexed S b) {level : UInt32}
    (hh : b.headers.get? (toLex (level, hash)) = some h) :
    h.level = level ∧ h.hash = hash ∧ h.HashedIn S := by
  have hkey := hb.filed _ _ hh
  exact ⟨congrArg (fun k => (ofLex k).1) hkey, congrArg (fun k => (ofLex k).2) hkey,
    hb.hashed _ _ hh⟩

theorem Indexed.headerByHash (hb : Indexed S b) (hh : b.headerByHash hash = some h) :
    h.hash = hash ∧ h.HashedIn S := by
  obtain ⟨k, hk, hget⟩ := Option.bind_eq_some_iff.1 hh
  have hkey := hb.filed _ _ hget
  exact ⟨(congrArg (fun k => (ofLex k).2) hkey).trans (hb.byHash _ _ hk), hb.hashed _ _ hget⟩

theorem indexed_new (S : Set Query) : Indexed S new := ⟨filed_new, nofun, nofun⟩

theorem of_headers_stored {block : Block} {k : BlockPrimaryKey}
    (hk : (b.stored block).headers.get? k = some h) :
    h = block.header ∨ b.headers.get? k = some h := by
  change (putAbsent b.headers (key block.header) block.header).get? k = some h at hk
  rw [get?_putAbsent] at hk
  split at hk
  · rename_i he
    rw [he]
    cases hget : b.headers.get? (key block.header) with
    | none =>
      rw [hget] at hk
      cases hk
      exact .inl rfl
    | some h' =>
      rw [hget] at hk
      exact .inr hk
  · exact .inr hk

theorem Indexed.stored (hb : Indexed S b) {block : Block} (hblock : block.header.HashedIn S) :
    Indexed S (b.stored block) := by
  refine ⟨hb.filed.stored block, fun k h hk => ?_, fun hash k hk => ?_⟩
  · rcases of_headers_stored hk with rfl | hget
    · exact hblock
    · exact hb.hashed k h hget
  · have hk : (b.blockByHash.insert block.hash (key block.header)).get? hash = some k := hk
    rw [BTreeMap.get?_insert] at hk
    split at hk
    · rename_i he
      cases hk
      exact he.symm
    · exact hb.byHash hash k hk

theorem Indexed.congr (hb : Indexed S b) {b' : BlockStorage} (hh : b'.headers = b.headers)
    (hk : b'.blockByHash = b.blockByHash) : Indexed S b' := by
  refine ⟨?_, ?_, ?_⟩
  · unfold Filed
    rw [hh]
    exact hb.filed
  · rw [hh]
    exact hb.hashed
  · rw [hk]
    exact hb.byHash

end BlockStorage

/-! ## The consensus reads the chain -/

namespace BarossaProtocol

open BlockStorage

theorem keeps_verifyHeader (p : BarossaProtocol) (now : Int) (header : BlockHeader) :
    Keeps id (p.verifyHeader now header) := by
  refine keeps_bind (keeps_getHeader _ _) fun found => keeps_bind (keeps_ofOption _ _) fun h => ?_
  refine keeps_ite (keeps_fail _) (keeps_bind (fun _ => rfl) fun hash => ?_)
  exact keeps_ite (keeps_pure _) (keeps_fail _)

theorem wp_prepareHeader (S : Set Query) (p : BarossaProtocol) (header : BlockHeader)
    (b : BlockStorage) : wp S (p.prepareHeader header) b fun res b' => b' = b ∧
      ∀ h, res = .ok h →
        ∃ parent, b.headers.get? (toLex (header.level - 1, header.parentHash)) = some parent := by
  obtain ⟨l, hrun⟩ := prepareHeader_run (p := p) (s := b) header
  intro _
  rw [hrun]
  refine ⟨rfl, fun h hh => ?_⟩
  obtain ⟨o, ho, hh⟩ := Answer.bind_eq_ok hh
  cases hget : b.headers.get? (toLex (header.level - 1, header.parentHash)) with
  | none =>
    rw [← Except.ok.inj ho, indexedHeader, hget] at hh
    cases hh
  | some parent => exact ⟨parent, rfl⟩

end BarossaProtocol

/-! ## The methods of the chain state -/

namespace ChainState

open BlockStorage

variable {c c' : ChainState} {block : Block} {setup : Setup} {env : Env}

/-- The current header, the storage and the state root. -/
def outline (c : ChainState) : Option BlockHeader × BlockStorage × H256 :=
  (c.header, c.blockStorage, c.state.root)

section Frames

omit [Crypto]

variable {α γ : Type} {f : ChainState → γ}

theorem keeps_onStorage {x : BlockStorage.M α} (hx : Keeps id x) : Keeps f (onStorage x) :=
  keeps_zoom_id (fun _ => rfl) hx

theorem keeps_ofState (x : Except StateError α) : Keeps f (ofState x) := by
  cases x with
  | error e => exact keeps_fail _
  | ok a => exact keeps_pure a

theorem keeps_ofExcept (x : Except ChainError α) : Keeps f (ofExcept x) := by
  cases x with
  | error e => exact keeps_fail _
  | ok a => exact keeps_pure a

variable {x : State.M α}

theorem keeps_outline (hx : Keeps (fun s => s.trie.head) x) :
    Keeps outline (onState x) := by
  refine keeps_mapErr _ fun c => ?_
  show (c.header, c.blockStorage, (x c.state).state.trie.head.root) = _
  rw [show (x c.state).state.trie.head = c.state.trie.head from hx c.state]
  rfl

variable {l : List Query}

theorem onState_run {a : α} {s' : State} (h : x c.state = ⟨.ok a, s', l⟩) :
    onState x c = ⟨.ok a, { c with state := s' }, l⟩ := by
  unfold onState mapErr zoom
  rw [h]

theorem onState_run_err {e : StateError} {s' : State} (h : x c.state = ⟨.error (.err e), s', l⟩) :
    onState x c = ⟨.error (.err (.state e)), { c with state := s' }, l⟩ := by
  unfold onState mapErr zoom
  rw [h]

theorem onStorage_run {x : BlockStorage.M α} {r : Except (Fail ChainError) α} {b : BlockStorage}
    (h : x c.blockStorage = ⟨r, b, l⟩) :
    onStorage x c = ⟨r, { c with blockStorage := b }, l⟩ := by
  unfold onStorage zoom
  rw [h]

theorem onState_bind {β : Type} (x : State.M α) (g : α → State.M β) :
    onState (x >>= g) = (onState x >>= fun a => onState (g a)) := by
  unfold onState
  rw [← mapErr_bind]
  refine congrArg _ (zoom_bind ?_ ?_ x g)
  · exact fun _ _ => rfl
  · exact fun _ _ _ => rfl

theorem wp_bind_onState {β : Type} {g : α → M β} {P : Except (Fail StateError) α → State → Prop}
    {Q : Except (Fail ChainError) β → ChainState → Prop} (hx : wp S x c.state P)
    (herr : ∀ e e' s', P (.error e) s' → Q (.error e') { c with state := s' })
    (hok : ∀ a s', P (.ok a) s' → wp S (g a) { c with state := s' } Q) :
    wp S (onState x >>= g) c Q := by
  refine wp_bind fun hlog => ?_
  unfold onState at hlog ⊢
  rw [mapErr_run] at hlog ⊢
  have hP : P (x c.state).res (x c.state).state := hx hlog
  show cont S g Q (mapFail _ (x c.state).res) { c with state := (x c.state).state }
  generalize (x c.state).res = res at hP
  rcases res with (e | _ | _) | a
  · exact herr _ _ _ hP
  · exact herr _ _ _ hP
  · exact herr _ _ _ hP
  · exact hok a _ hP

end Frames

theorem currentHeader_run {c : ChainState} {head : BlockHeader} (hc : c.header = some head) :
    ∃ l, currentHeader c = ⟨.ok (some (.of head)), c, l⟩ := by
  unfold currentHeader
  rw [get_bind, hc]
  exact ⟨_, rfl⟩

theorem wp_loadHead (S : Set Query) (c : ChainState) :
    wp S loadHead c fun res c' => c' = c ∧ ∀ i, res = .ok i →
      ∃ head, c.header = some head ∧ head.HashedIn S ∧ i = .of head := by
  have hget : (Exec.get : M ChainState) c = ⟨.ok c, c, []⟩ := rfl
  unfold loadHead currentHeader
  rw [bind_assoc]
  refine wp_bind_run hget ?_
  cases hc : c.header with
  | none => exact fun _ => ⟨rfl, nofun⟩
  | some head =>
    intro hlog
    refine ⟨rfl, fun i hi => ⟨head, rfl, fun q hq => hlog q ?_, ?_⟩⟩
    · exact List.mem_append_left _ (List.mem_append_left _ (List.mem_append_left _ hq))
    · cases hi
      rfl

variable [Codec AccountState]

/-- What is known of a block that was processed. -/
structure Processed (S : Set Query) (setup : Setup) (c : ChainState) (block : Block) : Prop where
  below : ∃ p, c.blockStorage.headers.get? (toLex (block.level - 1, block.parentHash)) = some p
  hashed : block.header.HashedIn S
  /-- The execution on a copy of the parent's state gives the header of the block. -/
  executed : ∃ parent copy prepared header,
    c.blockStorage.headerByHash block.parentHash = some parent ∧
    c.state.getStateAt parent.stateRoot = .ok copy ∧
    (setup.consensus.finalize setup.vm prepared block.transactions copy).res = .ok header ∧
    (∀ q ∈ (setup.consensus.finalize setup.vm prepared block.transactions copy).log, q ∈ S) ∧
    header.HashedIn S ∧ header.hash = block.header.hash

/-- `process_block` changes nothing. -/
theorem wp_processBlock (S : Set Query) (setup : Setup) (env : Env) (block : Block)
    (c : ChainState) : wp S (processBlock setup env block) c fun res c' => c' = c ∧
      (res = .ok () → Processed S setup c block) := by
  refine wp_bind (wp_zoom (wp_mono (BarossaProtocol.wp_prepareHeader S _ _ _) ?_))
  intro res b' hprepare
  obtain ⟨rfl, hbelow⟩ := hprepare
  cases res with
  | error e => exact ⟨rfl, nofun⟩
  | ok prepared =>
    refine wp_bind_res (onStorage_run (getHeaderByHash_run _ _)) ?_
    cases hparent : c.blockStorage.headerByHash block.parentHash with
    | none => exact fun _ => ⟨rfl, nofun⟩
    | some parent =>
      refine wp_bind_run (a := IndexedBlockHeader.of parent) rfl ?_
      refine wp_bind_run (show (Exec.get : M ChainState) c = ⟨.ok c, c, []⟩ from rfl) ?_
      cases hcopy : c.state.getStateAt (IndexedBlockHeader.of parent).raw.stateRoot with
      | error e => exact fun _ => ⟨rfl, nofun⟩
      | ok copy =>
        refine wp_bind_run (a := copy) rfl ?_
        refine wp_bind fun hlog => ?_
        show cont S _ _ (Except.map _ (setup.consensus.finalize _ _ _ copy).res) c
        cases hfinal : (setup.consensus.finalize setup.vm prepared block.transactions copy).res with
        | error e => exact ⟨rfl, nofun⟩
        | ok header =>
          refine wp_bind_keeps (keeps_mapErr _ (keeps_onStorage
            (BarossaProtocol.keeps_verifyHeader _ _ _))) rfl (fun e c' hc' => ⟨hc', nofun⟩) ?_
          intro _ c' hc'
          obtain rfl : c' = c := hc'
          refine wp_bind (BlockHeader.wp_hashed fun hheader => ?_)
          refine wp_bind (BlockHeader.wp_hashed fun hblock => ?_)
          refine wp_ite (fun _ => fun _ => ⟨rfl, nofun⟩) fun hne => wp_pure ⟨rfl, fun _ => ?_⟩
          exact ⟨hbelow prepared rfl, hblock, parent, copy, prepared, header, hparent, hcopy, hfinal,
            hlog, hheader, not_not.1 hne⟩

/-- The ways in which `accept_block` ends. -/
inductive Accepted (S : Set Query) (env : Env) (block : Block) (c : ChainState) :
    Except (Fail ChainError) Bool → ChainState → Prop where
  | failed {e : Fail ChainError} {c' : ChainState} (outline : c'.outline = c.outline) :
      Accepted S env block c (.error e) c'
  /-- The block is on the head; the call fails if the event channel is closed. -/
  | onHead {res : Except (Fail ChainError) Bool} {c' : ChainState} {head : BlockHeader}
      (current : c.header = some head) (hashed : head.HashedIn S)
      (parent : block.parentHash = head.hash) (header : c'.header = some block.header)
      (storage : c'.blockStorage = c.blockStorage)
      (sent : env.send block.header = true → res = .ok true) : Accepted S env block c res c'
  /-- The block is on another branch, which is not above the head. -/
  | beside {c' : ChainState} {head : BlockHeader} (current : c.header = some head)
      (parent : block.parentHash ≠ head.hash) (level : ¬ head.level < block.level)
      (outline : c'.outline = c.outline) : Accepted S env block c (.ok false) c'
  /-- The block is on another branch and becomes the head. -/
  | overtakes {c' : ChainState} {head : BlockHeader} (current : c.header = some head)
      (parent : block.parentHash ≠ head.hash) (level : head.level < block.level)
      (header : c'.header = some block.header)
      (storage : c'.blockStorage = c.blockStorage) : Accepted S env block c (.ok true) c'

theorem wp_acceptOnHead {head : BlockHeader} (hc : c.header = some head)
    (hashed : head.HashedIn S) (hparent : block.parentHash = head.hash) :
    wp S (acceptOnHead setup env block) c (Accepted S env block c) := by
  refine wp_bind_keeps (keeps_outline (State.keeps_applyTxs _ _)) rfl
    (fun _ _ ho => .failed ho) fun _ c₁ ho₁ => ?_
  refine wp_bind_keeps (keeps_outline (State.keeps_creditBalance _ _)) ho₁
    (fun _ _ ho => .failed ho) fun _ c₂ ho₂ => ?_
  have hstorage : c₂.blockStorage = c.blockStorage := congrArg (fun p => p.2.1) ho₂
  refine wp_bind_run (onState_run (State.commit_run _)) ?_
  refine wp_bind (wp_modify ?_)
  refine wp_ite (fun _ => ?_) fun hclosed => ?_
  · exact wp_pure (.onHead hc hashed hparent rfl hstorage fun _ => rfl)
  · exact wp_err (.onHead hc hashed hparent rfl hstorage fun hopen => absurd hopen hclosed)

theorem wp_acceptBeside {head : BlockHeader} (hc : c.header = some head)
    (hparent : block.parentHash ≠ head.hash) :
    wp S (acceptBeside setup env (.of head) block) c (Accepted S env block c) := by
  refine wp_bind_keeps (keeps_onStorage (keeps_getHeaderByHash _)) rfl
    (fun _ _ ho => .failed ho) fun found c₁ ho₁ => ?_
  refine wp_bind_keeps (keeps_ofOption _ _) ho₁ (fun _ _ ho => .failed ho)
    fun parentHeader c₂ ho₂ => ?_
  refine wp_bind_keeps (keeps_outline (State.keeps_applyTxsNoCommit _ _ _ _ _ _)) ho₂
    (fun _ _ ho => .failed ho) fun root c₃ ho₃ => ?_
  have hstorage : c₃.blockStorage = c.blockStorage := congrArg (fun p => p.2.1) ho₃
  refine wp_ite (fun _ => wp_err (.failed ho₃)) fun _ => ?_
  refine wp_ite (fun hlevel => ?_) fun hlevel => wp_pure (.beside hc hparent hlevel ho₃)
  have hreset := State.reset_run block.header.stateRoot c₃.state
  cases htree : c₃.state.trie.db.trees.get? block.header.stateRoot with
  | none =>
    rw [htree] at hreset
    exact wp_bind_res (onState_run_err hreset) (.failed ho₃)
  | some tree =>
    rw [htree] at hreset
    refine wp_bind_run (onState_run hreset) (wp_bind (wp_modify ?_))
    exact wp_pure (.overtakes hc hparent hlevel rfl hstorage)

theorem wp_acceptBlock (S : Set Query) (setup : Setup) (env : Env) (block : Block)
    (c : ChainState) : wp S (acceptBlock setup env block) c (Accepted S env block c) := by
  refine wp_bind (wp_mono (wp_loadHead S c) ?_)
  intro res c' hload
  obtain ⟨rfl, hhead⟩ := hload
  cases res with
  | error e => exact .failed rfl
  | ok i =>
    obtain ⟨head, hc, hashed, rfl⟩ := hhead i rfl
    exact wp_ite (fun hparent => wp_acceptOnHead hc hashed hparent)
      fun hparent => wp_acceptBeside hc hparent

/-- The ways in which putting one block ends. -/
inductive Put (S : Set Query) (setup : Setup) (env : Env) (block : Block) (c : ChainState) :
    Except (Fail ChainError) Unit → ChainState → Prop where
  | rejected {e : Fail ChainError} {c' : ChainState} (outline : c'.outline = c.outline) :
      Put S setup env block c (.error e) c'
  /-- The block became the head, and the event channel is closed. -/
  | unsent {e : Fail ChainError} {c' : ChainState} (processed : Processed S setup c block)
      (closed : ¬ env.send block.header = true) (header : c'.header = some block.header)
      (storage : c'.blockStorage = c.blockStorage) : Put S setup env block c (.error e) c'
  | put {res : Except (Fail ChainError) Unit} {repack : Bool} {c₁ : ChainState}
      (processed : Processed S setup c block) (accepted : Accepted S env block c (.ok repack) c₁) :
      Put S setup env block c res { c₁ with blockStorage := c₁.blockStorage.stored block }

theorem wp_putBlock (S : Set Query) (setup : Setup) (env : Env) (oldHead : IndexedBlockHeader)
    (block : Block) (c : ChainState) :
    wp S (putBlock setup env oldHead block) c (Put S setup env block c) := by
  refine wp_bind (wp_mono (wp_processBlock S setup env block c) ?_)
  intro res c' hprocess
  obtain ⟨rfl, hprocessed⟩ := hprocess
  cases res with
  | error e => exact .rejected rfl
  | ok u =>
    have processed := hprocessed rfl
    refine wp_bind (wp_mono (wp_acceptBlock S setup env block c') ?_)
    intro res c₁ accepted
    cases res with
    | error e =>
      cases accepted with
      | failed outline => exact .rejected outline
      | onHead current hashed parent header storage sent =>
        exact .unsent processed (fun hopen => nomatch sent hopen) header storage
    | ok repack =>
      refine wp_bind_res (onStorage_run (put_run block _)) ?_
      refine wp_ite (fun _ => ?_) fun _ => wp_pure (.put processed accepted)
      intro _
      have hkeeps : ((ofExcept (env.repack oldHead.raw block.header) : M Unit)
          { c₁ with blockStorage := c₁.blockStorage.stored block }).state =
            { c₁ with blockStorage := c₁.blockStorage.stored block } :=
        keeps_ofExcept (f := id) _ _
      rw [hkeeps]
      exact .put processed accepted

/-- What the removal of a stale branch leaves alone. -/
def beyondIndex (c : ChainState) : State × Option BlockHeader × BTreeMap BlockPrimaryKey BlockHeader ×
    BTreeMap H256 BlockPrimaryKey :=
  (c.state, c.header, c.blockStorage.headers, c.blockStorage.blockByHash)

omit [Codec AccountState] in
theorem keeps_removeStale (parentHash : H256) (n : Nat) :
    ∀ head, Keeps beyondIndex (removeStale parentHash n head) := by
  induction n with
  | zero => exact fun _ => keeps_fail _
  | succ n ih =>
    intro head
    refine keeps_bind (keeps_onStorage (keeps_getHeaderByHash head)) fun found => ?_
    cases found with
    | none => exact keeps_pure _
    | some i => exact keeps_bind (fun _ => rfl) fun _ => keeps_ite (keeps_pure _) (ih _)

def resetTo (tree : SparseMerkleTree) (s : State) : State :=
  { s with trie := { s.trie with head := tree, staging := tree.subtree s.trie.strategy } }

/-- The ways in which going back to the parent of a block ends. -/
inductive RolledBack (c : ChainState) (first : Block) :
    Except (Fail ChainError) Unit → ChainState → Prop where
  | failed {e : Fail ChainError} : RolledBack c first (.error e) c
  | moved {res : Except (Fail ChainError) Unit} {c' : ChainState} {parent : BlockHeader}
      {tree : SparseMerkleTree}
      (parent_eq : c.blockStorage.headerByHash first.parentHash = some parent)
      (found : c.state.trie.db.trees.get? parent.stateRoot = some tree)
      (state : c'.state = resetTo tree c.state) (header : c'.header = some parent)
      (headers : c'.blockStorage.headers = c.blockStorage.headers)
      (byHash : c'.blockStorage.blockByHash = c.blockStorage.blockByHash) :
      RolledBack c first res c'

omit [Codec AccountState] in
theorem wp_rollBack (S : Set Query) (head : IndexedBlockHeader) (first : Block) (c : ChainState) :
    wp S (rollBack head first) c (RolledBack c first) := by
  refine wp_bind_res (onStorage_run (getHeaderByHash_run _ _)) ?_
  cases hparent : c.blockStorage.headerByHash first.parentHash with
  | none => exact fun _ => .failed
  | some parent =>
    refine wp_bind_run (a := IndexedBlockHeader.of parent) rfl ?_
    have hreset := State.reset_run parent.stateRoot c.state
    cases htree : c.state.trie.db.trees.get? parent.stateRoot with
    | none =>
      rw [htree] at hreset
      exact wp_bind_res (onState_run_err hreset) .failed
    | some tree =>
      rw [htree] at hreset
      refine wp_bind_run (onState_run hreset) (wp_bind (wp_modify ?_))
      have hmoved {res : Except (Fail ChainError) Unit} {c' : ChainState}
          (h : c'.beyondIndex = beyondIndex ⟨resetTo tree c.state, c.blockStorage, some parent⟩) :
          RolledBack c first res c' :=
        .moved hparent htree (congrArg (fun p => p.1) h) (congrArg (fun p => p.2.1) h)
          (congrArg (fun p => p.2.2.1) h) (congrArg (fun p => p.2.2.2) h)
      refine wp_bind_keeps (fun _ => rfl) rfl (fun _ _ h => hmoved h) fun stale c₁ h₁ => ?_
      refine wp_bind_run (show (Exec.get : M ChainState) c₁ = ⟨.ok c₁, c₁, []⟩ from rfl) ?_
      intro _
      exact hmoved ((keeps_removeStale _ _ _ c₁).trans h₁)

omit [Codec AccountState] in
theorem wp_prepareChain (S : Set Query) (head : IndexedBlockHeader) (first : Block)
    (c : ChainState) : wp S (prepareChain head first) c fun res c' =>
      (rollsBack head first = true → RolledBack c first res c') ∧
      (rollsBack head first = false → res = .ok () ∧ c' = c) := by
  unfold prepareChain
  refine wp_ite (fun hroll => ?_) fun hroll => ?_
  · refine wp_mono (wp_rollBack S head first c) fun res c' h => ⟨fun _ => h, fun hno => ?_⟩
    rw [hroll] at hno
    cases hno
  · exact wp_pure ⟨fun hyes => absurd hyes hroll, fun _ => ⟨rfl, rfl⟩⟩

variable {P : ChainState → Prop}

/-- **What every step keeps, a call keeps**, also one that fails. -/
theorem wp_putChain_keeps {blocks : List Block}
    (hroll : ∀ head first res c', c.header = some head → first ∈ blocks → rollsBack (.of head) first = true → RolledBack c first res c' → P c')
    (hput : ∀ block ∈ blocks, ∀ oldHead c, P c → wp S (putBlock setup env oldHead block) c fun _ c' => P c')
    (hc : P c) : wp S (putChain setup env blocks) c fun _ c' => P c' := by
  refine wp_bind (wp_mono (wp_loadHead S c) ?_)
  intro res c' hload
  obtain ⟨rfl, hhead⟩ := hload
  cases res with
  | error e => exact hc
  | ok i =>
    obtain ⟨head, hheader, -, rfl⟩ := hhead i rfl
    cases blocks with
    | nil => exact wp_fail hc
    | cons first rest =>
      refine wp_bind (wp_mono (wp_prepareChain S (.of head) first c') ?_)
      intro res c₁ hprepare
      have hc₁ : P c₁ := by
        cases hrolls : rollsBack (.of head) first with
        | true => exact hroll head first res c₁ hheader List.mem_cons_self hrolls (hprepare.1 hrolls)
        | false => rw [(hprepare.2 hrolls).2]; exact hc
      cases res with
      | error e => exact hc₁
      | ok u => exact wp_forEach_inv (fun block hblock => hput block hblock (.of head)) c₁ hc₁

theorem wp_putChain_inv {blocks : List Block}
    (hroll : ∀ head first res c', c.header = some head → first ∈ blocks → rollsBack (.of head) first = true → RolledBack c first res c' → P c')
    (hput : ∀ block ∈ blocks, ∀ c res c', P c → Put S setup env block c res c' → P c') (hc : P c) :
    wp S (putChain setup env blocks) c fun _ c' => P c' := by
  refine wp_putChain_keeps hroll (fun block hblock oldHead c hc => ?_) hc
  exact wp_mono (wp_putBlock S setup env oldHead block c) fun res c' =>
    hput block hblock c res c' hc

/-! ## Runs -/

structure Call where
  env : Env
  blocks : List Block

def Call.run (setup : Setup) (call : Call) : M Unit := putChain setup call.env call.blocks

def after (setup : Setup) (c : ChainState) (calls : List Call) : ChainState :=
  calls.foldl (fun c call => (call.run setup c).state) c

def queries (setup : Setup) : List Call → ChainState → List Query
  | [], _ => []
  | call :: calls, c => (call.run setup c).log ++ queries setup calls (call.run setup c).state

/-- **What every call keeps, a run keeps.** -/
theorem after_inv {calls : List Call}
    (hcall : ∀ call ∈ calls, ∀ c, P c → wp S (call.run setup) c fun _ c' => P c') :
    ∀ {c}, P c → (∀ q ∈ queries setup calls c, q ∈ S) → P (after setup c calls) := by
  induction calls with
  | nil => exact fun hc _ => hc
  | cons call calls ih =>
    intro c hc hlog
    have hstep : P (call.run setup c).state :=
      hcall call List.mem_cons_self c hc fun q hq => hlog q (List.mem_append_left _ hq)
    exact ih (fun call' h' => hcall call' (List.mem_cons_of_mem call h')) hstep
      fun q hq => hlog q (List.mem_append_right _ hq)

/-! ## The start -/

/-- The chain has one block, the genesis block. -/
structure AtGenesis (S : Set Query) (c : ChainState) (genesis : BlockHeader) : Prop where
  storage : c.blockStorage = BlockStorage.new.stored ⟨genesis, []⟩
  header : c.header = some genesis
  hashed : genesis.HashedIn S
  level : genesis.level = 0
  root : c.state.root = genesis.stateRoot

def chainPart (c : ChainState) : BlockStorage × Option BlockHeader := (c.blockStorage, c.header)

omit [Crypto] [Codec AccountState] in
theorem keeps_chainPart {α : Type} (x : State.M α) : Keeps chainPart (onState x) :=
  keeps_mapErr _ (keeps_zoom _ fun _ _ => rfl)

omit [Codec AccountState] in
theorem keeps_createBuiltIn {γ : Type} {f : ChainState → γ} (setup : Setup)
    (hdata : ∀ key storage, Keeps f (onState (State.putAppdata key storage)))
    (hmeta : ∀ codeHash m, Keeps f (onState (State.putMetadata codeHash m)))
    (builtIn : List (String × Bytes)) :
    ∀ states, Keeps f (createBuiltIn setup builtIn states) := by
  induction builtIn with
  | nil => exact fun _ => keeps_pure _
  | cons app builtIn ih =>
    intro states
    refine keeps_bind (keeps_ofState _) fun appAddress => keeps_bind keeps_get fun c => ?_
    refine keeps_bind (keeps_ofState _) fun created => keeps_bind (fun _ => rfl) fun codeHash => ?_
    dsimp only
    split
    · exact keeps_fail _
    · exact keeps_bind (hdata _ _) fun _ => keeps_bind (hmeta _ _) fun _ => ih _

/-- A node that starts on empty stores is at genesis. -/
theorem wp_new (S : Set Query) (setup : Setup) :
    wp S (new setup) .empty fun res c => res = .ok () → ∃ genesis, AtGenesis S c genesis := by
  refine wp_bind (wp_modify ?_)
  refine wp_bind_run (a := none) rfl ?_
  refine wp_bind_keeps (g := chainPart) (c := (BlockStorage.new, none)) (keeps_chainPart _) rfl
    (fun _ _ _ => nofun) fun _ c₁ h₁ => ?_
  refine wp_bind_keeps (keeps_createBuiltIn _ (fun _ _ => keeps_chainPart _)
    (fun _ _ => keeps_chainPart _) _ _) h₁ (fun _ _ _ => nofun) fun states c₂ h₂ => ?_
  refine wp_bind_keeps (keeps_forEach (fun e => keeps_bind (keeps_chainPart _)
    fun _ => keeps_pure _) _) h₂ (fun _ _ _ => nofun) fun _ c₃ h₃ => ?_
  refine wp_bind_keeps (keeps_chainPart _) h₃ (fun _ _ _ => nofun) fun _ c₄ h₄ => ?_
  refine wp_bind_run (show (Exec.get : M ChainState) c₄ = ⟨.ok c₄, c₄, []⟩ from rfl) ?_
  have hstorage : c₄.blockStorage = BlockStorage.new := congrArg Prod.fst h₄
  refine wp_bind fun hlog => ?_
  rw [onStorage_run (put_run _ _)] at hlog ⊢
  refine wp_modify fun _ => ⟨_, ?_, rfl, hlog, rfl, rfl⟩
  rw [hstorage]

/-- The storage is indexed and there is a current header. -/
structure Wf (S : Set Query) (c : ChainState) : Prop where
  storage : Indexed S c.blockStorage
  header : ∃ head, c.header = some head ∧ head.HashedIn S

omit [Codec AccountState] in
theorem AtGenesis.wf {genesis : BlockHeader} (h : AtGenesis S c genesis) : Wf S c := by
  refine ⟨?_, genesis, h.header, h.hashed⟩
  rw [h.storage]
  exact (indexed_new S).stored h.hashed

omit [Codec AccountState] in
theorem Wf.of_outline (h : Wf S c) (ho : c'.outline = c.outline) : Wf S c' := by
  have hheader : c'.header = c.header := congrArg (fun p => p.1) ho
  have hstorage : c'.blockStorage = c.blockStorage := congrArg (fun p => p.2.1) ho
  exact ⟨by rw [hstorage]; exact h.storage, by rw [hheader]; exact h.header⟩

omit [Codec AccountState] in
theorem Wf.rolledBack {first : Block} {res : Except (Fail ChainError) Unit} (h : Wf S c)
    (hr : RolledBack c first res c') : Wf S c' := by
  cases hr with
  | failed => exact h
  | moved parent_eq found state header headers byHash =>
    exact ⟨h.storage.congr headers byHash, _, header, (h.storage.headerByHash parent_eq).2⟩

theorem Wf.put {res : Except (Fail ChainError) Unit} (h : Wf S c)
    (hp : Put S setup env block c res c') : Wf S c' := by
  cases hp with
  | rejected outline => exact h.of_outline outline
  | unsent processed closed header storage =>
    exact ⟨by rw [storage]; exact h.storage, _, header, processed.hashed⟩
  | @put res repack c₁ processed accepted =>
    have hwf : Wf S c₁ := by
      cases accepted with
      | onHead current hashed parent header storage sent =>
        exact ⟨by rw [storage]; exact h.storage, _, header, processed.hashed⟩
      | beside current parent level outline => exact h.of_outline outline
      | overtakes current parent level header storage =>
        exact ⟨by rw [storage]; exact h.storage, _, header, processed.hashed⟩
    exact ⟨hwf.storage.stored processed.hashed, hwf.header⟩

theorem Wf.call (call : Call) (h : Wf S c) : wp S (call.run setup) c fun _ c' => Wf S c' :=
  wp_putChain_inv (fun _ _ _ _ _ _ _ hr => h.rolledBack hr) (fun _ _ _ _ _ hc hp => hc.put hp) h

def allQueries (setup : Setup) (calls : List Call) : List Query :=
  (new setup .empty).log ++ queries setup calls (new setup .empty).state

def reached (setup : Setup) (calls : List Call) : ChainState :=
  after setup (new setup .empty).state calls

theorem queries_append (l l' : List Call) : ∀ c, queries setup (l ++ l') c =
    queries setup l c ++ queries setup l' (after setup c l) := by
  induction l with
  | nil => exact fun _ => rfl
  | cons call l ih =>
    intro c
    rw [List.cons_append, queries, queries, ih, List.append_assoc]
    rfl

theorem allQueries_append (calls : List Call) (call : Call) : allQueries setup (calls ++ [call]) =
    allQueries setup calls ++ (call.run setup (reached setup calls)).log := by
  rw [allQueries, queries_append, ← List.append_assoc]
  show _ ++ (_ ++ []) = _
  rw [List.append_nil]
  rfl

/-- **In every run** the storage is indexed. -/
theorem wf_run (hstart : (new setup .empty).res = .ok ()) {calls : List Call}
    (hlog : ∀ q ∈ allQueries setup calls, q ∈ S) : Wf S (reached setup calls) := by
  obtain ⟨genesis, hgenesis⟩ :=
    wp_new S setup (fun q hq => hlog q (List.mem_append_left _ hq)) hstart
  exact after_inv (fun call _ _ h => h.call call) hgenesis.wf
    fun q hq => hlog q (List.mem_append_right _ hq)

end ChainState

end Crypto

end Uchain
