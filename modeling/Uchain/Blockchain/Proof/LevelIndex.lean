import Uchain.Blockchain.Proof.ForkChoice

/-!
# Ancestors and the index by level

`get_header_by_level` is meant to return the ancestor of the head at a level. It does while the chain
only grows on its head (`SteadyRun`): entries of the index are written once, and those above the head
are vacant.

A way back breaks it: the loop that removes the stale branch goes on exactly while it should stop.

What holds in every run is that the parents of the head and of all stored headers lead back to genesis
(`Traced`), and that a restart resumes at the head (`restart_resumes`).
-/

namespace Uchain

open Lib Exec

namespace BlockStorage

variable [Crypto] {S : Set Query} {b : BlockStorage} {block : Block} {h : BlockHeader}

/-- The header `n` steps before `h`, by the hashes of the parents. -/
def ancestor (b : BlockStorage) : Nat → BlockHeader → Option BlockHeader
  | 0, h => some h
  | n + 1, h => match (getHeaderByHash h.parentHash b).res with
    | .ok (some parent) => ancestor b n parent.raw
    | _ => none

theorem ancestor_succ (n : Nat) :
    b.ancestor (n + 1) h = (b.headerByHash h.parentHash).bind (b.ancestor n) := by
  rw [ancestor, getHeaderByHash_run]
  cases b.headerByHash h.parentHash with
  | none => rfl
  | some parent => rfl

/-- What is found by its hash stays. -/
def Grows (b b' : BlockStorage) : Prop :=
  ∀ hash h, b.headerByHash hash = some h → b'.headerByHash hash = some h

theorem Grows.ancestor {b b' : BlockStorage} (hb : Grows b b') (n : Nat) : ∀ {x a : BlockHeader},
    b.ancestor n x = some a → b'.ancestor n x = some a := by
  induction n with
  | zero => exact fun hx => hx
  | succ n ih =>
    intro x a hx
    rw [ancestor_succ] at hx ⊢
    obtain ⟨p, hp, ha⟩ := Option.bind_eq_some_iff.1 hx
    exact Option.bind_eq_some_iff.2 ⟨p, hb _ _ hp, ih ha⟩

/-- The parents of a header lead to a block of level 0. -/
def Traces (b : BlockStorage) (h : BlockHeader) : Prop :=
  ∃ g, b.ancestor h.level.toNat h = some g ∧ g.level = 0

theorem Grows.traces {b b' : BlockStorage} (hb : Grows b b') (ht : Traces b h) :
    Traces b' h := by
  obtain ⟨g, hg, hzero⟩ := ht
  exact ⟨g, hb.ancestor _ hg, hzero⟩

/-! ## Storing a block keeps what is stored -/

theorem headers_stored {k : BlockPrimaryKey} (hk : b.headers.get? k = some h) (block : Block) :
    (b.stored block).headers.get? k = some h := by
  show (putAbsent b.headers (key block.header) block.header).get? k = some h
  rw [get?_putAbsent]
  split
  · rename_i he
    rw [← he, hk]
    rfl
  · exact hk

theorem headerByLevel_stored {level : UInt32} (hl : b.headerByLevel level = some h)
    (block : Block) : (b.stored block).headerByLevel level = some h := by
  obtain ⟨k, hk, hget⟩ := Option.bind_eq_some_iff.1 hl
  refine Option.bind_eq_some_iff.2 ⟨k, ?_, headers_stored hget block⟩
  show (putAbsent b.blockByLevel block.level (key block.header)).get? level = some k
  rw [get?_putAbsent]
  split
  · rename_i he
    rw [← he, hk]
    rfl
  · exact hk

variable (hsha : Sha256Good S) (hb : Indexed S b) (hblock : block.header.HashedIn S)
include hsha hb hblock

theorem headers_stored_self : (b.stored block).headers.get? (key block.header) = some block.header := by
  show (putAbsent b.headers (key block.header) block.header).get? _ = _
  rw [get?_putAbsent, if_pos rfl]
  cases hget : b.headers.get? (key block.header) with
  | none => rfl
  | some h' =>
    have hhash : h'.hash = block.header.hash := (hb.header hget).2.1
    rw [BlockHeader.hash_inj hsha (hb.hashed _ _ hget) hblock hhash]
    rfl

theorem headerByHash_stored_self :
    (b.stored block).headerByHash block.hash = some block.header :=
  Option.bind_eq_some_iff.2 ⟨key block.header, BTreeMap.get?_insert_self _ _ _,
    headers_stored_self hsha hb hblock⟩

theorem headerByHash_stored {hash : H256} (hh : b.headerByHash hash = some h) :
    (b.stored block).headerByHash hash = some h := by
  obtain ⟨hhash, hashed⟩ := hb.headerByHash hh
  by_cases he : hash = block.hash
  · obtain rfl : h = block.header := BlockHeader.hash_inj hsha hashed hblock (hhash.trans he)
    rw [he]
    exact headerByHash_stored_self hsha hb hblock
  · obtain ⟨k, hk, hget⟩ := Option.bind_eq_some_iff.1 hh
    refine Option.bind_eq_some_iff.2 ⟨k, ?_, headers_stored hget block⟩
    show (b.blockByHash.insert block.hash (key block.header)).get? hash = some k
    rw [BTreeMap.get?_insert, if_neg he]
    exact hk

theorem ancestor_stored (n : Nat) : ∀ {x a : BlockHeader}, b.ancestor n x = some a →
    (b.stored block).ancestor n x = some a :=
  Grows.ancestor (fun _ _ => headerByHash_stored hsha hb hblock) n

end BlockStorage

namespace ChainState

open BlockStorage

section Crypto

variable [Crypto] [Codec AccountState] {S : Set Query} {c c' : ChainState} {block : Block}
  {setup : Setup} {env : Env} {head : BlockHeader}

/-- The index by level has the ancestors of the head, and nothing above it. -/
structure Canonical (S : Set Query) (c : ChainState) (head : BlockHeader) : Prop where
  wf : Wf S c
  header : c.header = some head
  stored : c.blockStorage.headerByHash head.hash = some head
  index : ∀ l : UInt32, l.toNat ≤ head.level.toNat → ∃ h, c.blockStorage.headerByLevel l = some h ∧
    c.blockStorage.ancestor (head.level.toNat - l.toNat) head = some h
  above : ∀ l : UInt32, head.level.toNat < l.toNat → c.blockStorage.blockByLevel.get? l = none

/-- The block is on the head, or on another branch and not above the head. -/
def StaysBelow (block : Block) (c : ChainState) : Prop :=
  block.level ≠ 0 ∧ ∀ head ∈ c.header, block.parentHash = head.hash ∨ block.level ≤ head.level

omit [Codec AccountState] in
theorem AtGenesis.canonical (hsha : Sha256Good S) {genesis : BlockHeader}
    (h : AtGenesis S c genesis) : Canonical S c genesis := by
  have hlevel : genesis.level.toNat = 0 := congrArg UInt32.toNat h.level
  have hself : (BlockStorage.new.stored ⟨genesis, []⟩).headers.get? (key genesis) = some genesis :=
    headers_stored_self hsha (indexed_new S) h.hashed
  have hindex (l : UInt32) : c.blockStorage.blockByLevel.get? l =
      if l = genesis.level then some (key genesis) else none := by
    rw [h.storage]
    show (putAbsent BTreeMap.empty genesis.level (key genesis)).get? l = _
    rw [get?_putAbsent]
    by_cases he : l = genesis.level
    · rw [if_pos he, if_pos he]
      rfl
    · rw [if_neg he, if_neg he]
      rfl
  refine ⟨h.wf, h.header, ?_, fun l hl => ⟨genesis, ?_, ?_⟩, fun l hl => ?_⟩
  · rw [h.storage]
    exact headerByHash_stored_self hsha (indexed_new S) h.hashed
  · have hzero : l = genesis.level := UInt32.toNat_inj.1 (by omega)
    refine Option.bind_eq_some_iff.2 ⟨key genesis, ?_, ?_⟩
    · rw [hindex, if_pos hzero]
    · rw [h.storage]
      exact hself
  · rw [hlevel, Nat.zero_sub]
    rfl
  · rw [hindex, if_neg]
    rintro rfl
    exact Nat.lt_irrefl _ hl

omit [Codec AccountState] in
theorem Canonical.of_outline (h : Canonical S c head) (ho : c'.outline = c.outline) :
    Canonical S c' head := by
  have hheader : c'.header = c.header := congrArg (fun p => p.1) ho
  have hstorage : c'.blockStorage = c.blockStorage := congrArg (fun p => p.2.1) ho
  refine ⟨h.wf.of_outline ho, hheader.trans h.header, ?_, ?_, ?_⟩
  · rw [hstorage]
    exact h.stored
  · rw [hstorage]
    exact h.index
  · rw [hstorage]
    exact h.above

omit [Codec AccountState] in
theorem Canonical.extend (hsha : Sha256Good S) (h : Canonical S c head)
    (hblock : block.header.HashedIn S) (hparent : block.parentHash = head.hash)
    (hnext : block.level.toNat = head.level.toNat + 1) (s : State) :
    Canonical S ⟨s, c.blockStorage.stored block, some block.header⟩ block.header := by
  have hb := h.wf.storage
  have hindex (l : UInt32) : (c.blockStorage.stored block).blockByLevel.get? l =
      if l = block.level then some (key block.header) else c.blockStorage.blockByLevel.get? l := by
    show (putAbsent c.blockStorage.blockByLevel block.level (key block.header)).get? l = _
    rw [get?_putAbsent, h.above block.level (by omega)]
    by_cases he : l = block.level
    · rw [if_pos he, if_pos he]
      rfl
    · rw [if_neg he, if_neg he]
  refine ⟨⟨hb.stored hblock, _, rfl, hblock⟩, rfl, headerByHash_stored_self hsha hb hblock,
    fun l hl => ?_, fun l hl => ?_⟩
  · have hl : l.toNat ≤ block.level.toNat := hl
    show ∃ a, _ ∧ (c.blockStorage.stored block).ancestor (block.level.toNat - l.toNat) _ = some a
    by_cases he : l = block.level
    · refine ⟨block.header, Option.bind_eq_some_iff.2 ⟨key block.header, ?_, ?_⟩, ?_⟩
      · rw [hindex, if_pos he]
      · exact headers_stored_self hsha hb hblock
      · rw [he, Nat.sub_self]
        rfl
    · have hlt : l.toNat ≠ block.level.toNat := fun hn => he (UInt32.toNat_inj.1 hn)
      obtain ⟨a, hlevel, hancestor⟩ := h.index l (by omega)
      refine ⟨a, headerByLevel_stored hlevel block, ?_⟩
      rw [show block.level.toNat - l.toNat = (head.level.toNat - l.toNat) + 1 by omega, ancestor_succ]
      refine Option.bind_eq_some_iff.2 ⟨head, ?_, ancestor_stored hsha hb hblock _ hancestor⟩
      rw [show block.header.parentHash = head.hash from hparent]
      exact headerByHash_stored hsha hb hblock h.stored
  · have hl : block.level.toNat < l.toNat := hl
    rw [hindex, if_neg]
    · exact h.above l (by omega)
    · rintro rfl
      exact Nat.lt_irrefl _ hl

omit [Codec AccountState] in
theorem Canonical.store (hsha : Sha256Good S) (h : Canonical S c head)
    (hblock : block.header.HashedIn S) (hlevel : block.level.toNat ≤ head.level.toNat) :
    Canonical S { c with blockStorage := c.blockStorage.stored block } head := by
  have hb := h.wf.storage
  refine ⟨⟨hb.stored hblock, h.wf.header⟩, h.header, headerByHash_stored hsha hb hblock h.stored,
    fun l hl => ?_, fun l hl => ?_⟩
  · obtain ⟨a, hindex, hancestor⟩ := h.index l hl
    exact ⟨a, headerByLevel_stored hindex block, ancestor_stored hsha hb hblock _ hancestor⟩
  · show (putAbsent c.blockStorage.blockByLevel block.level (key block.header)).get? l = none
    rw [get?_putAbsent, if_neg]
    · exact h.above l hl
    · rintro rfl
      omega

/-- **A block that stays below the head or extends it** keeps the index. -/
theorem Canonical.put (hsha : Sha256Good S) (h : Canonical S c head)
    (hopen : ∀ h, env.send h = true) (hbelow : StaysBelow block c)
    {res : Except (Fail ChainError) Unit} (hp : Put S setup env block c res c') :
    ∃ head', Canonical S c' head' := by
  have hcases := hbelow.2 head h.header
  cases hp with
  | rejected outline => exact ⟨head, h.of_outline outline⟩
  | unsent processed closed header storage => exact absurd (hopen _) closed
  | @put _ repack c₁ processed accepted =>
    cases accepted with
    | @onHead _ _ head₁ current hashed parent header storage sent =>
      obtain rfl : head₁ = head := Option.some.inj (current.symm.trans h.header)
      have hnext := toNat_of_sub_one hbelow.1 (processed.level_eq hsha h.wf hashed parent)
      rw [storage, header]
      exact ⟨block.header, h.extend hsha processed.hashed parent hnext c₁.state⟩
    | @beside _ head₁ current parent level outline =>
      obtain rfl : head₁ = head := Option.some.inj (current.symm.trans h.header)
      have hle := UInt32.le_iff_toNat_le.1 (UInt32.not_lt.1 level)
      exact ⟨head₁, (h.of_outline outline).store hsha processed.hashed hle⟩
    | @overtakes _ head₁ current parent level header storage =>
      obtain rfl : head₁ = head := Option.some.inj (current.symm.trans h.header)
      rcases hcases with heq | hle
      · exact absurd heq parent
      · exact absurd level (UInt32.not_lt.2 hle)

/-! ## Runs -/

/-- Every block, when it is put, stays below the head or extends it. -/
def SteadyBlocks (setup : Setup) (env : Env) (oldHead : IndexedBlockHeader) :
    List Block → ChainState → Prop
  | [], _ => True
  | block :: blocks, c => StaysBelow block c ∧
      ((putBlock setup env oldHead block c).res = .ok () →
        SteadyBlocks setup env oldHead blocks (putBlock setup env oldHead block c).state)

/-- A call with an open event channel that does not go back, and puts only such blocks. -/
structure Call.Steady (setup : Setup) (call : Call) (c : ChainState) : Prop where
  channel : ∀ h, call.env.send h = true
  forward : ∀ head ∈ c.header, ∀ first ∈ call.blocks.head?, rollsBack (.of head) first = false
  blocks : ∀ head ∈ c.header, SteadyBlocks setup call.env (.of head) call.blocks c

/-- Every call is steady, in the state in which it is made. -/
def SteadyRun (setup : Setup) : List Call → ChainState → Prop
  | [], _ => True
  | call :: calls, c => call.Steady setup c ∧ SteadyRun setup calls (call.run setup c).state

theorem canonical_putBlocks (hsha : Sha256Good S) (oldHead : IndexedBlockHeader)
    (hopen : ∀ h, env.send h = true) (blocks : List Block) : ∀ {c head}, Canonical S c head →
      SteadyBlocks setup env oldHead blocks c →
      wp S (forEach (putBlock setup env oldHead) blocks) c fun _ c' =>
        ∃ head', Canonical S c' head' := by
  induction blocks with
  | nil => exact fun h _ => wp_forEach_nil ⟨_, h⟩
  | cons block blocks ih =>
    intro c head h hsteady
    refine wp_forEach_cons fun hlog => ?_
    have hput := wp_putBlock S setup env oldHead block c hlog
    have hrest := hsteady.2
    obtain ⟨head', h'⟩ := h.put hsha hopen hsteady.1 hput
    generalize (putBlock setup env oldHead block c).res = res at *
    cases res with
    | error e => exact ⟨head', h'⟩
    | ok u => exact ih h' (hrest rfl)

theorem Canonical.call (hsha : Sha256Good S) (h : Canonical S c head) {call : Call}
    (hsteady : call.Steady setup c) : wp S (call.run setup) c fun _ c' =>
      ∃ head', Canonical S c' head' := by
  refine wp_bind (wp_mono (wp_loadHead S c) ?_)
  intro res c₀ hload
  obtain ⟨rfl, hload⟩ := hload
  cases res with
  | error e => exact ⟨head, h⟩
  | ok i =>
    obtain ⟨head₀, hhead₀, -, rfl⟩ := hload i rfl
    have hforward := hsteady.forward head₀ hhead₀
    have hblocks := hsteady.blocks head₀ hhead₀
    cases hlist : call.blocks with
    | nil => exact fun _ => ⟨head, h⟩
    | cons first rest =>
      rw [hlist] at hforward hblocks
      refine wp_bind (wp_mono (wp_prepareChain S (.of head₀) first c₀) ?_)
      intro res c₁ hprepare
      obtain ⟨rfl, rfl⟩ := hprepare.2 (hforward first rfl)
      exact canonical_putBlocks hsha _ hsteady.channel _ h hblocks

theorem canonical_after (hsha : Sha256Good S) (calls : List Call) : ∀ {c head},
    Canonical S c head → SteadyRun setup calls c → (∀ q ∈ queries setup calls c, q ∈ S) →
    ∃ head', Canonical S (after setup c calls) head' := by
  induction calls with
  | nil => exact fun h _ _ => ⟨_, h⟩
  | cons call calls ih =>
    intro c head h hsteady hlog
    obtain ⟨head', h'⟩ := h.call hsha hsteady.1 fun q hq => hlog q (List.mem_append_left _ hq)
    exact ih h' hsteady.2 fun q hq => hlog q (List.mem_append_right _ hq)

/-- **The index by level has the ancestors of the head**, after every call of a steady run. -/
theorem level_index_canonical (hsha : Sha256Good S) (hstart : (new setup .empty).res = .ok ())
    (calls : List Call) (hsteady : SteadyRun setup calls (new setup .empty).state)
    (hlog : ∀ q ∈ allQueries setup calls, q ∈ S) :
    ∃ head, (reached setup calls).header = some head ∧ ∀ l ≤ head.level, ∃ h,
      (getHeaderByLevel l (reached setup calls).blockStorage).res = .ok (some (.of h)) ∧
      (reached setup calls).blockStorage.ancestor (head.level - l).toNat head = some h := by
  obtain ⟨genesis, hgenesis⟩ :=
    wp_new S setup (fun q hq => hlog q (List.mem_append_left _ hq)) hstart
  obtain ⟨head, h⟩ := canonical_after hsha calls (hgenesis.canonical hsha) hsteady
    fun q hq => hlog q (List.mem_append_right _ hq)
  refine ⟨head, h.header, fun l hl => ?_⟩
  obtain ⟨a, hindex, hancestor⟩ := h.index l (UInt32.le_iff_toNat_le.1 hl)
  refine ⟨a, ?_, ?_⟩
  · rw [getHeaderByLevel_run]
    show Except.ok (Option.map _ ((reached setup calls).blockStorage.headerByLevel l)) = _
    rw [show (reached setup calls).blockStorage.headerByLevel l = some a from hindex]
    rfl
  · rw [UInt32.toNat_sub_of_le _ _ hl]
    exact hancestor

/-! ## The block tree -/

variable {res : Except (Fail ChainError) Unit}

/-- What a block changes of the chain, if it was processed. -/
theorem Put.changes (hp : Put S setup env block c res c') :
    (c'.header = c.header ∨ Processed S setup c block ∧ c'.header = some block.header) ∧
      (c'.blockStorage = c.blockStorage ∨
        Processed S setup c block ∧ c'.blockStorage = c.blockStorage.stored block) := by
  cases hp with
  | rejected outline => exact ⟨.inl (congrArg (·.1) outline), .inl (congrArg (·.2.1) outline)⟩
  | unsent processed closed header storage => exact ⟨.inr ⟨processed, header⟩, .inl storage⟩
  | put processed accepted =>
    cases accepted with
    | onHead current hashed parent header storage sent =>
      exact ⟨.inr ⟨processed, header⟩, .inr ⟨processed, congrArg (·.stored block) storage⟩⟩
    | beside current parent level outline =>
      exact ⟨.inl (congrArg (·.1) outline),
        .inr ⟨processed, congrArg (·.2.1.stored block) outline⟩⟩
    | overtakes current parent level header storage =>
      exact ⟨.inr ⟨processed, header⟩, .inr ⟨processed, congrArg (·.stored block) storage⟩⟩

theorem Put.grows (hsha : Sha256Good S) (hc : Wf S c) (hp : Put S setup env block c res c') :
    Grows c.blockStorage c'.blockStorage := by
  rcases hp.changes.2 with hsame | ⟨processed, hstored⟩
  · rw [hsame]
    exact fun _ _ hh => hh
  · rw [hstored]
    exact fun _ _ hh => headerByHash_stored hsha hc.storage processed.hashed hh

omit [Crypto] [Codec AccountState] in
theorem RolledBack.grows {first : Block} (hr : RolledBack c first res c') :
    Grows c.blockStorage c'.blockStorage := by
  cases hr with
  | failed => exact fun _ _ hh => hh
  | moved parent_eq found state header headers byHash =>
    intro hash h hh
    rw [headerByHash, headers, byHash]
    exact hh

/-- The head and all stored headers lead back to genesis. -/
structure Traced (S : Set Query) (c : ChainState) : Prop where
  wf : Wf S c
  stored : ∀ k h, c.blockStorage.headers.get? k = some h → Traces c.blockStorage h
  head : ∀ h ∈ c.header, Traces c.blockStorage h

theorem Processed.traces (hsha : Sha256Good S) (h : Traced S c) (hp : Processed S setup c block) :
    Traces c.blockStorage block.header := by
  obtain ⟨parent, -, -, -, hparent, -⟩ := hp.executed
  obtain ⟨hhash, hashed⟩ := h.wf.storage.headerByHash hparent
  obtain ⟨k, -, hget⟩ := Option.bind_eq_some_iff.1 hparent
  obtain ⟨g, hg, hzero⟩ := h.stored k parent hget
  by_cases hlevel : block.level = 0
  · refine ⟨block.header, ?_, hlevel⟩
    rw [show block.header.level = 0 from hlevel]
    rfl
  · refine ⟨g, ?_, hzero⟩
    have hnext := toNat_of_sub_one hlevel (hp.level_eq hsha h.wf hashed hhash.symm)
    rw [show block.header.level.toNat = parent.level.toNat + 1 from hnext, ancestor_succ]
    exact Option.bind_eq_some_iff.2 ⟨parent, hparent, hg⟩

theorem Traced.put (hsha : Sha256Good S) (h : Traced S c) (hp : Put S setup env block c res c') :
    Traced S c' := by
  have hgrows := hp.grows hsha h.wf
  obtain ⟨hheader, hstorage⟩ := hp.changes
  refine ⟨h.wf.put hp, fun k x hx => hgrows.traces ?_, fun x hx => hgrows.traces ?_⟩
  · rcases hstorage with hsame | ⟨processed, hstored⟩
    · exact h.stored k x (hsame ▸ hx)
    · rcases of_headers_stored (hstored ▸ hx) with rfl | hx
      · exact processed.traces hsha h
      · exact h.stored k x hx
  · rcases hheader with hsame | ⟨processed, hnew⟩
    · exact h.head x (hsame ▸ hx)
    · rw [hnew] at hx
      cases hx
      exact processed.traces hsha h

omit [Codec AccountState] in
theorem Traced.rolledBack (h : Traced S c) {first : Block} (hr : RolledBack c first res c') :
    Traced S c' := by
  have hwf := h.wf.rolledBack hr
  have hgrows := hr.grows
  cases hr with
  | failed => exact h
  | moved parent_eq found state header headers byHash =>
    refine ⟨hwf, fun k x hx => hgrows.traces (h.stored k x (headers ▸ hx)), fun x hx => ?_⟩
    rw [header] at hx
    cases hx
    obtain ⟨k, -, hget⟩ := Option.bind_eq_some_iff.1 parent_eq
    exact hgrows.traces (h.stored k _ hget)

/-- **Every stored block leads back to genesis**, in every run: one level for each parent. -/
theorem reached_traces (hsha : Sha256Good S) (hstart : (new setup .empty).res = .ok ())
    (calls : List Call) (hlog : ∀ q ∈ allQueries setup calls, q ∈ S) {h : BlockHeader}
    (hh : (reached setup calls).header = some h ∨
      ∃ k, (reached setup calls).blockStorage.headers.get? k = some h) :
    ∃ g, (reached setup calls).blockStorage.ancestor h.level.toNat h = some g ∧ g.level = 0 := by
  obtain ⟨genesis, hgenesis⟩ :=
    wp_new S setup (fun q hq => hlog q (List.mem_append_left _ hq)) hstart
  have htraces (b : BlockStorage) : Traces b genesis := by
    refine ⟨genesis, ?_, hgenesis.level⟩
    rw [hgenesis.level]
    rfl
  have hinit : Traced S (new setup .empty).state := by
    refine ⟨hgenesis.wf, fun k x hx => ?_, fun x hx => ?_⟩
    · rw [hgenesis.storage] at hx
      rcases of_headers_stored hx with rfl | hx
      · exact htraces _
      · cases hx
    · rw [hgenesis.header] at hx
      cases hx
      exact htraces _
  have h := after_inv (fun call _ c hc => wp_putChain_inv
    (fun _ _ _ _ _ _ _ hr => hc.rolledBack hr) (fun _ _ _ _ _ hc hp => hc.put hsha hp) hc) hinit
    fun q hq => hlog q (List.mem_append_right _ hq)
  rcases hh with hh | ⟨k, hk⟩
  · exact h.head _ hh
  · exact h.stored k _ hk

/-! ## Restarts -/

end Crypto

section LevelIndex

open scoped Sample
open SampleChain

@[irreducible] def indexLog : List Query := allQueries setup [⟨env, [d1]⟩]

theorem steady_d1 : SteadyRun setup [⟨env, [d1]⟩] (new setup .empty).state := by
  have hhash : ∀ head ∈ (new setup .empty).state.header, d1.parentHash = head.hash := by
    decide +kernel
  refine ⟨⟨fun _ => rfl, fun head hhead first hfirst => ?_, fun head hhead => ?_⟩, trivial⟩
  · cases hfirst
    exact decide_eq_false fun h => h.1 (hhash head hhead)
  · exact ⟨⟨by decide, fun head hhead => .inl (hhash head hhead)⟩, fun _ => trivial⟩

theorem level_index_canonical_sample : ∃ head, (reached setup [⟨env, [d1]⟩]).header = some head ∧
    ∀ l ≤ head.level, ∃ h,
      (getHeaderByLevel l (reached setup [⟨env, [d1]⟩]).blockStorage).res = .ok (some (.of h)) := by
  have hS : Sha256Good {q | q ∈ indexLog} := fun a b ha hb =>
    Sample.sha256_inj_of_distinct (by decide +kernel) ha hb
  have hlog : ∀ q ∈ allQueries setup [⟨env, [d1]⟩], q ∈ {q | q ∈ indexLog} := by
    intro q hq
    show q ∈ indexLog
    rw [indexLog]
    exact hq
  obtain ⟨head, hhead, hindex⟩ := level_index_canonical hS (by decide +kernel) [⟨env, [d1]⟩] steady_d1
    hlog
  refine ⟨head, hhead, fun l hl => ?_⟩
  obtain ⟨h, hget, -⟩ := hindex l hl
  exact ⟨h, hget⟩

theorem reached_traces_sample : (reached setup [⟨env, [d1]⟩]).header = some d1.header ∧ ∃ g,
    (reached setup [⟨env, [d1]⟩]).blockStorage.ancestor d1.header.level.toNat d1.header = some g ∧
      g.level = 0 := by
  have hhead : (reached setup [⟨env, [d1]⟩]).header = some d1.header := by decide +kernel
  refine ⟨hhead, reached_traces (S := {q | q ∈ indexLog}) (fun _ _ ha hb =>
    Sample.sha256_inj_of_distinct (by decide +kernel) ha hb) (by decide +kernel) _ ?_ (.inl hhead)⟩
  intro q hq
  show q ∈ indexLog
  rw [indexLog]
  exact hq

/-- A block takes the place of the head at level 1. The entry of the genesis block, their parent, is
removed with that of the old head. -/
theorem putChain_removes_genesis :
    (putChain setup env [e1] (reached setup [⟨env, [d1]⟩])).res = .ok () ∧
      (reached setup [⟨env, [d1]⟩, ⟨env, [e1]⟩]).header = some e1.header ∧
      (getHeaderByLevel 0 (reached setup [⟨env, [d1]⟩, ⟨env, [e1]⟩]).blockStorage).res = .ok none ∧
      (reached setup [⟨env, [d1]⟩, ⟨env, [e1]⟩]).blockStorage.ancestor 1 e1.header =
        (reached setup []).header := by
  decide +kernel

end LevelIndex

end ChainState

end Uchain
