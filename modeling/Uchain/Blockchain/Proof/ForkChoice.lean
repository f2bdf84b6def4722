import Uchain.Blockchain.Proof.Steps
import Uchain.Blockchain.Sample

/-!
# Fork choice

`put_chain` goes back to the parent of its first block before it looks at any block. So the head can
fall, and a call that fails can have moved it.
-/

namespace Uchain

open Lib Exec

theorem le_foldl_max_iff {α : Type} (f : α → Nat) {k : Nat} (l : List α) : ∀ {a : Nat},
    k ≤ l.foldl (fun m x => max m (f x)) a ↔ k ≤ a ∨ ∃ x ∈ l, k ≤ f x := by
  induction l with
  | nil => simp
  | cons x l ih =>
    intro a
    rw [List.foldl_cons, ih, le_max_iff, List.exists_mem_cons_iff, or_assoc]

namespace ChainState

section Crypto

open BlockStorage

variable [Crypto] [Codec AccountState] {S : Set Query} {c c' : ChainState} {block : Block}
  {setup : Setup} {env : Env}

variable {head : BlockHeader}

/-- A block that was processed is one level above the header that it names as its parent. -/
theorem Processed.level_eq (hsha : Sha256Good S) (hc : Wf S c) (h : Processed S setup c block)
    (hhead : head.HashedIn S) (hparent : block.parentHash = head.hash) :
    block.level - 1 = head.level := by
  obtain ⟨p, hp⟩ := h.below
  obtain ⟨hlevel, hhash, hashed⟩ := hc.storage.header hp
  obtain rfl : p = head := BlockHeader.hash_inj hsha hashed hhead (hhash.trans hparent)
  exact hlevel.symm

omit [Crypto] [Codec AccountState] in
theorem toNat_of_sub_one {a b : UInt32} (ha : a ≠ 0) (h : a - 1 = b) : a.toNat = b.toNat + 1 := by
  have hpos : 1 ≤ a := by
    rw [UInt32.le_iff_toNat_le]
    have : a.toNat ≠ 0 := fun h0 => ha (UInt32.toNat_inj.1 h0)
    show 1 ≤ a.toNat
    omega
  have hsub := UInt32.toNat_sub_of_le a 1 hpos
  rw [h] at hsub
  have : 1 ≤ a.toNat := UInt32.le_iff_toNat_le.1 hpos
  rw [show (1 : UInt32).toNat = 1 from rfl] at hsub
  omega

/-- **A block that is put** leaves the head at the larger of the two levels. -/
theorem Put.level_eq (hsha : Sha256Good S) (hc : Wf S c) (hhead : c.header = some head)
    (hlevel : block.level ≠ 0) (h : Put S setup env block c (.ok ()) c') :
    ∃ head', c'.header = some head' ∧ head'.level.toNat = max head.level.toNat block.level.toNat := by
  cases h with
  | @put _ repack c₁ processed accepted =>
    cases accepted with
    | @onHead _ _ head₁ current hashed parent header storage sent =>
      obtain rfl : head₁ = head := Option.some.inj (current.symm.trans hhead)
      have hnext := toNat_of_sub_one hlevel (processed.level_eq hsha hc hashed parent)
      refine ⟨block.header, header, ?_⟩
      show block.level.toNat = _
      omega
    | @beside _ head₁ current parent level outline =>
      obtain rfl : head₁ = head := Option.some.inj (current.symm.trans hhead)
      have hheader : c₁.header = c.header := congrArg (fun p => p.1) outline
      have hle := UInt32.le_iff_toNat_le.1 (UInt32.not_lt.1 level)
      exact ⟨head₁, hheader.trans hhead, (max_eq_left hle).symm⟩
    | @overtakes _ head₁ current parent level header storage =>
      obtain rfl : head₁ = head := Option.some.inj (current.symm.trans hhead)
      have hlt := UInt32.lt_iff_toNat_lt.1 level
      exact ⟨block.header, header, (max_eq_right hlt.le).symm⟩

/-- While blocks are put, the level of the head is the largest so far. -/
theorem wp_putBlocks_level (hsha : Sha256Good S) (oldHead : IndexedBlockHeader)
    (blocks : List Block) : ∀ {c : ChainState} {head : BlockHeader}, Wf S c →
      c.header = some head → (∀ b ∈ blocks, b.level ≠ 0) →
      wp S (forEach (putBlock setup env oldHead) blocks) c fun res c' => res = .ok () →
        ∃ head', c'.header = some head' ∧
          head'.level.toNat = blocks.foldl (fun m b => max m b.level.toNat) head.level.toNat := by
  induction blocks with
  | nil => exact fun _ hhead _ => wp_forEach_nil fun _ => ⟨_, hhead, rfl⟩
  | cons block blocks ih =>
    intro c head hc hhead hlevel
    obtain ⟨hblock, hblocks⟩ := List.forall_mem_cons.1 hlevel
    refine wp_forEach_cons (wp_mono (wp_putBlock S setup env oldHead block c) ?_)
    intro res c₁ hput
    cases res with
    | error e => exact nofun
    | ok u =>
      obtain ⟨head₁, hhead₁, hmax⟩ := hput.level_eq hsha hc hhead hblock
      refine wp_mono (ih (hc.put hput) hhead₁ hblocks) fun res c₂ hok hres => ?_
      obtain ⟨head₂, hhead₂, hlevel₂⟩ := hok hres
      exact ⟨head₂, hhead₂, by rw [hlevel₂, hmax, List.foldl_cons]⟩

theorem wp_putBlocks_rolledBack (hsha : Sha256Good S) (oldHead : IndexedBlockHeader) {first : Block}
    {rest : List Block} {parent : BlockHeader} (hc : Wf S c) (hhead : c.header = some parent)
    (hparent : first.parentHash = parent.hash) (hlevel : ∀ b ∈ first :: rest, b.level ≠ 0) :
    wp S (forEach (putBlock setup env oldHead) (first :: rest)) c fun res _ =>
      res = .ok () → first.level.toNat = parent.level.toNat + 1 := by
  refine wp_forEach_cons (wp_mono (wp_putBlock S setup env oldHead first c) ?_)
  intro res c₁ hput
  cases res with
  | error e => exact nofun
  | ok u =>
    intro _ _
    obtain ⟨head, hhead', hashed⟩ := hc.header
    obtain rfl : head = parent := Option.some.inj (hhead'.symm.trans hhead)
    cases hput with
    | put processed accepted =>
      exact toNat_of_sub_one (hlevel first List.mem_cons_self)
        (processed.level_eq hsha hc hashed hparent)

theorem wp_putChain_level (hsha : Sha256Good S) (hc : Wf S c) (hhead : c.header = some head)
    {first : Block} {rest : List Block} (hlevel : ∀ b ∈ first :: rest, b.level ≠ 0) :
    wp S (putChain setup env (first :: rest)) c fun res c' => res = .ok () →
      ∃ head', c'.header = some head' ∧ (head.level ≤ head'.level ↔
        rollsBack (.of head) first = false ∨ ∃ b ∈ first :: rest, head.level ≤ b.level) := by
  refine wp_bind (wp_mono (wp_loadHead S c) ?_)
  intro res c₀ hload
  obtain ⟨rfl, hload⟩ := hload
  cases res with
  | error e => exact nofun
  | ok i =>
    obtain ⟨head₀, hhead₀, -, rfl⟩ := hload i rfl
    obtain rfl : head₀ = head := Option.some.inj (hhead₀.symm.trans hhead)
    refine wp_bind (wp_mono (wp_prepareChain S (.of head₀) first c₀) ?_)
    intro res c₁ hprepare
    cases res with
    | error e => exact nofun
    | ok u =>
      intro hlog hres
      cases hrolls : rollsBack (.of head₀) first with
      | false =>
        obtain ⟨-, rfl⟩ := hprepare.2 hrolls
        obtain ⟨head', hhead', hmax⟩ := wp_putBlocks_level hsha _ _ hc hhead hlevel hlog hres
        refine ⟨head', hhead', fun _ => .inl rfl, fun _ => UInt32.le_iff_toNat_le.2 ?_⟩
        rw [hmax]
        exact (le_foldl_max_iff _ _).2 (.inl le_rfl)
      | true =>
        have hrolled := hprepare.1 hrolls
        have hc₁ := hc.rolledBack hrolled
        cases hrolled with
        | @moved _ _ parent tree parent_eq found state header headers byHash =>
          have hparent := (hc.storage.headerByHash parent_eq).1
          obtain ⟨head', hhead', hmax⟩ := wp_putBlocks_level hsha _ _ hc₁ header hlevel hlog hres
          have hfirst :=
            wp_putBlocks_rolledBack hsha _ hc₁ header hparent.symm hlevel hlog hres
          refine ⟨head', hhead', ?_⟩
          simp only [UInt32.le_iff_toNat_le, hmax, le_foldl_max_iff, Bool.true_eq_false, false_or]
          constructor
          · intro hor
            rcases hor with hle | hex
            · exact ⟨first, List.mem_cons_self, show _ ≤ first.level.toNat by omega⟩
            · exact hex
          · exact .inr

/-- **The level of the head never falls in a call that succeeds, exactly if** the call does not go
back or has a block at the level of the old head. Blocks at level zero are left out: `u32` levels
wrap, and such a block is accepted on a head at the last level. -/
theorem putChain_level_iff (hsha : Sha256Good S) (hstart : (new setup .empty).res = .ok ())
    (calls : List Call) (env : Env) (first : Block) (rest : List Block)
    (hlog : ∀ q ∈ allQueries setup (calls ++ [⟨env, first :: rest⟩]), q ∈ S)
    (hlevel : ∀ b ∈ first :: rest, b.level ≠ 0)
    (hok : (putChain setup env (first :: rest) (reached setup calls)).res = .ok ()) :
    ∃ head head', (reached setup calls).header = some head ∧
      (putChain setup env (first :: rest) (reached setup calls)).state.header = some head' ∧
      (head.level ≤ head'.level ↔
        rollsBack (.of head) first = false ∨ ∃ b ∈ first :: rest, head.level ≤ b.level) := by
  rw [allQueries_append] at hlog
  obtain ⟨hlog₁, hlog₂⟩ := List.forall_mem_append.1 hlog
  have hc : Wf S (reached setup calls) := wf_run hstart hlog₁
  obtain ⟨head, hhead, -⟩ := hc.header
  obtain ⟨head', hhead', hiff⟩ := wp_putChain_level hsha hc hhead hlevel hlog₂ hok
  exact ⟨head, head', hhead, hhead', hiff⟩

end Crypto

section Level

open scoped Sample
open SampleChain

@[irreducible] def levelLog : List Query := allQueries setup ([] ++ [⟨env, [d1]⟩])

theorem putChain_level_sample : ∃ head head', (reached setup []).header = some head ∧
    (putChain setup env [d1] (reached setup [])).state.header = some head' ∧
      head.level ≤ head'.level := by
  have hS : Sha256Good {q | q ∈ levelLog} := fun a b ha hb =>
    Sample.sha256_inj_of_distinct (by decide +kernel) ha hb
  have hlog : ∀ q ∈ allQueries setup ([] ++ [⟨env, [d1]⟩]), q ∈ {q | q ∈ levelLog} := by
    intro q hq
    show q ∈ levelLog
    rw [levelLog]
    exact hq
  obtain ⟨head, head', hhead, hhead', hiff⟩ := putChain_level_iff hS (by decide +kernel) [] env d1 []
    hlog (by decide) (by decide +kernel)
  have hzero : (reached setup []).header.map (fun h => h.level) = some 0 := by decide +kernel
  rw [hhead, Option.map_some, Option.some.injEq] at hzero
  refine ⟨head, head', hhead, hhead', hiff.2 (.inr ⟨d1, List.mem_singleton.2 rfl, ?_⟩)⟩
  rw [hzero]
  decide

/-- The head is at level 2; a single block on the genesis block takes its place. -/
theorem putChain_shortens_chain :
    (putChain setup env [e1] (reached setup [⟨env, [d1]⟩, ⟨env, [d2]⟩])).res = .ok () ∧
      (reached setup [⟨env, [d1]⟩, ⟨env, [d2]⟩]).header = some d2.header ∧
      (putChain setup env [e1] (reached setup [⟨env, [d1]⟩, ⟨env, [d2]⟩])).state.header =
        some e1.header ∧
      e1.level < d2.level := by
  decide +kernel

end Level

/-! ## Rejected blocks -/

section Crypto

open BlockStorage

variable [Crypto] [Codec AccountState] {c : ChainState} {block : Block} {setup : Setup} {env : Env}

omit [Codec AccountState] in
theorem loadHead_run {head : BlockHeader} (hc : c.header = some head) :
    ∃ l, loadHead c = ⟨.ok (.of head), c, l⟩ := by
  unfold loadHead currentHeader
  rw [bind_assoc, get_bind, hc]
  exact ⟨_, rfl⟩

theorem putChain_run_rejected {head : BlockHeader} (hc : c.header = some head) {first : Block}
    (rest : List Block) {e : Fail ChainError}
    (hprepare : (prepareChain (.of head) first c).res = .ok ())
    (hreject : ((do processBlock setup env first; acceptBlock setup env first : M Bool)
      (prepareChain (.of head) first c).state).res = .error e) :
    (putChain setup env (first :: rest) c).res = .error e ∧
      (putChain setup env (first :: rest) c).state =
        ((do processBlock setup env first; acceptBlock setup env first : M Bool)
          (prepareChain (.of head) first c).state).state := by
  obtain ⟨l, hload⟩ := loadHead_run hc
  unfold putChain
  rw [bind_ok hload]
  dsimp only
  rw [bind_ok (Run.eq_of_res hprepare)]
  have hput : forEach (putBlock setup env (.of head)) (first :: rest) =
      (putBlock setup env (.of head) first >>= fun _ =>
        forEach (putBlock setup env (.of head)) rest) := rfl
  have hassoc : putBlock setup env (.of head) first =
      ((do processBlock setup env first; acceptBlock setup env first : M Bool) >>= fun repack => do
        onStorage (BlockStorage.put first)
        if repack then ofExcept (env.repack head first.header)) := by
    rw [bind_assoc]
    rfl
  rw [hput, bind_error (hassoc ▸ bind_error (Run.eq_of_res hreject))]
  exact ⟨rfl, rfl⟩

/-- A rejected block leaves the outline alone, while the event channel is open. -/
theorem rejected_outline {e : Fail ChainError} (hopen : ∀ h, env.send h = true)
    (hreject : ((do processBlock setup env block; acceptBlock setup env block : M Bool) c).res =
      .error e) :
    ((do processBlock setup env block; acceptBlock setup env block : M Bool) c).state.outline =
      c.outline := by
  have hwp : wp Set.univ (do processBlock setup env block; acceptBlock setup env block : M Bool)
      c fun res c' => (∃ e, res = .error e) → c'.outline = c.outline := by
    refine wp_bind (wp_mono (wp_processBlock Set.univ setup env block c) ?_)
    intro res c' hprocess
    obtain ⟨rfl, -⟩ := hprocess
    cases res with
    | error e => exact fun _ => rfl
    | ok u =>
      refine wp_mono (wp_acceptBlock Set.univ setup env block c') fun res c₁ haccept herr => ?_
      obtain ⟨e, rfl⟩ := herr
      cases haccept with
      | failed outline => exact outline
      | onHead current hashed parent header storage sent => cases sent (hopen _)
  exact hwp (fun _ _ => trivial) ⟨e, hreject⟩

/-- **A call whose first block is rejected leaves header, state root and level index as they were
exactly if** it does not go back. -/
theorem putChain_rejected_iff (hstart : (new setup .empty).res = .ok ()) (calls : List Call)
    (env : Env) (hopen : ∀ h, env.send h = true) {head : BlockHeader}
    (hhead : (reached setup calls).header = some head) (first : Block) (rest : List Block)
    (e : ChainError) (hprepare : (prepareChain (.of head) first (reached setup calls)).res = .ok ())
    (hreject : ((do processBlock setup env first; acceptBlock setup env first : M Bool)
      (prepareChain (.of head) first (reached setup calls)).state).res = .error (.err e)) :
    (putChain setup env (first :: rest) (reached setup calls)).res = .error (.err e) ∧
    ((putChain setup env (first :: rest) (reached setup calls)).state.header =
        (reached setup calls).header ∧
      (putChain setup env (first :: rest) (reached setup calls)).state.state.root =
        (reached setup calls).state.root ∧
      (putChain setup env (first :: rest) (reached setup calls)).state.blockStorage.blockByLevel =
        (reached setup calls).blockStorage.blockByLevel ↔
      rollsBack (.of head) first = false) := by
  have hc : Wf Set.univ (reached setup calls) := wf_run hstart fun _ _ => trivial
  obtain ⟨hres, hstate⟩ := putChain_run_rejected hhead rest hprepare hreject
  have hprepared := wp_prepareChain Set.univ (.of head) first (reached setup calls)
    fun _ _ => trivial
  have houtline := rejected_outline hopen hreject
  refine ⟨hres, ?_⟩
  rw [hstate]
  generalize (prepareChain (.of head) first (reached setup calls)).state = c₁ at *
  generalize ((do processBlock setup env first; acceptBlock setup env first : M Bool) c₁).state = c₂
    at *
  have hheader : c₂.header = c₁.header := congrArg (fun p => p.1) houtline
  have hroot : c₂.state.root = c₁.state.root := congrArg (fun p => p.2.2) houtline
  have hstorage : c₂.blockStorage = c₁.blockStorage := congrArg (fun p => p.2.1) houtline
  rw [hheader, hroot, hstorage]
  cases hrolls : rollsBack (.of head) first with
  | false =>
    obtain ⟨-, rfl⟩ := hprepared.2 hrolls
    exact ⟨fun _ => rfl, fun _ => ⟨rfl, rfl, rfl⟩⟩
  | true =>
    refine ⟨fun hsame => ?_, nofun⟩
    -- the parent of the block is not the head, so the header moved
    have hne : first.parentHash ≠ head.hash := (of_decide_eq_true hrolls).1
    have hrolled := hprepared.1 hrolls
    rw [hprepare] at hrolled
    cases hrolled with
    | @moved _ _ parent tree parent_eq found state header headers byHash =>
      have hparent := (hc.storage.headerByHash parent_eq).1
      have heq : some parent = some head := header.symm.trans (hsame.1.trans hhead)
      cases heq
      exact absurd hparent.symm hne

end Crypto

section Rejected

open scoped Sample
open SampleChain

/-- The block is on the head: nothing changes. -/
theorem putChain_rejected_sample :
    (putChain setup env [wrongRoot] (reached setup [])).res = .error (.err .invalidBlock) ∧
      (putChain setup env [wrongRoot] (reached setup [])).state.header =
        (reached setup []).header := by
  cases hhead : (reached setup []).header with
  | none => exact absurd hhead (by decide +kernel)
  | some head =>
    have hhash : (reached setup []).header.map (fun h => h.hash) = some wrongRoot.parentHash := by
      decide +kernel
    rw [hhead, Option.map_some, Option.some.injEq] at hhash
    have hrolls : rollsBack (.of head) wrongRoot = false :=
      decide_eq_false fun h => h.1 hhash.symm
    have hprepare : prepareChain (.of head) wrongRoot = pure () := by
      unfold prepareChain
      rw [hrolls]
      rfl
    obtain ⟨hres, hiff⟩ := putChain_rejected_iff (by decide +kernel) [] env (fun _ => rfl) hhead
      wrongRoot [] .invalidBlock (by rw [hprepare]; rfl) (by rw [hprepare]; decide +kernel)
    exact ⟨hres, (hiff.2 hrolls).1.trans hhead⟩

/-- The block is on another branch: it is rejected, and the head is the genesis block again. -/
theorem putChain_rejected_moves_head :
    (reached setup [⟨env, [d1]⟩]).header = some d1.header ∧
      (putChain setup env [wrongRoot] (reached setup [⟨env, [d1]⟩])).res =
        .error (.err .invalidBlock) ∧
      (putChain setup env [wrongRoot] (reached setup [⟨env, [d1]⟩])).state.header =
        (reached setup []).header ∧
      (reached setup []).header ≠ some d1.header := by
  decide +kernel

end Rejected

end ChainState

end Uchain
