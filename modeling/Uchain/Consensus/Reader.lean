import Uchain.Consensus.Barossa

/-!
# The work rules over any chain reader

The consensus reads the chain through `traits::ChainHeadReader`. `Consensus.Barossa` has the methods
over the block storage; here they are over an arbitrary reader, together with the trait's own
`work_required`, which finds the height from the parent. A reader may fail: `unwrap` turns an error
into a panic, `?` passes it on.

The block storage is one such reader, and its methods are these (`workRequired_run`,
`prepareHeader_run`).
-/

namespace Uchain

open Lib

abbrev Answer (α : Type) := Except (Fail ChainError) α

namespace Answer

variable {α : Type}

def unwrap : Answer α → Answer α
  | .error (.err _) => .error .panic
  | r => r

def expect : Option α → Answer α
  | some a => .ok a
  | none => .error .panic

def okOr (e : ChainError) : Option α → Answer α
  | some a => .ok a
  | none => .error (.err e)

theorem bind_eq_ok {β : Type} {r : Answer α} {f : α → Answer β} {b : β} (h : r >>= f = .ok b) :
    ∃ a, r = .ok a ∧ f a = .ok b := by
  cases r with
  | error e => cases h
  | ok a => exact ⟨a, rfl, h⟩

theorem unwrap_eq_ok {r : Answer α} {a : α} (h : r.unwrap = .ok a) : r = .ok a := by
  rcases r with (e | _ | _) | b
  · cases h
  · cases h
  · cases h
  · exact h

theorem expect_eq_ok {o : Option α} {a : α} (h : expect o = .ok a) : o = some a := by
  cases o with
  | none => cases h
  | some b => exact congrArg some (Except.ok.inj h)

end Answer

structure ChainHeadReader where
  getHeader : H256 → UInt32 → Answer (Option IndexedBlockHeader)
  getHeaderByHash : H256 → Answer (Option IndexedBlockHeader)
  getHeaderByLevel : UInt32 → Answer (Option IndexedBlockHeader)

namespace BarossaProtocol

/-- The arithmetic of a retarget: the target of the last block times the timespan, over the intended
timespan, with a ceiling. -/
def retarget (maxWorkBits lastBits : Compact) (retargetTimestamp lastTimestamp : UInt32) :
    Answer Compact :=
  let product := lastBits.toU256.toNat * (retargetTimespan retargetTimestamp lastTimestamp).toNat
  if 2 ^ 256 ≤ product then .error .panic
  else
    let retarget := BitVec.ofNat 256 (product / targetTimespanSeconds.toNat)
    if retarget > maxWorkBits.toU256 then .ok maxWorkBits else .ok (.fromU256 retarget)

def retargetOn (chain : ChainHeadReader) (parentHeader : IndexedBlockHeader) (height : UInt32)
    (maxWorkBits : Compact) : Answer Compact := do
  let retargetHeader ← (chain.getHeaderByLevel (height - retargetingInterval)).unwrap
  let retargetHeader ← Answer.expect retargetHeader
  retarget maxWorkBits parentHeader.raw.bits retargetHeader.raw.time parentHeader.raw.time

def collectBitsOn (chain : ChainHeadReader) : Nat → H256 → Answer (List Compact)
  | 0, _ => return []
  | n + 1, blockRef => do
    match ← (chain.getHeaderByHash blockRef).unwrap with
    | none => return []
    | some previousHeader =>
      let bits ← collectBitsOn chain n previousHeader.raw.parentHash
      return previousHeader.raw.bits :: bits

def testnetOn (p : BarossaProtocol) (chain : ChainHeadReader) (parentHash : H256)
    (time height : UInt32) : Answer Compact :=
  if height = 0 then .error .panic
  else do
    let parentHeader ← (chain.getHeaderByHash parentHash).unwrap
    let parentHeader ← Answer.expect parentHeader
    if time > parentHeader.raw.time + doubleSpacingSeconds then
      return p.network.maxDifficultyCompact
    else
      let bits ← collectBitsOn chain retargetingInterval.toNat parentHash
      return firstBits p.network.maxDifficultyCompact height 0 bits

/-- The method `work_required` of the protocol. -/
def workRequiredOn (p : BarossaProtocol) (chain : ChainHeadReader) (parentHash : H256)
    (time height : UInt32) : Answer Compact :=
  if height = 0 then .ok p.network.maxDifficultyCompact
  else do
    let parentHeader ← (chain.getHeaderByHash parentHash).unwrap
    let parentHeader ← Answer.expect parentHeader
    if isRetargetHeight height then
      retargetOn chain parentHeader height p.network.maxDifficultyCompact
    else if p.network = .testnet then p.testnetOn chain parentHash time height
    else return parentHeader.raw.bits

/-- The header with the fields that `prepare_header` sets. -/
def prepared (p : BarossaProtocol) (header : BlockHeader) (difficulty : Compact) : BlockHeader :=
  { header with chainId := p.network.chainId, difficulty := difficulty.bits }

def prepareHeaderOn (p : BarossaProtocol) (chain : ChainHeadReader) (header : BlockHeader) :
    Answer BlockHeader := do
  let parent ← chain.getHeader header.parentHash (header.level - 1)
  let parent ← Answer.okOr .parentBlockNotFound parent
  let difficulty ← p.workRequiredOn chain parent.hash header.time (header.level + 1)
  return p.prepared header difficulty

end BarossaProtocol

/-! ## The block storage as a reader -/

namespace BlockStorage

def Reads {α : Type} (x : M α) (s : BlockStorage) (r : Answer α) : Prop := ∃ l, x s = ⟨r, s, l⟩

section Reads

variable {α β : Type} {s : BlockStorage}

theorem Reads.pure (a : α) : Reads (Pure.pure a) s (.ok a) := ⟨[], rfl⟩

theorem Reads.bind {x : M α} {f : α → M β} {r : Answer α} {g : α → Answer β} (hx : Reads x s r)
    (hf : ∀ a, Reads (f a) s (g a)) : Reads (x >>= f) s (r >>= g) := by
  obtain ⟨l, hx⟩ := hx
  cases r with
  | error e => exact ⟨l, Exec.bind_error hx⟩
  | ok a =>
    obtain ⟨l', hl'⟩ := hf a
    refine ⟨l ++ l', (Exec.bind_ok hx).trans ?_⟩
    rw [hl']
    rfl

theorem Reads.orPanic (o : Option α) : Reads (Exec.orPanic o) s (Answer.expect o) := by
  cases o with
  | none => exact ⟨[], rfl⟩
  | some a => exact ⟨[], rfl⟩

theorem Reads.ofOption (e : ChainError) (o : Option α) :
    Reads (Exec.ofOption e o) s (Answer.okOr e o) := by
  cases o with
  | none => exact ⟨[], rfl⟩
  | some a => exact ⟨[], rfl⟩

theorem Reads.get_bind {f : BlockStorage → M β} {r : Answer β} (hf : Reads (f s) s r) :
    Reads (Exec.get >>= f) s r := by
  obtain ⟨l, hl⟩ := hf
  exact ⟨l, (Exec.bind_ok_nil (x := Exec.get) rfl).trans hl⟩

theorem Reads.ite {c : Prop} [Decidable c] {x y : M α} {r r' : Answer α} (hx : Reads x s r)
    (hy : Reads y s r') : Reads (if c then x else y) s (if c then r else r') := by
  split
  · exact hx
  · exact hy

end Reads

variable [Crypto]

def indexedHeader (s : BlockStorage) (k : BlockPrimaryKey) : Option IndexedBlockHeader :=
  (s.headers.get? k).map fun h => IndexedBlockHeader.mk h.hash h

def reader (s : BlockStorage) : ChainHeadReader where
  getHeader hash level := .ok (s.indexedHeader (toLex (level, hash)))
  getHeaderByHash hash := .ok ((s.blockByHash.get? hash).bind s.indexedHeader)
  getHeaderByLevel level := .ok ((s.blockByLevel.get? level).bind s.indexedHeader)

variable {s : BlockStorage}

theorem reads_indexed (o : Option BlockHeader) :
    Reads (indexed o) s (.ok (o.map fun h => IndexedBlockHeader.mk h.hash h)) := by
  cases o with
  | none => exact .pure none
  | some h => exact ⟨_, rfl⟩

theorem reads_getHeader (hash : H256) (level : UInt32) :
    Reads (getHeader hash level) s (s.reader.getHeader hash level) :=
  Reads.get_bind (reads_indexed _)

theorem reads_getHeaderAt (k : Option BlockPrimaryKey) :
    Reads (getHeaderAt k) s (.ok (k.bind s.indexedHeader)) := by
  cases k with
  | none => exact .pure none
  | some k => exact reads_getHeader _ _

theorem reads_getHeaderByHash (hash : H256) :
    Reads (getHeaderByHash hash) s (s.reader.getHeaderByHash hash) :=
  Reads.get_bind (reads_getHeaderAt _)

theorem reads_getHeaderByLevel (level : UInt32) :
    Reads (getHeaderByLevel level) s (s.reader.getHeaderByLevel level) :=
  Reads.get_bind (reads_getHeaderAt _)

end BlockStorage

namespace BarossaProtocol

open BlockStorage

variable [Crypto] {p : BarossaProtocol} {s : BlockStorage}

theorem reads_workRequiredRetarget (parentHeader : IndexedBlockHeader) (height : UInt32)
    (maxWorkBits : Compact) : Reads (workRequiredRetarget parentHeader height maxWorkBits) s
      (retargetOn s.reader parentHeader height maxWorkBits) := by
  refine (reads_getHeaderByLevel _).bind fun o => (Reads.orPanic o).bind fun h => ?_
  exact Reads.ite ⟨[], rfl⟩ (Reads.ite (.pure _) (.pure _))

theorem reads_collectBits (n : Nat) (blockRef : H256) :
    Reads (collectBits n blockRef) s (collectBitsOn s.reader n blockRef) := by
  induction n generalizing blockRef with
  | zero => exact .pure []
  | succ n ih =>
    refine (reads_getHeaderByHash blockRef).bind fun o => ?_
    cases o with
    | none => exact .pure []
    | some h => exact (ih h.raw.parentHash).bind fun bits => .pure (h.raw.bits :: bits)

theorem reads_workRequiredTestnet (parentHash : H256) (time height : UInt32) :
    Reads (p.workRequiredTestnet parentHash time height) s
      (p.testnetOn s.reader parentHash time height) := by
  refine Reads.ite ⟨[], rfl⟩ ?_
  refine (reads_getHeaderByHash parentHash).bind fun o => (Reads.orPanic o).bind fun h => ?_
  exact Reads.ite (.pure _) ((reads_collectBits _ _).bind fun bits => .pure _)

/-- **The method over the block storage** is the one over its reader. -/
theorem workRequired_run (parentHash : H256) (time height : UInt32) :
    Reads (p.workRequired parentHash time height) s
      (p.workRequiredOn s.reader parentHash time height) := by
  refine Reads.ite (.pure _) ?_
  refine (reads_getHeaderByHash parentHash).bind fun o => (Reads.orPanic o).bind fun h => ?_
  refine Reads.ite (reads_workRequiredRetarget _ _ _) ?_
  exact Reads.ite (reads_workRequiredTestnet _ _ _) (.pure _)

theorem prepareHeader_run (header : BlockHeader) :
    Reads (p.prepareHeader header) s (p.prepareHeaderOn s.reader header) :=
  (reads_getHeader _ _).bind fun o => (Reads.ofOption _ o).bind fun _ =>
    (workRequired_run _ _ _).bind fun _ => .pure _

end BarossaProtocol

end Uchain
