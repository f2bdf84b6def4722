import Uchain.P2p.NetworkState

/-!
# The network head and the reports of the peers

`latest calls` is what the cache stands for: the last header that each peer reported, without the
peers that left. `IsHead R o` says that `o` is a header of maximal level among the reports `R`, or
`none` where there are none.

After every step from a state whose network head is right it is right again exactly if the step is
one of those in `KeepsHead` (`isHead_exec_iff`), hence so for runs (`isHead_run_iff`). The source
falls short in two ways: the header of the highest peer is never replaced by a later one of the same
peer, and when that peer leaves no other peer takes its place (`networkHead_outdated`).
-/

namespace Uchain.NetworkState

open Lib Exec BTreeMap

section Head

variable {P A : Type} [LinearOrder P]

def report (R : P → Option BlockHeader) : Call P A → P → Option BlockHeader
  | .setPeerAddress _ _ => R
  | .updatePeerCurrentHead peer head => Function.update R peer (some head)
  | .removePeer peer => Function.update R peer none

/-- The last header that each present peer reported. -/
def latest (calls : List (Bool × Call P A)) : P → Option BlockHeader :=
  calls.foldl (fun R c => report R c.2) fun _ => none

def IsHead (R : P → Option BlockHeader) : Option BlockHeader → Prop
  | none => ∀ p, R p = none
  | some head => (∃ p, R p = some head) ∧ ∀ p h, R p = some h → h.level ≤ head.level

/-- The network head is right after the call if it was before. The cases without a condition: a
higher head of another peer, and any head where there is none. -/
def KeepsHead (R : P → Option BlockHeader) (s : NetworkState P A) : Call P A → Prop
  | .setPeerAddress _ _ => True
  | .updatePeerCurrentHead peer head => ∀ highest current,
    s.highestKnowHead = some highest → s.networkHead = some current →
      (highest ≠ peer ∧ current.level < head.level) ∨
        (head.level ≤ current.level ∧ (head = current ∨ ∃ p, p ≠ peer ∧ R p = some current))
  | .removePeer peer => ∀ highest current,
    s.highestKnowHead = some highest → s.networkHead = some current →
      if highest = peer then ∀ p, p ≠ peer → R p = none else ∃ p, p ≠ peer ∧ R p = some current

/-- The highest peer has a header. -/
def Valid (s : NetworkState P A) : Prop :=
  ∀ highest, s.highestKnowHead = some highest → ∃ head, s.peerState.get? highest = some head

variable {s : NetworkState P A} {alive : Bool} {peer highest : P} {head current : BlockHeader}
  {R : P → Option BlockHeader}

/-! ## The states after a call -/

theorem keeps_send (event : LocalEventMessage P) :
    Keeps id (send alive event : M P A Unit) := by
  refine keeps_ite (fun _ => rfl) (keeps_fail _)

theorem networkHead_of_highest (h : s.highestKnowHead = some highest) :
    s.networkHead = s.peerState.get? highest := by
  rw [networkHead, h]

theorem networkHead_eq_none (hs : Valid s) :
    s.networkHead = none ↔ s.highestKnowHead = none := by
  cases h : s.highestKnowHead with
  | none => simp [networkHead, h]
  | some highest =>
    obtain ⟨head, hhead⟩ := hs highest h
    simp [networkHead_of_highest h, hhead]

theorem update_of_none (h : s.highestKnowHead = none) :
    (updatePeerCurrentHead alive peer head s).state = { s with
      highestKnowHead := some peer, peerState := s.peerState.insert peer head } := by
  let s' := { s with highestKnowHead := some peer, peerState := s.peerState.insert peer head }
  have hkeeps : Keeps id (do
      if (s.peerState.get? peer).isNone then handleNewPeerConnected alive peer
      send alive (.networkHighestHeadChanged peer (some head)) : M P A Unit) := by
    refine keeps_ite ?_ (keeps_send _)
    refine keeps_bind (keeps_bind keeps_get fun _ => keeps_send _) fun _ => ?_
    exact keeps_send _
  have hrun : updatePeerCurrentHead alive peer head s = (do
      if (s.peerState.get? peer).isNone then handleNewPeerConnected alive peer
      send alive (.networkHighestHeadChanged peer (some head)) : M P A Unit) s' := by
    unfold updatePeerCurrentHead
    rw [get_bind, h]
    exact bind_ok_nil rfl
  rw [hrun]
  exact hkeeps s'

theorem update_of_self (h : s.highestKnowHead = some peer) :
    (updatePeerCurrentHead alive peer head s).state = s := by
  unfold updatePeerCurrentHead
  rw [get_bind, h]
  simp only [ne_eq, not_true_eq_false, ↓reduceIte]
  exact keeps_send _ s

theorem update_of_ne (h : s.highestKnowHead = some highest) (hne : highest ≠ peer)
    (hcurrent : s.peerState.get? highest = some current) :
    (updatePeerCurrentHead alive peer head s).state =
      if current.level < head.level then { s with
        highestKnowHead := some peer, peerState := s.peerState.insert peer head } else s := by
  unfold updatePeerCurrentHead
  rw [get_bind, h]
  simp only [ne_eq, hne, not_false_eq_true, ↓reduceIte, hcurrent]
  rw [bind_ok_nil (show ofOption _ (some current) s = ⟨.ok current, s, []⟩ from rfl)]
  split
  · exact keeps_send _ _
  · exact keeps_send _ s

theorem remove_state : (removePeer alive peer s).state = { s with
    highestKnowHead := if s.highestKnowHead = some peer then none else s.highestKnowHead
    peerState := s.peerState.erase peer
    peerList := s.peerList.removePeer peer } :=
  keeps_send _ _

theorem valid_new : Valid (new : NetworkState P A) := by
  intro highest h
  cases h

theorem valid_insert (hs : s.highestKnowHead = some peer)
    (hget : s.peerState.get? peer = some head) : Valid s := by
  intro highest h
  rw [hs] at h
  cases h
  exact ⟨head, hget⟩

theorem valid_exec (hs : Valid s) (call : Call P A) : Valid (exec alive call s).state := by
  cases call with
  | setPeerAddress peer addr => exact hs
  | removePeer peer =>
    rw [show (exec alive (.removePeer peer) s).state = _ from remove_state]
    intro highest h
    simp only at h ⊢
    split at h
    · cases h
    · rename_i hne
      have hpeer : highest ≠ peer := by
        rintro rfl
        exact hne h
      rw [get?_erase, if_neg hpeer]
      exact hs highest h
  | updatePeerCurrentHead peer head =>
    show Valid (updatePeerCurrentHead alive peer head s).state
    cases h : s.highestKnowHead with
    | none =>
      rw [update_of_none h]
      exact valid_insert rfl (get?_insert_self _ _ _)
    | some highest =>
      obtain ⟨current, hcurrent⟩ := hs highest h
      by_cases hpeer : highest = peer
      · rw [update_of_self (hpeer ▸ h)]
        exact hs
      · rw [update_of_ne h hpeer hcurrent]
        split
        · exact valid_insert rfl (get?_insert_self _ _ _)
        · exact hs

theorem valid_run (calls : List (Bool × Call P A)) : Valid (run calls new : NetworkState P A) := by
  induction calls using List.reverseRecOn with
  | nil => exact valid_new
  | append_singleton calls c ih =>
    rw [run, List.foldl_append]
    exact valid_exec ih c.2

/-! ## One call -/

theorem isHead_update_of_lt (hR : IsHead R (some current)) (hlevel : current.level < head.level) :
    IsHead (Function.update R peer (some head)) (some head) := by
  refine ⟨⟨peer, Function.update_self ..⟩, fun p h hp => ?_⟩
  by_cases hpeer : p = peer
  · rw [hpeer, Function.update_self] at hp
    exact le_of_eq (congrArg _ (Option.some.inj hp.symm))
  · rw [Function.update_of_ne hpeer] at hp
    exact (hR.2 p h hp).trans hlevel.le

theorem isHead_update_iff (hR : IsHead R (some current)) :
    IsHead (Function.update R peer (some head)) (some current) ↔
      head.level ≤ current.level ∧ (head = current ∨ ∃ p, p ≠ peer ∧ R p = some current) := by
  constructor
  · intro h
    obtain ⟨⟨p, hp⟩, hmax⟩ := h
    refine ⟨hmax peer head (Function.update_self ..), ?_⟩
    by_cases hpeer : p = peer
    · rw [hpeer, Function.update_self] at hp
      exact .inl (Option.some.inj hp)
    · rw [Function.update_of_ne hpeer] at hp
      exact .inr ⟨p, hpeer, hp⟩
  · intro h
    obtain ⟨hlevel, hmem⟩ := h
    refine ⟨?_, fun p h hp => ?_⟩
    · rcases hmem with rfl | ⟨p, hpeer, hp⟩
      · exact ⟨peer, Function.update_self ..⟩
      · exact ⟨p, (Function.update_of_ne hpeer ..).trans hp⟩
    · by_cases hpeer : p = peer
      · rw [hpeer, Function.update_self] at hp
        exact Option.some.inj hp ▸ hlevel
      · rw [Function.update_of_ne hpeer] at hp
        exact hR.2 p h hp

theorem isHead_remove_iff (hR : IsHead R (some current)) :
    IsHead (Function.update R peer none) (some current) ↔
      ∃ p, p ≠ peer ∧ R p = some current := by
  have hold : ∀ p h, Function.update R peer none p = some h → p ≠ peer ∧ R p = some h := by
    intro p h hp
    by_cases hpeer : p = peer
    · rw [hpeer, Function.update_self] at hp
      cases hp
    · exact ⟨hpeer, (Function.update_of_ne hpeer ..).symm.trans hp⟩
  constructor
  · intro h
    obtain ⟨p, hp⟩ := h.1
    exact ⟨p, hold p current hp⟩
  · intro h
    obtain ⟨p, hpeer, hp⟩ := h
    exact ⟨⟨p, (Function.update_of_ne hpeer ..).trans hp⟩,
      fun p h hp => hR.2 p h (hold p h hp).2⟩

theorem isHead_none_iff :
    IsHead (Function.update R peer none) none ↔ ∀ p, p ≠ peer → R p = none := by
  constructor
  · intro h p hpeer
    exact (Function.update_of_ne hpeer ..).symm.trans (h p)
  · intro h p
    by_cases hpeer : p = peer
    · rw [hpeer, Function.update_self]
    · exact (Function.update_of_ne hpeer ..).trans (h p hpeer)

theorem isHead_updatePeer_iff (hs : Valid s) (hR : IsHead R s.networkHead) :
    IsHead (Function.update R peer (some head))
        (updatePeerCurrentHead alive peer head s).state.networkHead ↔
      KeepsHead R s (.updatePeerCurrentHead peer head) := by
  cases h : s.highestKnowHead with
  | none =>
    rw [(networkHead_eq_none hs).2 h] at hR
    rw [update_of_none h, networkHead_of_highest rfl, get?_insert_self]
    refine iff_of_true ⟨⟨peer, Function.update_self ..⟩, fun p h' hp => ?_⟩ fun _ _ h' => ?_
    · by_cases hpeer : p = peer
      · rw [hpeer, Function.update_self] at hp
        exact le_of_eq (congrArg _ (Option.some.inj hp.symm))
      · rw [Function.update_of_ne hpeer, hR p] at hp
        cases hp
    · rw [h] at h'
      cases h'
  | some highest =>
    obtain ⟨current, hcurrent⟩ := hs highest h
    have hhead : s.networkHead = some current := (networkHead_of_highest h).trans hcurrent
    have hkeeps : KeepsHead R s (.updatePeerCurrentHead peer head) ↔
        (highest ≠ peer ∧ current.level < head.level) ∨
          (head.level ≤ current.level ∧ (head = current ∨ ∃ p, p ≠ peer ∧ R p = some current)) := by
      simp [KeepsHead, h, hhead]
    rw [hhead] at hR
    rw [hkeeps]
    by_cases hpeer : highest = peer
    · rw [update_of_self (hpeer ▸ h), hhead, isHead_update_iff hR]
      simp [hpeer]
    · rw [update_of_ne h hpeer hcurrent]
      split
      · rename_i hlevel
        rw [networkHead_of_highest rfl, get?_insert_self]
        exact iff_of_true (isHead_update_of_lt hR hlevel) (.inl ⟨hpeer, hlevel⟩)
      · rename_i hlevel
        rw [hhead, isHead_update_iff hR]
        simp [hlevel]

theorem isHead_removePeer_iff (hs : Valid s) (hR : IsHead R s.networkHead) :
    IsHead (Function.update R peer none) (removePeer alive peer s).state.networkHead ↔
      KeepsHead R s (.removePeer peer : Call P A) := by
  rw [remove_state]
  cases h : s.highestKnowHead with
  | none =>
    rw [(networkHead_eq_none hs).2 h] at hR
    refine iff_of_true ?_ fun _ _ h' => ?_
    · exact isHead_none_iff.2 fun p _ => hR p
    · rw [h] at h'
      cases h'
  | some highest =>
    obtain ⟨current, hcurrent⟩ := hs highest h
    have hhead : s.networkHead = some current := (networkHead_of_highest h).trans hcurrent
    have hkeeps : KeepsHead R s (.removePeer peer : Call P A) ↔
        if highest = peer then ∀ p, p ≠ peer → R p = none
        else ∃ p, p ≠ peer ∧ R p = some current := by
      simp [KeepsHead, h, hhead]
    rw [hhead] at hR
    rw [hkeeps]
    by_cases hpeer : highest = peer
    · rw [if_pos (congrArg some hpeer), if_pos hpeer]
      exact isHead_none_iff
    · have hget : (s.peerState.erase peer).get? highest = some current := by
        rw [get?_erase, if_neg hpeer, hcurrent]
      rw [if_neg fun heq => hpeer (Option.some.inj heq), if_neg hpeer,
        networkHead_of_highest rfl, hget]
      exact isHead_remove_iff hR

/-- **One call**: from a right network head the call leads to a right one exactly if it is one of
those that keep it. -/
theorem isHead_exec_iff (hs : Valid s) (hR : IsHead R s.networkHead) (call : Call P A) :
    IsHead (report R call) (exec alive call s).state.networkHead ↔ KeepsHead R s call := by
  cases call with
  | setPeerAddress peer addr => exact iff_of_true hR trivial
  | updatePeerCurrentHead peer head => exact isHead_updatePeer_iff hs hR
  | removePeer peer => exact isHead_removePeer_iff hs hR

/-! ## Runs -/

/-- **The network head along a run**: it is a highest report after every call exactly if every call
keeps it. -/
theorem isHead_run_iff (calls : List (Bool × Call P A)) :
    (∀ prior, prior <+: calls → IsHead (latest prior) (run prior new).networkHead) ↔
      ∀ prior c, prior ++ [c] <+: calls → KeepsHead (latest prior) (run prior new) c.2 := by
  induction calls using List.reverseRecOn with
  | nil =>
    refine iff_of_true (fun prior hprior => ?_) fun prior c hprior => ?_
    · rw [List.prefix_nil.1 hprior]
      exact fun _ => rfl
    · simp at hprior
  | append_singleton calls c ih =>
    have hstep (hR : IsHead (latest calls) (run calls new).networkHead) :
        IsHead (latest (calls ++ [c])) (run (calls ++ [c]) new).networkHead ↔
          KeepsHead (latest calls) (run calls new) c.2 := by
      rw [latest, run, List.foldl_append, List.foldl_append]
      exact isHead_exec_iff (valid_run calls) hR c.2
    constructor
    · intro h prior c' hprior
      have hcalls := fun prior hprior => h prior (List.prefix_concat_iff.2 (.inr hprior))
      rcases List.prefix_concat_iff.1 hprior with heq | hprior
      · obtain ⟨rfl, hc⟩ := List.append_inj' heq rfl
        cases hc
        exact (hstep (hcalls prior List.prefix_rfl)).1 (h _ List.prefix_rfl)
      · exact ih.1 hcalls prior c' hprior
    · intro h prior hprior
      have hcalls := ih.2 fun prior c hprior => h prior c (List.prefix_concat_iff.2 (.inr hprior))
      rcases List.prefix_concat_iff.1 hprior with rfl | hprior
      · exact (hstep (hcalls calls List.prefix_rfl)).2 (h calls c List.prefix_rfl)
      · exact hcalls prior hprior

end Head

def headerAt (level : UInt32) : BlockHeader :=
  ⟨.zero, .zero, .zero, .zero, 0, .zero, 0, 0, level, 0, 0⟩

def advancing : List (Bool × Call Nat Unit) :=
  [(true, .updatePeerCurrentHead 1 (headerAt 5)), (true, .updatePeerCurrentHead 1 (headerAt 7))]

/-- The peer `1` reports, then the peer `2` a higher head, and leaves. -/
def leaving : List (Bool × Call Nat Unit) :=
  [(true, .updatePeerCurrentHead 1 (headerAt 5)), (true, .updatePeerCurrentHead 2 (headerAt 7)),
    (true, .removePeer 2)]

/-- **A head behind the reports.** The first run ends with an older head of the only peer, the
second one with none although a peer is left. -/
theorem networkHead_outdated :
    (run advancing new).networkHead = some (headerAt 5) ∧
      latest advancing 1 = some (headerAt 7) ∧
      ¬ IsHead (latest advancing) (run advancing new).networkHead ∧
      (run leaving new).networkHead = none ∧ latest leaving 1 = some (headerAt 5) ∧
      ¬ IsHead (latest leaving) (run leaving new).networkHead := by
  have hadvancing : (run advancing new).networkHead = some (headerAt 5) ∧
      latest advancing 1 = some (headerAt 7) := by decide +kernel
  have hleaving : (run leaving new).networkHead = none ∧
      latest leaving 1 = some (headerAt 5) := by decide +kernel
  refine ⟨hadvancing.1, hadvancing.2, fun h => ?_, hleaving.1, hleaving.2, fun h => ?_⟩
  · rw [hadvancing.1] at h
    have hlevel := h.2 1 _ hadvancing.2
    revert hlevel
    decide
  · rw [hleaving.1] at h
    have hnone := (h 1).symm.trans hleaving.2
    cases hnone

end Uchain.NetworkState
