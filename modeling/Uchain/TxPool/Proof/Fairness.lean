import Uchain.Lib.Leveling
import Uchain.Lib.Weight
import Uchain.TxPool.Proof.Moves
import Uchain.TxPool.Sample

/-!
# The fairness of pending truncation

`truncate_pending` lowers the lists of the accounts over `account_slots` in rounds: each round takes one
transaction from every offender. An offender joins when the one before the last has no more transactions
than the last one had when it joined; but the last one is lowered in the same rounds, so that the lists are
not levelled. The counter is lowered for an empty list too.
-/

namespace Uchain

open Lib BTreeMap

def Action.isCap : Action → Bool
  | .cap _ => true
  | _ => false

namespace TxPool

open Exec Leveling

def pendingTotal (p : TxPool) : Nat := p.pending.weight TxList.len

/-- How often the counter of pending transactions was lowered. -/
def capCount (log : History) : Nat := log.countP fun e => e.1.isCap

/-- The accounts over `account_slots`, each with the round in which it becomes an offender. -/
def joined (env : Env) (p : TxPool) : List (Address × Nat) := joins p.pendingLen (spammers env p)

section Rounds

variable {env : Env} {p q : TxPool} {js front rest : List (Address × Nat)} {t fin : Nat} {pending : UInt64}

theorem capCount_append (log log' : History) : capCount (log ++ log') = capCount log + capCount log' :=
  List.countP_append

/-- Each of some accounts loses a pending transaction, if it has one. -/
structure Lowered (offenders : List Address) (p p' : TxPool) : Prop where
  config : p'.config = p.config
  len : ∀ a ∈ offenders, p'.pendingLen a = p.pendingLen a - 1
  present : ∀ a, p.pending.get? a ≠ none → p'.pending.get? a ≠ none
  others : ∀ a, a ∉ offenders → p'.pending.get? a = p.pending.get? a

/-- The pool after `t` rounds, from `p`. -/
structure Round (js : List (Address × Nat)) (p : TxPool) (t : Nat) (q : TxPool) : Prop where
  config : q.config = p.config
  len : ∀ e ∈ js, q.pendingLen e.1 = p.pendingLen e.1 - (t - e.2)
  present : ∀ e ∈ js, q.pending.get? e.1 ≠ none
  others : ∀ a, a ∉ js.map Prod.fst → q.pending.get? a = p.pending.get? a

/-- After `t` rounds there are more than `global_slots` pending transactions, by the counter. -/
def Over (js : List (Address × Nat)) (p : TxPool) (t : Nat) : Prop :=
  p.config.globalSlots.toNat + lost js t < p.pendingTotal

/-- What holds before a round: the counter is over the limit, and if all have joined by round `fin`, the
last one has more than `account_slots` transactions. -/
def Busy (js : List (Address × Nat)) (fin : Nat) (p : TxPool) (t : Nat) : Prop :=
  Over js p t ∧ (fin ≤ t → ∃ e ∈ js, p.config.accountSlots.toNat + (t - e.2) < p.pendingLen e.1)

/-- The counter after `t` rounds. -/
def Counter (js : List (Address × Nat)) (p : TxPool) (t : Nat) (pending : UInt64) : Prop :=
  lost js t ≤ p.pendingTotal ∧ pending.toNat = p.pendingTotal - lost js t

/-- A run that starts after `t` rounds ends after `t'` rounds; or the counter underflows in the last of
them. -/
def Levels {α : Type} (js : List (Address × Nat)) (fin : Nat) (p : TxPool) (t : Nat)
    (r : Run TxPoolError (Action × TxPool) TxPool α) (good : Nat → α → Prop) : Prop :=
  ∃ t', t ≤ t' ∧ (∀ s, t ≤ s → s < t' → Busy js fin p s) ∧
    ((∃ a q log, r = ⟨.ok a, q, log⟩ ∧ capCount log + lost js t = lost js t' ∧ Round js p t' q ∧ good t' a) ∨
      p.pendingTotal < lost js t' ∧ p.pendingTotal < capCount r.log + lost js t)

theorem Counter.over_iff (h : Counter js p t pending) (hq : Round js p t q) :
    pending > q.config.globalSlots ↔ Over js p t := by
  have h₁ := h.1
  rw [gt_iff_lt, UInt64.lt_iff_toNat_lt, hq.config, h.2]
  unfold Over
  omega

theorem Levels.of_pure {α : Type} {a : α} {good : Nat → α → Prop} (hq : Round js p t q)
    (hgood : good t a) : Levels js fin p t ((Pure.pure a : M α) q) good :=
  ⟨t, le_rfl, fun s hs hs' => absurd hs' (by omega), .inl ⟨a, q, [], rfl, Nat.zero_add _, hq, hgood⟩⟩

theorem Levels.mono {α : Type} {r : Run TxPoolError (Action × TxPool) TxPool α}
    {good good' : Nat → α → Prop} (h : Levels js fin p t r good) (hgood : ∀ t' a, good t' a → good' t' a) :
    Levels js fin p t r good' := by
  obtain ⟨t', ht, hover, hend⟩ := h
  refine ⟨t', ht, hover, hend.imp_left fun ⟨a, q, log, hrun, hcount, hq, ha⟩ => ?_⟩
  exact ⟨a, q, log, hrun, hcount, hq, hgood t' a ha⟩

theorem Levels.bind {α β : Type} {x : M α} {f : α → M β} {good : Nat → α → Prop}
    {good' : Nat → β → Prop} (hx : Levels js fin p t (x q) good)
    (hf : ∀ t' a q', t ≤ t' → Round js p t' q' → good t' a → Levels js fin p t' (f a q') good') :
    Levels js fin p t ((x >>= f) q) good' := by
  obtain ⟨t', ht, hover, ⟨a, q', log, hrun, hcount, hq', hgood⟩ | ⟨hlost, hunder⟩⟩ := hx
  · obtain ⟨u, hu, hover', hend⟩ := hf t' a q' ht hq' hgood
    refine ⟨u, ht.trans hu, fun s hs hs' => ?_, ?_⟩
    · rcases Nat.lt_or_ge s t' with h | h
      · exact hover s hs h
      · exact hover' s h hs'
    · rw [bind_ok hrun]
      rcases hend with ⟨b, q'', log', hrun', hcount', hq'', hgood'⟩ | ⟨hlost, hunder⟩
      · refine .inl ⟨b, q'', log ++ log', ?_, ?_, hq'', hgood'⟩
        · rw [hrun']
        · rw [capCount_append]
          omega
      · refine .inr ⟨hlost, ?_⟩
        rw [capCount_append]
        omega
  · refine ⟨t', ht, hover, .inr ⟨hlost, ?_⟩⟩
    rcases hrun : x q with ⟨e | a, q', log⟩
    · rw [hrun] at hunder
      rw [bind_error hrun]
      exact hunder
    · rw [hrun] at hunder
      rw [bind_ok hrun, capCount_append]
      have : capCount log + lost js t ≤ capCount log + capCount (f a q').log + lost js t := by omega
      exact lt_of_lt_of_le hunder this

theorem Round.next {q' : TxPool} (hnodup : ((front ++ rest).map Prod.fst).Nodup)
    (hfront : ∀ e ∈ front, e.2 ≤ t) (hrest : ∀ e ∈ rest, t < e.2) (hq : Round (front ++ rest) p t q)
    (hlow : Lowered (front.map Prod.fst) q q') : Round (front ++ rest) p (t + 1) q' := by
  have hothers {a : Address} (ha : a ∉ front.map Prod.fst) : q'.pendingLen a = q.pendingLen a := by
    unfold pendingLen
    rw [hlow.others a ha]
  refine ⟨hlow.config.trans hq.config, fun e he => ?_, fun e he => hlow.present _ (hq.present e he),
    fun a ha => ?_⟩
  · have hlen := hq.len e he
    rcases List.mem_append.1 he with hmem | hmem
    · have hle := hfront e hmem
      rw [hlow.len _ (List.mem_map_of_mem hmem), hlen]
      omega
    · have hlt := hrest e hmem
      rw [List.map_append, List.nodup_append] at hnodup
      have hout : e.1 ∉ front.map Prod.fst := fun hin =>
        hnodup.2.2 e.1 hin e.1 (List.mem_map_of_mem hmem) rfl
      rw [hothers hout, hlen]
      omega
  · have hout : a ∉ front.map Prod.fst := fun hin =>
      ha (by rw [List.map_append]; exact List.mem_append_left _ hin)
    rw [hlow.others a hout]
    exact hq.others a ha

theorem spammers_nodup (env : Env) (p : TxPool) : (spammers env p).Nodup := by
  refine (List.perm_insertionSort _ _).nodup_iff.2 ?_
  exact (nodup_iter p.pending).sublist (List.filter_sublist.map Prod.fst)

theorem mem_spammers_iff (hfits : p.pendingTotal < 2 ^ 64) {a : Address} : a ∈ spammers env p ↔
    p.locals.contains a = false ∧ p.config.accountSlots.toNat < p.pendingLen a := by
  have hover {list : TxList} (hlist : p.pending.get? a = some list) :
      UInt64.ofNat list.len > p.config.accountSlots ↔ p.config.accountSlots.toNat < p.pendingLen a := by
    have hlen : p.pendingLen a = list.len := weightAt_of_get? hlist
    have hle : p.pendingLen a ≤ p.pendingTotal := weightAt_le_weight _ _ _
    rw [gt_iff_lt, UInt64.lt_iff_toNat_lt, UInt64.toNat_ofNat', Nat.mod_eq_of_lt (by omega), hlen]
  rw [spammers, List.mem_insertionSort, List.mem_map]
  constructor
  · rintro ⟨e, he, rfl⟩
    obtain ⟨hmem, hcond⟩ := List.mem_filter.1 he
    rw [Bool.and_eq_true, Bool.not_eq_true', decide_eq_true_eq] at hcond
    exact ⟨hcond.1, (hover (mem_iter hmem)).1 hcond.2⟩
  · rintro ⟨hlocal, hlen⟩
    cases hlist : p.pending.get? a with
    | none =>
      rw [pendingLen, hlist] at hlen
      exact absurd hlen (Nat.not_lt_zero _)
    | some list =>
      refine ⟨(a, list), List.mem_filter.2 ⟨mem_iter_of_get? hlist, ?_⟩, rfl⟩
      rw [Bool.and_eq_true, Bool.not_eq_true', decide_eq_true_eq]
      exact ⟨hlocal, (hover hlist).2 hlen⟩

theorem joined_fst (env : Env) (p : TxPool) : (joined env p).map Prod.fst = spammers env p := joins_fst

theorem fst_mem_spammers {e : Address × Nat} (he : e ∈ joined env p) : e.1 ∈ spammers env p := by
  rw [← joined_fst]
  exact List.mem_map_of_mem he

theorem over_of_mem_joined (hfits : p.pendingTotal < 2 ^ 64) {e : Address × Nat} (he : e ∈ joined env p) :
    p.config.accountSlots.toNat < p.pendingLen e.1 :=
  ((mem_spammers_iff hfits).1 (fst_mem_spammers he)).2

/-- After `t` rounds no account is below `account_slots`. -/
def AboveFloor (env : Env) (p : TxPool) (t : Nat) : Prop :=
  ∀ e ∈ joined env p, p.config.accountSlots.toNat + (t - e.2) ≤ p.pendingLen e.1

theorem AboveFloor.lost_le (h : AboveFloor env p t) : lost (joined env p) t ≤ p.pendingTotal := by
  have hsum : lost (joined env p) t ≤ (((joined env p).map Prod.fst).map p.pendingLen).sum :=
    Leveling.lost_le fun e he => (Nat.le_add_left _ _).trans (h e he)
  rw [joined_fst] at hsum
  exact hsum.trans (sum_weightAt_le_weight (spammers_nodup env p))

theorem Round.total (hq : Round (joined env p) p t q) (h : AboveFloor env p t) :
    q.pendingTotal + lost (joined env p) t = p.pendingTotal := by
  have hweight := weight_add_sum p.pending q.pending (f := TxList.len) (spammers_nodup env p)
    fun a ha => hq.others a (by rwa [joined_fst])
  have hsum : ((spammers env p).map (p.pending.weightAt TxList.len)).sum =
      ((spammers env p).map (q.pending.weightAt TxList.len)).sum + lost (joined env p) t := by
    rw [← joined_fst, List.map_map, List.map_map, lost, ← List.sum_map_add]
    refine congrArg List.sum (List.map_congr_left fun e he => ?_)
    have hlen := hq.len e he
    have hle := h e he
    show p.pendingLen e.1 = q.pendingLen e.1 + (t - e.2)
    omega
  unfold pendingTotal
  omega

theorem accountSlots_pos (conf : Option TxPoolConfig) (accounts : Option (List Address))
    (state : Address → AccountState) : 0 < (TxPool.new conf accounts state).config.accountSlots.toNat := by
  cases conf with
  | none => exact (by decide : 0 < TxPoolConfig.default.accountSlots.toNat)
  | some conf =>
    show 0 < (if conf.accountSlots < 1 then TxPoolConfig.default.accountSlots
      else conf.accountSlots).toNat
    split
    · exact (by decide : 0 < TxPoolConfig.default.accountSlots.toNat)
    · rename_i h
      have h := mt UInt64.lt_iff_toNat_lt.2 h
      have hone : (1 : UInt64).toNat = 1 := rfl
      omega

variable [Crypto]

theorem capFirst_lowered {a : Address} {list : TxList} (hlist : p.pending.get? a = some list) :
    ∃ p' log, capFirst a list p = ⟨.ok (), p', log⟩ ∧ capCount log = 1 ∧ Lowered [a] p p' := by
  obtain ⟨priced, pendingNonce, log, hrun, hlog, -⟩ := capFirst_run a list p
  refine ⟨_, _, hrun, ?_, rfl, fun b hb => ?_, fun b hb => ?_, fun b hb => ?_⟩
  · have hnone : log.countP (fun e => e.1.isCap) = 0 := by
      refine List.countP_eq_zero.2 fun e he hcap => ?_
      cases haction : e.1 with
      | cap b => exact hlog e he b haction
      | _ =>
        rw [haction] at hcap
        cases hcap
    show List.countP _ (_ :: log) = 1
    rw [List.countP_cons, hnone]
    rfl
  · rw [List.mem_singleton.1 hb]
    unfold pendingLen
    rw [hlist]
    show ((get? (p.pending.insert a _) a).map TxList.len).getD 0 = list.len - 1
    rw [get?_insert_self]
    show (list.cap (list.len - 1)).2.len = list.len - 1
    rw [TxList.len_cap]
    omega
  · show get? (p.pending.insert a _) b ≠ none
    rw [get?_insert]
    split
    · exact Option.some_ne_none _
    · exact hb
  · exact get?_insert_of_ne _ _ fun heq => hb (List.mem_singleton.2 heq)

/-- **A round**, in each of the two loops. -/
theorem round_run {offenders : List Address} (hnodup : offenders.Nodup)
    (hpresent : ∀ a ∈ offenders, p.pending.get? a ≠ none) (pending : UInt64) :
    ∃ p' log, capEach offenders pending p = ⟨.ok (some (pending - .ofNat offenders.length)), p', log⟩ ∧
      capPresent offenders pending p = ⟨.ok (pending - .ofNat offenders.length), p', log⟩ ∧
      capCount log = offenders.length ∧ Lowered offenders p p' := by
  induction offenders generalizing p pending with
  | nil =>
    refine ⟨p, [], ?_, ?_, rfl, rfl, fun a ha => absurd ha List.not_mem_nil, fun _ h => h, fun _ _ => rfl⟩
    · show (⟨.ok (some pending), p, []⟩ : Run _ _ _ _) = _
      simp
    · show (⟨.ok pending, p, []⟩ : Run _ _ _ _) = _
      simp
  | cons a offenders ih =>
    obtain ⟨ha, hnodup⟩ := List.nodup_cons.1 hnodup
    obtain ⟨hpresent, hrest⟩ := List.forall_mem_cons.1 hpresent
    obtain ⟨list, hlist⟩ := Option.ne_none_iff_exists'.1 hpresent
    obtain ⟨q, log, hrun, hcount, hlow⟩ := capFirst_lowered hlist
    obtain ⟨p', log', hrun₁, hrun₂, hcount', hlow'⟩ := ih hnodup
      (fun b hb => hlow.present b (hrest b hb)) (pending - 1)
    have hsub : pending - 1 - .ofNat offenders.length = pending - .ofNat (a :: offenders).length := by
      rw [List.length_cons, UInt64.ofNat_add]
      grind
    rw [hsub] at hrun₁ hrun₂
    refine ⟨p', log ++ log', ?_, ?_, ?_, hlow'.config.trans hlow.config, fun b hb => ?_,
      fun b hb => hlow'.present b (hlow.present b hb), fun b hb => ?_⟩
    · unfold capEach
      rw [get_bind]
      simp only [hlist]
      exact bind_of_run hrun hrun₁
    · unfold capPresent
      rw [get_bind]
      simp only [hlist]
      exact bind_of_run hrun hrun₂
    · rw [capCount_append, hcount, hcount', List.length_cons, Nat.add_comm]
    · rcases List.mem_cons.1 hb with rfl | hmem
      · have hsame : p'.pendingLen b = q.pendingLen b := by
          unfold pendingLen
          rw [hlow'.others b ha]
        rw [hsame]
        exact hlow.len b (List.mem_singleton.2 rfl)
      · have hne : b ∉ [a] := by
          rw [List.mem_singleton]
          exact fun heq => ha (heq ▸ hmem)
        have hsame : q.pendingLen b = p.pendingLen b := by
          unfold pendingLen
          rw [hlow.others b hne]
        rw [hlow'.len b hmem, hsame]
    · rw [List.mem_cons, not_or] at hb
      rw [hlow'.others b hb.2, hlow.others b (by simpa using hb.1)]

theorem round_levels (hfits : p.pendingTotal < 2 ^ 64) (hjs : js = front ++ rest)
    (hnodup : (js.map Prod.fst).Nodup) (hfront : ∀ e ∈ front, e.2 ≤ t) (hrest : ∀ e ∈ rest, t < e.2)
    (hq : Round js p t q) (hc : Counter js p t pending) (hbusy : Busy js fin p t) :
    Levels js fin p t (capEach (front.map Prod.fst) pending q)
        (fun t' r => t' = t + 1 ∧ ∃ c, r = some c ∧ Counter js p t' c) ∧
      Levels js fin p t (capPresent (front.map Prod.fst) pending q)
        (fun t' c => t' = t + 1 ∧ Counter js p t' c) := by
  subst hjs
  have hnodup' : (front.map Prod.fst).Nodup := by
    rw [List.map_append] at hnodup
    exact hnodup.of_append_left
  obtain ⟨q', log, hrun₁, hrun₂, hcount, hlow⟩ := round_run hnodup' (fun a ha => by
    obtain ⟨e, he, rfl⟩ := List.mem_map.1 ha
    exact hq.present e (List.mem_append_left _ he)) pending
  rw [List.length_map] at hrun₁ hrun₂ hcount
  have hlost := lost_round hfront hrest
  have hstep (s : Nat) (hs : t ≤ s) (hs' : s < t + 1) : Busy (front ++ rest) fin p s := by
    rw [show s = t by omega]
    exact hbusy
  have hq' := hq.next hnodup hfront hrest hlow
  rcases Nat.lt_or_ge p.pendingTotal (lost (front ++ rest) (t + 1)) with hunder | hle
  · refine ⟨⟨t + 1, by omega, hstep, .inr ⟨hunder, ?_⟩⟩, ⟨t + 1, by omega, hstep, .inr ⟨hunder, ?_⟩⟩⟩
    · rw [hrun₁]
      show _ < capCount log + _
      omega
    · rw [hrun₂]
      show _ < capCount log + _
      omega
  · have hc' : Counter (front ++ rest) p (t + 1) (pending - .ofNat front.length) := by
      have h₂ := hc.2
      refine ⟨hle, ?_⟩
      have hlen : (UInt64.ofNat front.length).toNat = front.length :=
        (UInt64.toNat_ofNat').trans (Nat.mod_eq_of_lt (by omega))
      rw [UInt64.toNat_sub_of_le _ _ (UInt64.le_iff_toNat_le.2 (by omega)), hlen]
      omega
    refine ⟨⟨t + 1, by omega, hstep, .inl ⟨_, q', log, hrun₁, ?_, hq', rfl, _, rfl, hc'⟩⟩,
      ⟨t + 1, by omega, hstep, .inl ⟨_, q', log, hrun₂, ?_, hq', rfl, hc'⟩⟩⟩
    · omega
    · omega

/-- **The inner loop**: the rounds until the next account may join. -/
theorem equalize_levels {prev last : Address × Nat} {fuel : Nat} (hfits : p.pendingTotal < 2 ^ 64)
    (hjs : js = front ++ [prev, last] ++ rest) (hnodup : (js.map Prod.fst).Nodup)
    (hfront : ∀ e ∈ front ++ [prev, last], e.2 ≤ t)
    (hrest : ∀ e ∈ rest, passEnd p.pendingLen prev last ≤ e.2)
    (hfin : passEnd p.pendingLen prev last ≤ fin) (hle : t ≤ passEnd p.pendingLen prev last)
    (hfuel : passEnd p.pendingLen prev last < t + fuel) (hq : Round js p t q) (hc : Counter js p t pending) :
    Levels js fin p t (equalize ((front ++ [prev, last]).map Prod.fst) (p.pendingLen last.1) fuel pending q)
      fun t' r => ∃ c, r = some c ∧ Counter js p t' c ∧
        (Over js p t' → t' = passEnd p.pendingLen prev last) := by
  subst hjs
  induction fuel generalizing t q pending with
  | zero => omega
  | succ fuel ih =>
    have hprev := hfront prev (by simp)
    have hlast := hfront last (by simp)
    have hget : (((front ++ [prev, last]).map Prod.fst)[((front ++ [prev, last]).map Prod.fst).length - 2]?) =
        some prev.1 := by
      rw [List.map_append, List.length_append, List.getElem?_append_right (by simp)]
      simp
    have hlen := hq.len prev (by simp)
    unfold equalize
    rw [get_bind, hget]
    -- the guard: the counter is over the limit, and the pass is not at its end
    have hguard : pending > q.config.globalSlots ∧
        ((some prev.1).map q.pendingLen).getD 0 > p.pendingLen last.1 ↔
          Over (front ++ [prev, last] ++ rest) p t ∧ t < passEnd p.pendingLen prev last := by
      refine and_congr (hc.over_iff hq) ?_
      show q.pendingLen prev.1 > _ ↔ _
      rw [hlen]
      unfold passEnd
      omega
    by_cases h : Over (front ++ [prev, last] ++ rest) p t ∧ t < passEnd p.pendingLen prev last
    · rw [if_pos (hguard.2 h)]
      refine Levels.bind (round_levels hfits rfl hnodup hfront (fun e he => h.2.trans_le (hrest e he)) hq
        hc ⟨h.1, fun hle => absurd (h.2.trans_le hfin) (Nat.not_lt_of_le hle)⟩).1 fun t' r q' _ hq' hr => ?_
      obtain ⟨rfl, c, rfl, hc'⟩ := hr
      exact ih (fun e he => (hfront e he).trans (Nat.le_succ t)) h.2 (by omega) hq' hc'
    · rw [if_neg (mt hguard.1 h)]
      exact Levels.of_pure hq ⟨pending, rfl, hc, fun hover =>
        le_antisymm hle (Nat.le_of_not_lt fun hlt => h ⟨hover, hlt⟩)⟩

theorem penalize_of_not_over {accounts offenders : List Address}
    (h : ¬ pending > q.config.globalSlots) :
    penalize accounts offenders pending q = (Pure.pure (some (offenders, pending)) : M _) q := by
  cases accounts with
  | nil => rfl
  | cons a accounts =>
    unfold penalize
    rw [get_bind, if_neg h]

/-- **The loop over the accounts**: either the limit is reached, or all have joined. -/
theorem penalize_levels {prev last : Address × Nat} {accounts : List Address}
    (hfits : p.pendingTotal < 2 ^ 64)
    (hjs : js = front ++ [last] ++ joinsFrom p.pendingLen prev last accounts)
    (hnodup : (js.map Prod.fst).Nodup) (hfront : ∀ e ∈ front ++ [last], e.2 ≤ t)
    (hfin : endFrom p.pendingLen prev last accounts ≤ fin) (ht : t = passEnd p.pendingLen prev last)
    (hq : Round js p t q) (hc : Counter js p t pending) :
    Levels js fin p t (penalize accounts ((front ++ [last]).map Prod.fst) pending q) fun t' r =>
      ∃ s, r = some s ∧ Counter js p t' s.2 ∧
        (Over js p t' → s.1 = js.map Prod.fst ∧ t' = endFrom p.pendingLen prev last accounts) := by
  induction accounts generalizing front prev last t q pending with
  | nil =>
    refine Levels.of_pure hq ⟨_, rfl, hc, fun _ => ⟨?_, ht⟩⟩
    rw [hjs, joinsFrom, List.append_nil]
  | cons a accounts ih =>
    by_cases hover : Over js p t
    · have hsplit : front ++ [last, (a, t)] = front ++ [last] ++ [(a, t)] := by simp
      have hjs' : js = front ++ [last, (a, t)] ++ joinsFrom p.pendingLen last (a, t) accounts := by
        rw [hjs, joinsFrom, ← ht]
        simp
      have hfront' : ∀ e ∈ front ++ [last, (a, t)], e.2 ≤ t := by
        rw [hsplit]
        exact List.forall_mem_append.2 ⟨hfront, List.forall_mem_singleton.2 le_rfl⟩
      have hlen : q.pendingLen a = p.pendingLen a := by
        rw [hq.len (a, t) (by rw [hjs']; simp), Nat.sub_self, Nat.sub_zero]
      have hlast : q.pendingLen last.1 = p.pendingLen last.1 - (t - last.2) :=
        hq.len last (by rw [hjs']; simp)
      have hall : (front ++ [last]).map Prod.fst ++ [a] = (front ++ [last, (a, t)]).map Prod.fst := by
        simp
      have hget : (((front ++ [last, (a, t)]).map Prod.fst)[
          ((front ++ [last, (a, t)]).map Prod.fst).length - 2]?) = some last.1 := by
        rw [List.map_append, List.length_append, List.getElem?_append_right (by simp)]
        simp
      have hend : endFrom p.pendingLen prev last (a :: accounts) =
          endFrom p.pendingLen last (a, t) accounts := by
        rw [endFrom, ← ht]
      unfold penalize
      rw [get_bind, if_pos ((hc.over_iff hq).2 hover), if_neg (by simp), hall, hget, hlen, hend]
      have hnext : t ≤ passEnd p.pendingLen last (a, t) := le_max_left _ _
      have hfuel : passEnd p.pendingLen last (a, t) < t + (q.pendingLen last.1 + 1) := by
        have hle := hfront last (by simp)
        rw [hlast]
        unfold passEnd
        dsimp only
        omega
      refine Levels.bind (equalize_levels hfits hjs' hnodup hfront' (fun e he => passEnd_le_of_mem he)
        (passEnd_le_endFrom.trans (hend ▸ hfin)) hnext hfuel hq hc) fun t' r q' hle hq' hr => ?_
      obtain ⟨c, rfl, hc', hstop⟩ := hr
      by_cases hover' : Over js p t'
      · have ht' := hstop hover'
        dsimp only
        rw [hsplit] at hjs' ⊢
        exact ih hjs' (fun e he => (hfront' e (by rw [hsplit]; exact he)).trans hle) (hend ▸ hfin)
          ht' hq' hc'
      · dsimp only
        rw [penalize_of_not_over (mt (hc'.over_iff hq').1 hover')]
        exact Levels.of_pure hq' ⟨_, rfl, hc', fun h => absurd h hover'⟩
    · rw [penalize_of_not_over (mt (hc.over_iff hq).1 hover)]
      exact Levels.of_pure hq ⟨_, rfl, hc, fun h => absurd h hover⟩

/-- **The last loop**: it ends at the limit, or when the last account has `account_slots`. -/
theorem reduce_levels {last : Address × Nat} {fuel : Nat} (hfits : p.pendingTotal < 2 ^ 64)
    (hjs : js = front ++ [last]) (hnodup : (js.map Prod.fst).Nodup) (hjoined : ∀ e ∈ js, e.2 ≤ t)
    (hfuel : q.pendingLen last.1 < fuel) (hq : Round js p t q) (hc : Counter js p t pending) :
    Levels js fin p t (reduce (js.map Prod.fst) fuel pending q) fun t' _ =>
      Over js p t' → p.pendingLen last.1 ≤ p.config.accountSlots.toNat + (t' - last.2) := by
  induction fuel generalizing t q pending with
  | zero => omega
  | succ fuel ih =>
    have hmem : last ∈ js := by
      rw [hjs]
      simp
    have hlen := hq.len last hmem
    have hsmall : p.pendingLen last.1 < 2 ^ 64 := (weightAt_le_weight _ _ _).trans_lt hfits
    have hlast : (js.map Prod.fst).getLast? = some last.1 := by
      rw [hjs]
      simp
    unfold reduce
    rw [get_bind, hlast]
    have hguard : pending > q.config.globalSlots ∧
        .ofNat (((some last.1).map q.pendingLen).getD 0) > q.config.accountSlots ↔
          Over js p t ∧ p.config.accountSlots.toNat + (t - last.2) < p.pendingLen last.1 := by
      refine and_congr (hc.over_iff hq) ?_
      show UInt64.ofNat (q.pendingLen last.1) > _ ↔ _
      rw [gt_iff_lt, UInt64.lt_iff_toNat_lt, UInt64.toNat_ofNat', Nat.mod_eq_of_lt (by omega), hlen,
        hq.config]
      omega
    by_cases h : Over js p t ∧ p.config.accountSlots.toNat + (t - last.2) < p.pendingLen last.1
    · rw [if_pos (hguard.2 h)]
      refine Levels.bind (round_levels hfits (List.append_nil js).symm hnodup hjoined
        (fun e he => absurd he List.not_mem_nil) hq hc ⟨h.1, fun _ => ⟨last, hmem, h.2⟩⟩).2
          fun t' c q' _ hq' hr => ?_
      obtain ⟨rfl, hc'⟩ := hr
      have hle := hjoined last hmem
      have hlen' := hq'.len last hmem
      exact ih (fun e he => (hjoined e he).trans (Nat.le_succ t)) (by omega) hq' hc'
    · rw [if_neg (mt hguard.1 h)]
      exact Levels.of_pure hq fun hover => Nat.le_of_not_lt fun hlt => h ⟨hover, hlt⟩

/-! ## The whole truncation -/

/-- **What `truncate_pending` does**, unless its counter underflows. -/
theorem truncatePending_levels (env : Env) (hfits : p.pendingTotal < 2 ^ 64) :
    Levels (joined env p) (allJoined p.pendingLen (spammers env p)) p 0 (truncatePending env p)
      fun t _ => joined env p = [] ∨ ∃ e ∈ joined env p,
        Over (joined env p) p t → p.pendingLen e.1 ≤ p.config.accountSlots.toNat + (t - e.2) := by
  have hnodup : ((joined env p).map Prod.fst).Nodup := by
    rw [joined_fst]
    exact spammers_nodup env p
  have hq : Round (joined env p) p 0 p := by
    refine ⟨rfl, fun e _ => by rw [Nat.zero_sub, Nat.sub_zero], fun e he hnone => ?_, fun _ _ => rfl⟩
    have hlen := over_of_mem_joined hfits he
    rw [pendingLen, hnone] at hlen
    exact Nat.not_lt_zero _ hlen
  have hc : Counter (joined env p) p 0 (.ofNat (p.pending.values.map TxList.len).sum) := by
    have hzero := lost_zero (joined env p)
    refine ⟨by omega, ?_⟩
    rw [hzero, UInt64.toNat_ofNat']
    exact Nat.mod_eq_of_lt hfits
  unfold truncatePending
  rw [get_bind]
  by_cases hover : Over (joined env p) p 0
  · rw [if_pos ((hc.over_iff hq).2 hover)]
    cases haccounts : spammers env p with
    | nil =>
      have hempty : joined env p = [] := by
        rw [joined, haccounts]
        rfl
      rw [bind_ok_nil (x := penalize [] [] _) rfl]
      dsimp only
      rw [get_bind, if_neg (by simp)]
      exact Levels.of_pure hq (.inl hempty)
    | cons a accounts =>
      have hjs : joined env p = [] ++ [(a, 0)] ++ joinsFrom p.pendingLen (a, 0) (a, 0) accounts := by
        rw [joined, haccounts]
        rfl
      have hmem : (a, 0) ∈ joined env p := by
        rw [hjs]
        simp
      have hstart : penalize (a :: accounts) [] (.ofNat (p.pending.values.map TxList.len).sum) p =
          penalize accounts (([] ++ [((a, 0) : Address × Nat)]).map Prod.fst)
            (.ofNat (p.pending.values.map TxList.len).sum) p := by
        conv_lhs => unfold penalize
        rw [get_bind, if_pos ((hc.over_iff hq).2 hover)]
        rfl
      have hpenalize := penalize_levels hfits hjs hnodup (by simp) le_rfl (by simp [passEnd]) hq hc
      rw [← hstart] at hpenalize
      refine Levels.bind hpenalize fun t' r q' _ hq' hr => ?_
      obtain ⟨s, rfl, hc', hstop⟩ := hr
      dsimp only
      rw [get_bind]
      by_cases hover' : Over (joined env p) p t'
      · obtain ⟨hall, ht'⟩ := hstop hover'
        obtain ⟨front, last, hlast⟩ : ∃ front last, joined env p = front ++ [last] :=
          ⟨_, _, (List.dropLast_append_getLast (List.ne_nil_of_mem hmem)).symm⟩
        have hget : ((joined env p).map Prod.fst).getLast? = some last.1 := by
          rw [hlast]
          simp
        have hmem' : last ∈ joined env p := by
          rw [hlast]
          simp
        have hjoined (e : Address × Nat) (he : e ∈ joined env p) : e.2 ≤ t' := by
          have h := le_allJoined_of_mem he
          rw [haccounts] at h
          exact h.trans ht'.ge
        have hnonempty : s.1.isEmpty = false := by
          rw [hall, hlast]
          simp
        rw [if_pos ⟨(hc'.over_iff hq').2 hover', hnonempty⟩, hall, hget]
        exact (reduce_levels hfits hlast hnodup hjoined (Nat.lt_succ_self _) hq' hc').mono
          fun u _ hgood => .inr ⟨last, hmem', hgood⟩
      · rw [if_neg fun h => hover' ((hc'.over_iff hq').1 h.1)]
        exact Levels.of_pure hq' (.inr ⟨_, hmem, fun h => absurd h hover'⟩)
  · rw [if_neg (mt (hc.over_iff hq).1 hover)]
    refine Levels.of_pure hq ?_
    cases hjs : joined env p with
    | nil => exact .inl rfl
    | cons e js =>
      rw [hjs] at hover
      exact .inr ⟨e, List.mem_cons_self, fun h => absurd h hover⟩


/-! ## When truncation is fair -/

/-- Truncation ends and its counter does not underflow; the limit is respected, or no remote account has
more than `account_slots` transactions; no local account loses one, and none goes below `account_slots`. -/
structure FairTruncation (env : Env) (p : TxPool) : Prop where
  returns : (truncatePending env p).res = .ok ()
  counts : capCount (truncatePending env p).log ≤ p.pendingTotal
  enough : (truncatePending env p).state.pendingTotal ≤ p.config.globalSlots.toNat ∨
    ∀ a, p.locals.contains a = false →
      (truncatePending env p).state.pendingLen a ≤ p.config.accountSlots.toNat
  locals : ∀ a, p.locals.contains a = true →
    (truncatePending env p).state.pending.get? a = p.pending.get? a
  floor : ∀ a, min p.config.accountSlots.toNat (p.pendingLen a) ≤
    (truncatePending env p).state.pendingLen a

/-- A truncation that stays above the floor and ends at the limit, or with all accounts at the floor. -/
theorem fairTruncation_of_floor {u : Unit} {log : History} (hfits : p.pendingTotal < 2 ^ 64)
    (hrun : truncatePending env p = ⟨.ok u, q, log⟩)
    (hcount : capCount log + lost (joined env p) 0 = lost (joined env p) t)
    (hq : Round (joined env p) p t q) (h : AboveFloor env p t)
    (hend : Over (joined env p) p t →
      ∀ e ∈ joined env p, p.pendingLen e.1 ≤ p.config.accountSlots.toNat + (t - e.2)) :
    FairTruncation env p := by
  have hsame {a : Address} (ha : a ∉ spammers env p) : q.pending.get? a = p.pending.get? a :=
    hq.others a (by rwa [joined_fst])
  have hmem {a : Address} (ha : a ∈ spammers env p) : ∃ e ∈ joined env p, e.1 = a := by
    rw [← joined_fst] at ha
    exact List.mem_map.1 ha
  constructor
  · rw [hrun]
  · have hlost := h.lost_le
    rw [hrun]
    show capCount log ≤ _
    omega
  · rw [hrun]
    by_cases hover : Over (joined env p) p t
    · refine .inr fun a ha => ?_
      by_cases hspam : a ∈ spammers env p
      · obtain ⟨e, he, rfl⟩ := hmem hspam
        have hlen := hq.len e he
        have hle := hend hover e he
        show q.pendingLen e.1 ≤ _
        omega
      · show q.pendingLen a ≤ _
        rw [pendingLen, hsame hspam]
        rw [mem_spammers_iff hfits, not_and, Nat.not_lt] at hspam
        exact hspam ha
    · have htotal := hq.total h
      unfold Over at hover
      refine .inl ?_
      show q.pendingTotal ≤ _
      omega
  · intro a ha
    rw [hrun]
    refine hsame fun hspam => ?_
    rw [not_local_of_mem_spammers hspam] at ha
    cases ha
  · intro a
    rw [hrun]
    show _ ≤ q.pendingLen a
    by_cases hspam : a ∈ spammers env p
    · obtain ⟨e, he, rfl⟩ := hmem hspam
      have hlen := hq.len e he
      have hle := h e he
      omega
    · rw [pendingLen, pendingLen, hsame hspam]
      exact Nat.min_le_right _ _

/-- The condition is necessary. -/
theorem levels_of_fair (hfits : p.pendingTotal < 2 ^ 64) (hslots : 0 < p.config.accountSlots.toNat)
    (hfair : FairTruncation env p) :
    (∀ a ∈ spammers env p, ∀ b ∈ spammers env p, p.pendingLen a = p.pendingLen b) ∨
      ∃ t, p.pendingTotal ≤ p.config.globalSlots.toNat + lost (joined env p) t ∧ AboveFloor env p t := by
  obtain ⟨t, -, -, ⟨u, q, log, hrun, -, hq, -⟩ | ⟨-, hunder⟩⟩ := truncatePending_levels env hfits
  · obtain ⟨-, -, henough, -, hmin⟩ := hfair
    rw [hrun] at henough hmin
    have hfloor : AboveFloor env p t := by
      intro e he
      have hlen := hq.len e he
      have hover := over_of_mem_joined hfits he
      have hle : min p.config.accountSlots.toNat (p.pendingLen e.1) ≤ q.pendingLen e.1 := hmin e.1
      omega
    rcases henough with htotal | hsmall
    · have hsum := hq.total hfloor
      have hle : q.pendingTotal ≤ p.config.globalSlots.toNat := htotal
      exact .inr ⟨t, by omega, hfloor⟩
    · -- all are at `account_slots`, which only accounts of one length reach together
      have hlevel : ∀ a ∈ spammers env p, p.pendingLen a = p.config.accountSlots.toNat + t := by
        refine equal_of_level fun e he => ?_
        have hle : q.pendingLen e.1 ≤ p.config.accountSlots.toNat :=
          hsmall e.1 (not_local_of_mem_spammers (fst_mem_spammers he))
        have hlen := hq.len e he
        have hge := hfloor e he
        omega
      exact .inl fun a ha b hb => (hlevel a ha).trans (hlevel b hb).symm
  · have hcounts := hfair.counts
    have hzero := lost_zero (joined env p)
    omega

/-- Accounts of one length all join at once, and the rounds of the last loop keep them together. -/
theorem fair_of_equal (hfits : p.pendingTotal < 2 ^ 64)
    (hequal : ∀ a ∈ spammers env p, ∀ b ∈ spammers env p, p.pendingLen a = p.pendingLen b) :
    FairTruncation env p := by
  obtain ⟨t, -, hbusy, hend⟩ := truncatePending_levels env hfits
  have hstart (e : Address × Nat) (he : e ∈ joined env p) :
      e.2 = 0 ∧ allJoined p.pendingLen (spammers env p) = 0 := by
    have h := joins_of_equal fun a ha => hequal a ha e.1 (fst_mem_spammers he)
    exact ⟨h.1 e he, h.2⟩
  have hsame {e e' : Address × Nat} (he : e ∈ joined env p) (he' : e' ∈ joined env p) :
      p.pendingLen e.1 = p.pendingLen e'.1 := hequal e.1 (fst_mem_spammers he) e'.1 (fst_mem_spammers he')
  have hfloor : AboveFloor env p t := by
    intro e he
    obtain ⟨hjoin, hall⟩ := hstart e he
    have hover := over_of_mem_joined hfits he
    cases t with
    | zero => omega
    | succ s =>
      obtain ⟨e', he', hlt⟩ := (hbusy s (Nat.zero_le s) (Nat.lt_succ_self s)).2 (by omega)
      have hjoin' := (hstart e' he').1
      have hlen := hsame he he'
      omega
  rcases hend with ⟨u, q, log, hrun, hcount, hq, hgood⟩ | ⟨hunder, -⟩
  · refine fairTruncation_of_floor hfits hrun hcount hq hfloor fun hover e he => ?_
    rcases hgood with hempty | ⟨e', he', hgood⟩
    · rw [hempty] at he
      cases he
    · have hstop := hgood hover
      have hjoin := (hstart e he).1
      have hjoin' := (hstart e' he').1
      have hlen := hsame he he'
      omega
  · exact absurd hfloor.lost_le (Nat.not_le_of_lt hunder)

/-- If some number of rounds is enough and keeps all above the floor, so does the one that is made. -/
theorem fair_of_rounds {τ : Nat} (hfits : p.pendingTotal < 2 ^ 64)
    (henough : p.pendingTotal ≤ p.config.globalSlots.toNat + lost (joined env p) τ)
    (hfloor : AboveFloor env p τ) : FairTruncation env p := by
  obtain ⟨t, -, hbusy, hend⟩ := truncatePending_levels env hfits
  have hle : t ≤ τ := by
    refine Nat.le_of_not_lt fun hlt => ?_
    have hover := (hbusy τ (Nat.zero_le τ) hlt).1
    unfold Over at hover
    omega
  have hfloor' : AboveFloor env p t := fun e he => by
    have h := hfloor e he
    omega
  rcases hend with ⟨u, q, log, hrun, hcount, hq, hgood⟩ | ⟨hunder, -⟩
  · refine fairTruncation_of_floor hfits hrun hcount hq hfloor' fun hover => ?_
    rcases hgood with hempty | ⟨e, he, hgood⟩
    · rw [hempty]
      exact fun e he => absurd he List.not_mem_nil
    · -- the last loop would have gone on
      exfalso
      have hstop := hgood hover
      have h := hfloor e he
      have hover' := over_of_mem_joined hfits he
      have heq : t = τ := by omega
      unfold Over at hover
      rw [heq] at hover
      omega
  · exact absurd hfloor'.lost_le (Nat.not_le_of_lt hunder)

/-- **When pending truncation is fair and sufficient**: the accounts over `account_slots` have equally many
transactions; or there is a number of rounds after which the pool is in its limit and no account is below
`account_slots`. No call changes the configuration (`config_of_run`), so this is about every pool that
`repack` truncates. -/
theorem truncatePending_fair_iff (conf : Option TxPoolConfig) (accounts : Option (List Address))
    (state : Address → AccountState) (env : Env) (p : TxPool)
    (hp : p.config = (TxPool.new conf accounts state).config) (hfits : p.pendingTotal < 2 ^ 64) :
    FairTruncation env p ↔
      (∀ a ∈ spammers env p, ∀ b ∈ spammers env p, p.pendingLen a = p.pendingLen b) ∨
      ∃ t, p.pendingTotal ≤ p.config.globalSlots.toNat + lost (joined env p) t ∧
        ∀ e ∈ joined env p, p.config.accountSlots.toNat + (t - e.2) ≤ p.pendingLen e.1 := by
  have hslots : 0 < p.config.accountSlots.toNat := by
    rw [hp]
    exact accountSlots_pos conf accounts state
  refine ⟨levels_of_fair hfits hslots, fun h => ?_⟩
  rcases h with hequal | ⟨t, henough, hfloor⟩
  · exact fair_of_equal hfits hequal
  · exact fair_of_rounds hfits henough hfloor

end Rounds

open Sample

/-- A pool for one pending transaction, one for each account, and many queued ones. -/
def narrowPool : TxPool := TxPool.new (some ⟨10, 1, 1, 100, 100⟩) none rich

def equalPool : TxPool :=
  (run [(env, .addRemotes [pay 1 9 1 1 10, pay 1 9 2 1 10, pay 1 9 3 1 10,
    pay 2 8 1 1 10, pay 2 8 2 1 10, pay 2 8 3 1 10, pay 3 7 1 1 10,
    pay 3 7 2 1 10])] narrowPool).state

theorem truncatePending_fair_iff_equal :
    equalPool.pendingTotal = 5 ∧ FairTruncation env equalPool := by
  refine ⟨by decide +kernel, ?_⟩
  refine (truncatePending_fair_iff (some ⟨10, 1, 1, 100, 100⟩) none rich env equalPool
    (by unfold equalPool narrowPool; exact config_of_run _ _ _ _) (by decide +kernel)).2 (.inl ?_)
  have hlens : (spammers env equalPool).map equalPool.pendingLen = [2, 2] := by decide +kernel
  have htwo (a : Address) (ha : a ∈ spammers env equalPool) : equalPool.pendingLen a = 2 := by
    have hmem := List.mem_map_of_mem (f := equalPool.pendingLen) ha
    rw [hlens] at hmem
    simpa using hmem
  exact fun a ha b hb => (htwo a ha).trans (htwo b hb).symm

def unequalPool : TxPool :=
  (run [(env, .addRemotes [pay 1 9 1 1 10, pay 1 9 2 1 10, pay 1 9 3 1 10,
    pay 1 9 4 1 10, pay 1 9 5 1 10, pay 2 8 1 1 10, pay 2 8 2 1 10,
    pay 2 8 3 1 10, pay 2 8 4 1 10, pay 3 7 1 1 10, pay 3 7 2 1 10])]
    narrowPool).state

/-- The first account keeps two transactions, in a pool with four of them where one is the limit. -/
theorem truncatePending_keeps_four :
    unequalPool.config.globalSlots.toNat < unequalPool.pendingTotal ∧
      (truncatePending env unequalPool).state.pendingTotal = 4 ∧
      (truncatePending env unequalPool).state.pendingLen (address 1) = 2 ∧
      ¬ FairTruncation env unequalPool := by
  have htotal : (truncatePending env unequalPool).state.pendingTotal = 4 := by decide +kernel
  have hlen : (truncatePending env unequalPool).state.pendingLen (address 1) = 2 := by decide +kernel
  refine ⟨by decide +kernel, htotal, hlen, fun h => ?_⟩
  rcases h.enough with hlimit | hslots
  · rw [htotal] at hlimit
    exact absurd hlimit (by decide +kernel)
  · have hone := hslots (address 1) (by decide +kernel)
    rw [hlen] at hone
    exact absurd hone (by decide +kernel)

end TxPool

end Uchain
