import Uchain.TxPool.Proof.Steps

/-!
# Invariants of the pool, loop by loop

An invariant of the history and the pool that the small methods keep is kept by the loops around them:
the batch, the passes of promotion, the two truncations. `RunRule J` lists what `J` has to be kept by;
a run then keeps it (`RunRule.run`).
-/

namespace Uchain.TxPool

open Lib Exec

variable {J : History → TxPool → Prop} {env : Env} {p : TxPool}

/-! ## The order of a hash map -/

theorem mem_iter {β : Type} {m : BTreeMap Address β} {e : Address × β} (he : e ∈ env.iter p m) :
    m.get? e.1 = some e.2 := by
  obtain ⟨a, -, ha⟩ := List.mem_filterMap.1 he
  obtain ⟨b, hb, rfl⟩ := Option.map_eq_some_iff.1 ha
  exact hb

theorem mem_iter_of_get? {β : Type} {m : BTreeMap Address β} {a : Address} {b : β} (h : m.get? a = some b) :
    (a, b) ∈ env.iter p m := by
  refine List.mem_filterMap.2 ⟨a, ((env.keyOrder p).perm m.keys).mem_iff.2 ?_, by rw [h]; rfl⟩
  exact BTreeMap.mem_keys_iff.2 (by rw [h]; rfl)

theorem nodup_iter {β : Type} (m : BTreeMap Address β) : ((env.iter p m).map Prod.fst).Nodup := by
  have hsub : ∀ l : List Address,
      ((l.filterMap fun a => (m.get? a).map (a, ·)).map Prod.fst).Sublist l := by
    intro l
    induction l with
    | nil => exact .slnil
    | cons a l ih =>
      cases hget : m.get? a with
      | none => simpa [List.filterMap_cons, hget] using ih.cons a
      | some b => simpa [List.filterMap_cons, hget] using ih
  exact (((env.keyOrder p).perm m.keys).nodup_iff.2 m.nodup_keys).sublist (hsub _)

/-! ## Small methods -/

theorem maintains_ensure (c : Prop) [Decidable c] (e : TxPoolError) : Maintains J (ensure c e) :=
  leads_ite (maintains_pure ()) (maintains_fail _)

section Noncer

variable (hnoncer : ∀ log p pendingNonce, J log p → J log { p with pendingNonce })

include hnoncer

theorem maintains_resetNonces (entries : List (Address × TxList)) (nonces : BTreeMap Address UInt64) :
    Maintains J (resetNonces entries nonces) := by
  induction entries generalizing nonces with
  | nil => exact maintains_pure _
  | cons e entries ih =>
    exact maintains_bind (leads_modify fun log p h => hnoncer log p _ h) fun _ => ih _

theorem maintains_forwardEvents (accounts : List Address) (events : BTreeMap Address TxSortedList) :
    Maintains J (forwardEvents accounts events) := by
  induction accounts generalizing events with
  | nil => exact maintains_pure _
  | cons a accounts ih =>
    exact leads_get_bind fun _ =>
      maintains_bind (leads_modify fun log p h => hnoncer log p _ h) fun _ => ih _

end Noncer

variable [Crypto]

/-! ## Batches -/

theorem maintains_addTxsLocked {asLocal : Bool} {txs : List SignedTransaction}
    (hadd : ∀ tx ∈ txs, Maintains J (add env tx asLocal)) (i : Nat) (dirty : AccountSet)
    (errors : List String) : Maintains J (addTxsLocked env asLocal txs i dirty errors) := by
  induction txs generalizing i dirty errors with
  | nil => exact maintains_pure _
  | cons tx txs ih =>
    obtain ⟨htx, htxs⟩ := List.forall_mem_cons.1 hadd
    refine maintains_bind (maintains_attempt htx) fun r => ?_
    cases r with
    | ok replaced => exact ih htxs _ _ _
    | error e => exact leads_ite (ih htxs _ _ _) (maintains_fail _)

/-! ## Promotion -/

theorem maintains_promoteExecutable {accounts : List Address}
    (hpromote : ∀ a, Maintains J (promoteAccount env a)) (hcap : ∀ a, Maintains J (capAccount a)) :
    Maintains J (promoteExecutable env accounts) := by
  have haccounts : Maintains J (promoteAccounts env accounts) := by
    induction accounts with
    | nil => exact maintains_pure _
    | cons a accounts ih =>
      exact maintains_bind (hpromote a) fun _ => maintains_bind ih fun _ => maintains_pure _
  exact maintains_bind haccounts fun _ =>
    maintains_bind (maintains_forEach hcap _) fun _ => maintains_pure _

/-! ## Truncation -/

section Caps

-- a cap is about the list that the account has
variable {S : Set Address} {offenders : List Address} (hcap : ∀ a ∈ S, ∀ list log p, J log p →
  p.pending.get? a = some list → J (log ++ (capFirst a list p).log) (capFirst a list p).state)

include hcap

theorem maintains_capEach (ho : ∀ a ∈ offenders, a ∈ S) (pending : UInt64) :
    Maintains J (capEach offenders pending) := by
  induction offenders generalizing pending with
  | nil => exact maintains_pure _
  | cons a offenders ih =>
    obtain ⟨ha, ho⟩ := List.forall_mem_cons.1 ho
    intro log p h
    rw [capEach, get_bind]
    cases hlist : p.pending.get? a with
    | none => exact maintains_pure _ log p h
    | some list => exact bind_maintained (hcap a ha list log p h hlist) fun _ => ih ho _

theorem maintains_capPresent (ho : ∀ a ∈ offenders, a ∈ S) (pending : UInt64) :
    Maintains J (capPresent offenders pending) := by
  induction offenders generalizing pending with
  | nil => exact maintains_pure _
  | cons a offenders ih =>
    obtain ⟨ha, ho⟩ := List.forall_mem_cons.1 ho
    intro log p h
    rw [capPresent, get_bind]
    cases hlist : p.pending.get? a with
    | none => exact ih ho _ log p h
    | some list => exact bind_maintained (hcap a ha list log p h hlist) fun _ => ih ho _

theorem maintains_equalize (ho : ∀ a ∈ offenders, a ∈ S) (threshold fuel : Nat) (pending : UInt64) :
    Maintains J (equalize offenders threshold fuel pending) := by
  induction fuel generalizing pending with
  | zero => exact maintains_fail _
  | succ fuel ih =>
    refine leads_get_bind fun p => leads_ite ?_ (maintains_pure _)
    refine maintains_bind (maintains_capEach hcap ho _) fun r => ?_
    cases r with
    | none => exact maintains_pure _
    | some pending => exact ih _

theorem maintains_penalize {spammers : List Address} (hs : ∀ a ∈ spammers, a ∈ S)
    (ho : ∀ a ∈ offenders, a ∈ S) (pending : UInt64) :
    Maintains J (penalize spammers offenders pending) := by
  induction spammers generalizing offenders pending with
  | nil => exact maintains_pure _
  | cons offender spammers ih =>
    obtain ⟨ha, hs⟩ := List.forall_mem_cons.1 hs
    have ho' := List.forall_mem_append.2 ⟨ho, List.forall_mem_singleton.2 ha⟩
    refine leads_get_bind fun p => leads_ite ?_ (maintains_pure _)
    refine leads_ite (ih hs (List.forall_mem_singleton.2 ha) _)
      (maintains_bind (maintains_equalize hcap ho' _ _ _) fun r => ?_)
    cases r with
    | none => exact maintains_pure _
    | some pending => exact ih hs ho' _

omit hcap in
/-- The offenders are spammers. -/
theorem yields_penalize {spammers : List Address} (hs : ∀ a ∈ spammers, a ∈ S)
    (ho : ∀ a ∈ offenders, a ∈ S) (pending : UInt64) :
    Yields (fun r => ∀ s, r = some s → ∀ a ∈ s.1, a ∈ S) (penalize spammers offenders pending) := by
  induction spammers generalizing offenders pending with
  | nil => exact yields_pure fun s hr => Option.some.inj hr ▸ ho
  | cons offender spammers ih =>
    obtain ⟨ha, hs⟩ := List.forall_mem_cons.1 hs
    refine yields_bind (P := fun _ => True) (fun _ _ _ => trivial) fun p _ => ?_
    refine yields_ite (yields_ite (ih hs (List.forall_mem_singleton.2 ha) _) ?_)
      (yields_pure fun s hr => Option.some.inj hr ▸ ho)
    refine yields_bind (P := fun _ => True) (fun _ _ _ => trivial) fun r _ => ?_
    cases r with
    | none => exact yields_pure fun s hr => by cases hr
    | some pending =>
      exact ih hs (List.forall_mem_append.2 ⟨ho, List.forall_mem_singleton.2 ha⟩) _

theorem maintains_reduce (ho : ∀ a ∈ offenders, a ∈ S) (fuel : Nat) (pending : UInt64) :
    Maintains J (reduce offenders fuel pending) := by
  induction fuel generalizing pending with
  | zero => exact maintains_fail _
  | succ fuel ih =>
    refine leads_get_bind fun p => leads_ite ?_ (maintains_pure _)
    exact maintains_bind (maintains_capPresent hcap ho _) fun _ => ih _

theorem truncatePending_maintained (hs : ∀ a ∈ spammers env p, a ∈ S) {log : History} (h : J log p) :
    J (log ++ (truncatePending env p).log) (truncatePending env p).state := by
  have hnil : ∀ a ∈ ([] : List Address), a ∈ S := by simp
  unfold truncatePending
  rw [get_bind]
  refine leads_ite (maintains_bind_yields (maintains_penalize hcap hs hnil _)
    (yields_penalize hs hnil _) fun r hr => ?_) (maintains_pure _) log p h
  cases r with
  | none => exact maintains_pure _
  | some r =>
    exact leads_get_bind fun p => leads_ite (maintains_reduce hcap (hr r rfl) _ _) (maintains_pure _)

end Caps

omit [Crypto] in
theorem not_local_of_mem_spammers {a : Address} (h : a ∈ spammers env p) : p.locals.contains a = false := by
  have hmem := (List.perm_insertionSort _ _).mem_iff.1 h
  obtain ⟨e, he, rfl⟩ := List.mem_map.1 hmem
  simpa using (Bool.and_eq_true_iff.1 (List.mem_filter.1 he).2).1

omit [Crypto] in
theorem quiet_byHeartbeat (accounts : List Address) (addresses : List (Address × Nat)) :
    Quiet (byHeartbeat p accounts addresses) := by
  induction accounts generalizing addresses with
  | nil => exact quiet_pure _
  | cons a accounts ih =>
    exact quiet_ite (ih _) (quiet_bind (quiet_orPanic _) fun _ => ih _)

/-! ## The blocks of a new head -/

omit [Crypto] in
theorem quiet_getBlock (hash : H256) (level : UInt32) : Quiet (getBlock env hash level) := by
  unfold getBlock
  cases env.getBlock hash level with
  | ok block => exact quiet_pure _
  | error e => exact quiet_fail _

omit [Crypto] in
theorem quiet_lowerRem (add : Block) (fuel : Nat) (rem : Block) (l : List SignedTransaction) :
    Quiet (lowerRem env add fuel rem l) := by
  induction fuel generalizing rem l with
  | zero => exact quiet_fail _
  | succ fuel ih =>
    refine quiet_ite (quiet_bind (quiet_getBlock _ _) fun block => ?_) (quiet_pure _)
    cases block with
    | none => exact quiet_pure _
    | some block => exact ih _ _

theorem quiet_meet (fuel : Nat) (rem add : Block) (l l' : List SignedTransaction) :
    Quiet (meet env fuel rem add l l') := by
  induction fuel generalizing rem add l l' with
  | zero => exact quiet_fail _
  | succ fuel ih =>
    refine quiet_ite (quiet_bind (quiet_getBlock _ _) fun block => ?_) (quiet_pure _)
    cases block with
    | none => exact quiet_pure _
    | some block =>
      refine quiet_bind (quiet_getBlock _ _) fun block' => ?_
      cases block' with
      | none => exact quiet_pure _
      | some block' => exact ih _ _ _ _

theorem quiet_branches (rem add : Block) : Quiet (branches env rem add) := by
  refine quiet_bind (quiet_lowerRem _ _ _ _) fun lowered => ?_
  cases lowered with
  | none => exact quiet_pure _
  | some lowered =>
    refine quiet_bind (quiet_lowerRem _ _ _ _) fun raised => ?_
    cases raised with
    | none => exact quiet_pure _
    | some raised =>
      refine quiet_bind (quiet_meet _ _ _ _ _) fun sets => ?_
      cases sets with
      | none => exact quiet_pure _
      | some sets => exact quiet_pure _

theorem quiet_orphans (oldHead : Option BlockHeader) (newHead : BlockHeader) :
    Quiet (orphans env oldHead newHead) := by
  cases oldHead with
  | none => exact quiet_pure _
  | some oldHead =>
    refine quiet_ite (quiet_ite (quiet_pure _) ?_) (quiet_pure _)
    refine quiet_bind (quiet_getBlock _ _) fun rem => quiet_bind (quiet_getBlock _ _) fun add => ?_
    cases add with
    | none => exact quiet_fail _
    | some add =>
      cases rem with
      | none => exact quiet_pure _
      | some rem => exact quiet_branches _ _

/-! ## Runs -/

/-- The answer of `nonce`. -/
def nextNonce (p : TxPool) (a : Address) : UInt64 := max (p.currentState a).nonce (p.pendingNonce.nonce a)

omit [Crypto] in
theorem nonce_run (a : Address) (p : TxPool) :
    nonce a p = ⟨.ok (p.nextNonce a),
      { p with pendingNonce := p.pendingNonce.set a (p.nextNonce a) }, []⟩ := by
  have hstart (n : UInt64) (hn : n = (if p.pendingNonce.nonce a > (p.currentState a).nonce then
      p.pendingNonce.nonce a else (p.currentState a).nonce)) : nonce a p =
      (if p.pendingNonce.nonce a < n then do
        Exec.modify fun p => { p with pendingNonce := p.pendingNonce.set a n }
        Pure.pure n
      else Pure.pure n : M UInt64)
        { p with pendingNonce := p.pendingNonce.set a (p.pendingNonce.nonce a) } := by
    rw [hn]
    rfl
  by_cases hlow : (p.currentState a).nonce < p.pendingNonce.nonce a
  · rw [hstart _ (if_pos hlow).symm, if_neg (lt_irrefl _), nextNonce, max_eq_right hlow.le]
    rfl
  · rw [hstart _ (if_neg hlow).symm, nextNonce, max_eq_left (not_lt.1 hlow)]
    by_cases hlt : p.pendingNonce.nonce a < (p.currentState a).nonce
    · have hset (w : UInt64) : p.pendingNonce.set a w =
          (p.pendingNonce.set a (p.pendingNonce.nonce a)).set a w := by
        unfold TxNoncer.set
        rw [BTreeMap.insert_insert]
      rw [if_pos hlt, hset (p.currentState a).nonce]
      rfl
    · rw [if_neg hlt, le_antisymm (not_lt.1 hlt) (not_lt.1 hlow)]
      rfl

/-- What an invariant has to be kept by. -/
structure RunRule (J : History → TxPool → Prop) : Prop where
  /-- Bookkeeping around the lists. -/
  books : ∀ log p pendingNonce changesSinceRepack queuedEvents, J log p →
    J log { p with pendingNonce, changesSinceRepack, queuedEvents }
  state : ∀ log p currentState live, J log p → J log { p with currentState, live }
  reinject : ∀ txs, Maintains J (note (.reinject txs))
  send : ∀ txs, Maintains J (note (.send txs))
  moved : ∀ accounts, Maintains J (note (.moved accounts))
  add : ∀ env tx asLocal, Maintains J (add env tx asLocal)
  promote : ∀ env a, Maintains J (promoteAccount env a)
  cap : ∀ a, Maintains J (capAccount a)
  demote : ∀ env, Maintains J (demoteUnexecutable env)
  truncatePending : ∀ env, Maintains J (truncatePending env)
  truncateQueue : ∀ env, Maintains J (truncateQueue env)

theorem maintains_finish (hpending : Maintains J (truncatePending env))
    (hqueue : Maintains J (truncateQueue env))
    (hcount : ∀ log p, J log p → J log { p with changesSinceRepack := 0 })
    (hsend : ∀ txs, Maintains J (note (.send txs))) (events : BTreeMap Address TxSortedList) :
    Maintains J (finish env events) := by
  refine maintains_bind hpending fun _ => maintains_bind hqueue fun _ => ?_
  refine maintains_bind (leads_modify hcount) fun _ => leads_ite ?_ (maintains_pure _)
  refine leads_get_bind fun p => ?_
  unfold send
  cases env.channel with
  | none => exact hsend _
  | some e => exact maintains_fail _

namespace RunRule

variable (hJ : RunRule J)

include hJ

theorem finish (events : BTreeMap Address TxSortedList) : Maintains J (finish env events) :=
  maintains_finish (hJ.truncatePending env) (hJ.truncateQueue env)
    (fun log p h => hJ.books log p _ _ _ h) hJ.send events

theorem promoteExecutable (accounts : List Address) : Maintains J (promoteExecutable env accounts) :=
  maintains_promoteExecutable (hJ.promote env) hJ.cap

theorem reset (oldHead : Option BlockHeader) (newHead : BlockHeader) :
    Maintains J (reset env oldHead newHead) := by
  refine maintains_bind (Quiet.maintains fun q => quiet_orphans _ _ q) fun r => ?_
  cases r with
  | none => exact maintains_pure _
  | some reinject =>
    refine maintains_bind (Quiet.maintains fun q => ?_) fun state => ?_
    · unfold getStateAt
      cases env.getStateAt newHead.stateRoot <;> exact ⟨rfl, rfl⟩
    · refine maintains_bind (leads_modify fun log p h => ?_) fun _ => ?_
      · exact hJ.state log _ state false (hJ.books log p (.new state) _ _ h)
      · refine maintains_bind (hJ.reinject _) fun _ => ?_
        exact maintains_bind (maintains_addTxsLocked (fun tx _ => hJ.add env tx false) _ _ _) fun _ =>
          maintains_pure _

theorem repack (dirtyAccounts : AccountSet) (request : Option ResetRequest) :
    Maintains J (repack env dirtyAccounts request) := by
  have hnoncer (log : History) (p : TxPool) (pendingNonce : TxNoncer) (h : J log p) :
      J log { p with pendingNonce } := hJ.books log p _ _ _ h
  refine leads_get_bind fun p => maintains_bind ?_ fun start => ?_
  · cases request with
    | none => exact maintains_pure _
    | some request =>
      refine maintains_bind (hJ.reset _ _) fun _ => leads_get_bind fun p => ?_
      exact maintains_bind (maintains_forwardEvents hnoncer _ _) fun _ =>
        leads_get_bind fun _ => maintains_pure _
  · refine maintains_bind (hJ.promoteExecutable _) fun promoted => leads_ite ?_ (hJ.finish _)
    refine maintains_bind (maintains_bind (hJ.demote env) fun _ => ?_) fun _ => hJ.finish _
    exact leads_get_bind fun _ => maintains_resetNonces hnoncer _ _

theorem addTxs (txs : List SignedTransaction) (asLocal : Bool) : Maintains J (addTxs env txs asLocal) := by
  refine leads_get_bind fun p => maintains_bind (maintains_ensure _ _) fun _ => ?_
  refine maintains_bind (maintains_addTxsLocked (fun tx _ => hJ.add env tx asLocal) _ _ _) fun _ => ?_
  refine maintains_bind (hJ.repack _ _) fun _ => ?_
  exact maintains_bind (leads_modify fun log p h => hJ.books log p _ _ _ h) fun _ =>
    maintains_ensure _ _

theorem exec (call : Call) : Maintains J (exec env call) := by
  cases call with
  | addLocals txs => exact hJ.addTxs txs true
  | addRemotes txs => exact hJ.addTxs txs false
  | repack dirtyAccounts request => exact hJ.repack dirtyAccounts request
  | nonce address =>
    refine maintains_bind (fun log p h => ?_) fun _ => maintains_pure _
    rw [nonce_run, List.append_nil]
    exact hJ.books log p _ _ _ h
  | moved accounts =>
    refine leads_get_bind fun p => leads_ite ?_ (maintains_pure _)
    refine maintains_bind (hJ.moved accounts) fun _ => leads_modify fun log p h => ?_
    exact hJ.state log _ accounts _ (hJ.books log p { p.pendingNonce with fallback := accounts } _ _ h)

/-- **A run keeps what the methods keep.** -/
theorem run (calls : List (Env × Call)) : Maintains J (run calls) := by
  refine maintains_forEach (fun c => ?_) calls
  exact maintains_bind (maintains_attempt (hJ.exec c.2)) fun _ => maintains_pure _

end RunRule

end Uchain.TxPool
