import Uchain.TxPool.Proof.Moves

/-!
# Invariants across a move to a new head

`reset` replaces the state of the accounts and forgets the nonces; only the demotion after it brings the
pending lists in line again. `ResetRule Ready J K` lists what an invariant `J` has to be kept by if there
is only `K txs []` on the way, where `txs` are the transactions that are submitted again. On the way no
error is returned, so that `J` holds after every call that returns (`ResetRule.run`).
-/

namespace Uchain.TxPool

open Lib Exec

variable [Crypto] {log : History} {p : TxPool} {env : Env} {request : ResetRequest}

theorem noErr_addTxsLocked (asLocal : Bool) (txs : List SignedTransaction) (i : Nat)
    (dirty : AccountSet) (errors : List String) :
    NoErr (addTxsLocked env asLocal txs i dirty errors) := by
  induction txs generalizing i dirty errors with
  | nil => exact noErr_pure _
  | cons tx txs ih =>
    refine noErr_bind (noErr_attempt _) fun r => ?_
    cases r with
    | ok replaced => exact ih _ _ _
    | error e => exact noErr_ite (ih _ _ _) noErr_panic

omit [Crypto] in
theorem noErr_forwardEvents (accounts : List Address) (events : BTreeMap Address TxSortedList) :
    NoErr (forwardEvents accounts events) := by
  induction accounts generalizing events with
  | nil => exact noErr_pure _
  | cons a accounts ih =>
    exact noErr_bind noErr_get fun _ => noErr_bind (noErr_modify _) fun _ => ih _

omit [Crypto] in
theorem noErr_resetNonces (entries : List (Address × TxList)) (nonces : BTreeMap Address UInt64) :
    NoErr (resetNonces entries nonces) := by
  induction entries generalizing nonces with
  | nil => exact noErr_pure _
  | cons e entries ih => exact noErr_bind (noErr_modify _) fun _ => ih _

/-- The pool at a new head, with the nonces forgotten. -/
def atHead (p : TxPool) (state : Address → AccountState) : TxPool :=
  { p with currentState := state, live := false, pendingNonce := .new state }

structure ResetRule (Ready : Env → ResetRequest → TxPool → Prop) (J : History → TxPool → Prop)
    (K : List SignedTransaction → List SignedTransaction → History → TxPool → Prop) : Prop where
  /-- `reset` can return without a move. -/
  start : ∀ {env request log p}, Ready env request p →
    (orphans env request.oldHead request.newHead p).res = .ok none → J log p → K [] [] log p
  head : ∀ {env request log p txs state}, Ready env request p →
    (orphans env request.oldHead request.newHead p).res = .ok (some txs) →
    env.getStateAt request.newHead.stateRoot = .ok state → J log p →
      K txs [] (log ++ [(.reinject txs, p.atHead state)]) (p.atHead state)
  shelf : ∀ txs, QueueShelf (K txs)
  readd : ∀ {env txs tx}, tx ∈ txs → Maintains (K txs []) (add env tx false)
  demote : ∀ {env txs}, Leads (K txs []) J (demote env)
  add : ∀ env tx asLocal, Maintains J (add env tx asLocal)
  promote : ∀ env a, Maintains J (promoteAccount env a)
  cap : ∀ a, Maintains J (capAccount a)
  finish : ∀ env events, Maintains J (finish env events)
  events : ∀ {log p} queuedEvents, J log p → J log { p with queuedEvents }
  nonce : ∀ {log p} a, J log p →
    J log { p with pendingNonce := p.pendingNonce.set a (p.nextNonce a) }
  moved : ∀ {log p} accounts, J log p → J (log ++ [(.moved accounts, p)]) { p with
    currentState := accounts, pendingNonce := { p.pendingNonce with fallback := accounts } }

namespace ResetRule

variable {Ready : Env → ResetRequest → TxPool → Prop} {J : History → TxPool → Prop}
  {K : List SignedTransaction → List SignedTransaction → History → TxPool → Prop}
  (hJ : ResetRule Ready J K)

/-- Nothing happened but an error, or the move is on its way. -/
def Begun (K : List SignedTransaction → List SignedTransaction → History → TxPool → Prop)
    {α : Type} (x : M α) (log : History) (p : TxPool) : Prop :=
  (∃ e, x p = ⟨.error e, p, []⟩) ∨ ∃ txs, Proceeds (K txs []) x log p

omit [Crypto] in
theorem begun_bind {α β : Type} {x : M α} {f : α → M β} (hx : Begun K x log p)
    (hf : ∀ a txs log p, K txs [] log p → Proceeds (K txs []) (f a) log p) :
    Begun K (x >>= f) log p := by
  rcases hx with ⟨e, hrun⟩ | ⟨txs, hx⟩
  · exact .inl ⟨e, bind_error hrun⟩
  · exact .inr ⟨txs, proceeds_bind hx fun a log' p' h => hf a txs log' p' h⟩

include hJ

theorem reset (hready : Ready env request p) (h : J log p) :
    Begun K (reset env request.oldHead request.newHead) log p := by
  have hquiet : Quiet (orphans env request.oldHead request.newHead) := quiet_orphans _ _
  obtain ⟨hs, hl⟩ := hquiet p
  unfold TxPool.reset Begun
  rcases hrun : orphans env request.oldHead request.newHead p with ⟨e | r, q, l⟩ <;>
    rw [hrun] at hs hl <;> obtain ⟨rfl, rfl⟩ : q = p ∧ l = [] := ⟨hs, hl⟩
  · exact .inl ⟨e, bind_error hrun⟩
  · cases r with
    | none =>
      exact .inr ⟨[], proceeds_bind_nil hrun ((serves_pure _).proceeds (hJ.start hready (by rw [hrun]) h))⟩
    | some txs =>
      unfold getStateAt
      cases hstate : env.getStateAt request.newHead.stateRoot with
      | error e => exact .inl ⟨.err (.other e), bind_of_run hrun rfl⟩
      | ok state =>
        have hhead := hJ.head hready (by rw [hrun]) hstate h
        have hbatch : Maintains (K txs []) (addTxsLocked env false txs 0 .empty []) :=
          maintains_addTxsLocked (fun tx htx => hJ.readd htx) _ _ _
        refine .inr ⟨txs, proceeds_bind_nil hrun (proceeds_bind_nil rfl ?_)⟩
        refine proceeds_bind_nil (x := Exec.modify _) rfl (proceeds_bind_run (x := note _) rfl ?_)
        refine proceeds_bind ((noErr_addTxsLocked _ _ _ _ _).proceeds hbatch ?_) fun _ _ _ h =>
          (serves_pure _).proceeds h
        exact hhead

theorem resetFor (hready : Ready env request p) (h : J log p) (events : BTreeMap Address TxSortedList) :
    Begun K (resetFor env request events) log p := by
  refine begun_bind (hJ.reset hready h) fun _ txs log p h => proceeds_bind_nil rfl ?_
  have hevents := maintains_forwardEvents (J := K txs []) (fun _ p _ h =>
    (hJ.shelf txs).books p.priced _ (fun _ ht => ht) h) ((env.iter p events).map Prod.fst) events
  refine proceeds_bind ((noErr_forwardEvents _ _).proceeds hevents h) fun _ _ _ h => ?_
  exact proceeds_bind_nil rfl ((serves_pure _).proceeds h)

theorem repackDirty (dirty : AccountSet) : Maintains J (repack env dirty none) := by
  refine leads_get_bind fun _ => maintains_bind (maintains_pure _) fun _ => ?_
  exact maintains_bind (maintains_promoteExecutable (hJ.promote env) hJ.cap) fun _ => hJ.finish _ _

theorem repack (dirty : AccountSet) {request : Option ResetRequest}
    (hready : ∀ r, request = some r → Ready env r p) (h : J log p) :
    Settles J (repack env dirty request) log p := by
  cases request with
  | none => exact fun _ => hJ.repackDirty dirty log p h
  | some request =>
    have hrepack : TxPool.repack env dirty (some request) p =
        (TxPool.resetFor env request p.queuedEvents >>= fun start =>
          promoteExecutable env start.2 >>= fun promoted => TxPool.demote env >>= fun _ =>
            TxPool.finish env (promoted.foldl putEvent start.1)) p := rfl
    unfold Settles Returns
    rw [hrepack]
    rcases hJ.resetFor (hready request rfl) h p.queuedEvents with ⟨e, hrun⟩ | ⟨txs, hbegun⟩
    · intro _
      rw [bind_error hrun, List.append_nil]
      exact h
    · refine hbegun.settles_bind fun start log p h => ?_
      refine (((hJ.shelf txs).promoteExecutable _).proceeds h).settles_bind fun promoted log p h => ?_
      refine Proceeds.settles_bind ⟨?_, hJ.demote log p h⟩ fun _ log p h _ => hJ.finish _ _ log p h
      obtain ⟨_, _, _, hrun, -⟩ := tidy_shelf.demoteUnexecutable [] p ((hJ.shelf txs).tidy h)
      unfold TxPool.demote
      rw [bind_ok hrun]
      exact noErr_resetNonces _ _ _

theorem addTxs (txs : List SignedTransaction) (asLocal : Bool) : Maintains J (addTxs env txs asLocal) := by
  refine leads_get_bind fun p => maintains_bind (maintains_ensure _ _) fun _ => ?_
  refine maintains_bind (maintains_addTxsLocked (fun tx _ => hJ.add env tx asLocal) _ _ _) fun _ => ?_
  refine maintains_bind (hJ.repackDirty _) fun _ => ?_
  exact maintains_bind (leads_modify fun log p h => hJ.events _ h) fun _ => maintains_ensure _ _

theorem exec {call : Call} (hready : ∀ dirty r, call = .repack dirty (some r) → Ready env r p)
    (h : J log p) : Settles J (exec env call) log p := by
  cases call with
  | addLocals txs => exact fun _ => hJ.addTxs txs true log p h
  | addRemotes txs => exact fun _ => hJ.addTxs txs false log p h
  | repack dirty request => exact hJ.repack dirty (fun r hr => hready dirty r (by rw [hr])) h
  | nonce address =>
    refine Proceeds.settles_bind (J := J) ?_ fun _ log p h _ => maintains_pure _ log p h
    unfold Proceeds
    rw [nonce_run, List.append_nil]
    exact ⟨nofun, hJ.nonce address h⟩
  | moved accounts =>
    intro _
    refine leads_get_bind (fun p => leads_ite (fun log p h => ?_) (maintains_pure _)) log p h
    exact hJ.moved accounts h

end ResetRule

/-- Every reset of the calls starts from a pool that is ready for it. -/
def ReadyAll (Ready : Env → ResetRequest → TxPool → Prop) : List (Env × Call) → TxPool → Prop
  | [], _ => True
  | c :: calls, p => (∀ dirty r, c.2 = .repack dirty (some r) → Ready c.1 r p) ∧
    ReadyAll Ready calls (exec c.1 c.2 p).state

theorem readyAll_of_forall {Ready : Env → ResetRequest → TxPool → Prop} (h : ∀ env r p, Ready env r p) :
    ∀ (calls : List (Env × Call)) (p : TxPool), ReadyAll Ready calls p
  | [], _ => trivial
  | _ :: calls, _ => ⟨fun _ _ _ => h _ _ _, readyAll_of_forall h calls _⟩

/-- **After calls that return, there is what each of them keeps.** -/
theorem ResetRule.run {Ready : Env → ResetRequest → TxPool → Prop} {J : History → TxPool → Prop}
    {K : List SignedTransaction → List SignedTransaction → History → TxPool → Prop}
    (hJ : ResetRule Ready J K) {calls : List (Env × Call)} (hready : ReadyAll Ready calls p) (h : J log p)
    (hok : (run calls p).res = .ok ()) : J (log ++ (run calls p).log) (run calls p).state := by
  induction calls generalizing log p with
  | nil =>
    show J (log ++ []) p
    rwa [List.append_nil]
  | cons c calls ih =>
    have hret : Returns (forEach (fun c => do let _ ← attempt (TxPool.exec c.1 c.2) : _ → M Unit) (c :: calls))
        p := by
      show returned (TxPool.run (c :: calls) p).res = true
      rw [hok]
      rfl
    have hcall : Returns (TxPool.exec c.1 c.2) p := returns_attempt.1 (Returns.of_bind (Returns.of_bind hret))
    obtain ⟨r, hr⟩ := (noErr_attempt (TxPool.exec c.1 c.2)).ok_of_returns (returns_attempt.2 hcall)
    have hrun : TxPool.run (c :: calls) p = _ := bind_ok (bind_of_run hr rfl)
    rw [attempt_run, List.append_nil] at hrun
    rw [hrun] at hok ⊢
    rw [← List.append_assoc]
    exact ih hready.2 (hJ.exec hready.1 h hcall) hok

end Uchain.TxPool
