import TinyRollup.Sequencer.Failed

/-!
# A batch that fails

The executor keeps what it applies in its cache and writes to the tree once, at the end.  So a batch
that fails has written nothing, or its one insertion has failed.  The optimistic worker passes the
error on and stops, and everything else that it would write comes after the executor:
`failed_batch_untouched`.
-/

set_option autoImplicit false

namespace TinyRollup

open ByteString Stf

/-! ## The tree -/

section

variable {T : Type} {m : Monotree T} {c : Crypto}

/-- The tree answers for every key at this root. -/
def Monotree.Readable (m : Monotree T) (tree : T) (root : Option Hash) : Prop :=
  ∀ key, ∃ leaf, m.get tree root key = .ok leaf

/-- An insertion that returns no root leaves the readable roots as they are. -/
def Monotree.KeepsRoots (m : Monotree T) : Prop :=
  ∀ tree tree' root ks vs result, m.inserts tree root ks vs = (result, tree') →
    (∀ r, result ≠ .ok (some r)) →
      ∀ root', m.Readable tree root' → ∀ key, m.get tree' root' key = m.get tree root' key

theorem MemTree.keepsRoots (c : Crypto) : (MemTree.monotree c).KeepsRoots := by
  intro tree tree' root ks vs result hinserts _ root' hreadable key
  have htree : tree' = (inserts c tree root ks vs).2 := (congrArg Prod.snd hinserts).symm
  cases root' with
  | none => rfl
  | some r =>
    obtain ⟨leaf, hleaf⟩ := hreadable key
    simp only [monotree] at hleaf ⊢
    cases hfind : find tree (some r) with
    | error e =>
      rw [hfind] at hleaf
      exact absurd hleaf (by simp)
    | ok es =>
      have hr : r ≠ Hash.default := by
        rintro rfl
        exact absurd hfind (by simp [find, Run.panic])
      have hes : entriesAt (inserts c tree root ks vs).2 r = some es :=
        entriesAt_inserts c (entriesAt_of_find hfind)
      rw [htree, find_of_entriesAt hr hes]

/-- A commit fails only if its insertion returns no root. -/
theorem commitBlock_failed {order : IterOrder} {ex : BlockExecutor T} {e : Halt CoreError}
    {tree' : T} (h : ex.commitBlock m c order = (.error e, tree')) :
    ∃ ks vs result, m.inserts ex.tree ex.root ks vs = (result, tree') ∧
      ∀ r, result ≠ .ok (some r) := by
  rw [BlockExecutor.commitBlock] at h
  split at h
  · exact absurd (Prod.mk.inj h).1 (by simp)
  · obtain ⟨hresult, htree⟩ := Prod.mk.inj h
    refine ⟨_, _, _, Prod.ext rfl htree, fun r hr ↦ ?_⟩
    have hok : Run.mapErr (fun e ↦ CoreError.databaseError ("commit_block inserts err: " ++ e)) _
        = .ok (some r) := Run.mapErr_eq_ok.mpr hr
    rw [hok] at hresult
    exact absurd hresult (by simp [Run.okOr])

/-- **A batch that fails leaves the tree readable** under every root that was there. -/
theorem applyOptimisticBatch_failed {read : Reader T} (hkeep : m.KeepsRoots) {order : IterOrder}
    {tree tree' : T} {root : Option Hash} {txs : List Transaction} {deposits : List Deposit}
    {forcedTxs : List ForcedTx} {e : Halt CoreError}
    (h : applyOptimisticBatch read m c order tree root txs deposits forcedTxs = (.error e, tree'))
    {root' : Option Hash} (hreadable : m.Readable tree root') (key : Hash) :
    m.get tree' root' key = m.get tree root' key := by
  have hgrows := BlockExecutor.grows_applyOps read (BlockExecutor.new tree root)
    (blockOps txs deposits forcedTxs)
  rw [applyOptimisticBatch_eq] at h
  split at h
  · -- An operation failed, and the tree was only read.
    rename_i heq
    rw [heq] at hgrows
    rw [← (Prod.mk.inj h).2]
    exact congrArg (fun t ↦ m.get t root' key) hgrows.tree
  · rename_i ex heq
    rw [heq] at hgrows
    have htree : ex.tree = tree := hgrows.tree
    obtain ⟨ks, vs, result, hinserts, hresult⟩ := commitBlock_failed h
    rw [htree] at hinserts
    exact hkeep _ _ _ _ _ _ hinserts hresult root' hreadable key

end

/-! ## The process -/

/-- The worker has not called the executor yet. -/
inductive OptimisticWorker.BeforeExecute : OptimisticWorker → Prop
  | fetching (d : Fetch Deposit) (f : Fetch ForcedTx) : BeforeExecute (.fetching d f)
  | copied (batch : BlockContents) : BeforeExecute (.copied batch)
  | rootRead (batch : BlockContents) (preRoot : Hash) : BeforeExecute (.rootRead batch preRoot)

namespace Node

section

variable {T : Type} {env : Deployment} {m : Monotree T} {bincode : Bincode} {l1Enabled : Bool}
  {e : NodeEvent} {n n' k k' : Node T} {quiet : Prop}

/-- Of what a batch writes, the second state has what the first one has, but for the transactions
submitted since then and the blocks that the prover worker has removed, none if it was `quiet`. -/
structure Untouched (m : Monotree T) (quiet : Prop) (n n' : Node T) : Prop where
  leaves : ∀ root, m.Readable n.disk.tree root → ∀ key,
    m.get n'.disk.tree root key = m.get n.disk.tree root key
  headroot : n'.disk.headroot = n.disk.headroot
  optimistic : n'.heads.optimistic = n.heads.optimistic
  blockCounter : n'.blockCounter = n.blockCounter
  mempool : ∃ new, n'.submitted = n.submitted ++ new ∧ n'.mempool = n.mempool ++ new
  pending : ∃ removed : List UInt64, (quiet → removed = []) ∧
    n'.disk.pending = removed.foldl (fun q number ↦ q.erase number.toNat) n.disk.pending
  storedCounter : n'.disk.blockCounter = n.disk.blockCounter

theorem Untouched.refl (n : Node T) : Untouched m quiet n n where
  leaves _ _ _ := rfl
  headroot := rfl
  optimistic := rfl
  blockCounter := rfl
  mempool := ⟨[], (List.append_nil _).symm, (List.append_nil _).symm⟩
  pending := ⟨[], fun _ ↦ rfl, rfl⟩
  storedCounter := rfl

theorem Untouched.setWorker (h : Untouched m quiet n k) (w : OptimisticWorker) :
    Untouched m quiet n { k with worker := w } :=
  ⟨h.leaves, h.headroot, h.optimistic, h.blockCounter, h.mempool, h.pending, h.storedCounter⟩

theorem ProverStep.disk (h : n.ProverStep env l1Enabled e n') :
    n'.disk.tree = n.disk.tree ∧ (n'.disk.pending = n.disk.pending ∨
      e = .removePending ∧
        ∃ number : UInt64, n'.disk.pending = n.disk.pending.erase number.toNat) := by
  have hretry : ∀ (k : Node T) (block : PendingBlock) (retries : ℕ),
      (k.countRetry block retries).disk = k.disk := by
    intro k block retries
    rcases k.countRetry_eq block retries with heq | heq <;> rw [heq]
  cases h with
  | proveFails _ _ | receiptReverted _ _ | attemptFails _ =>
    rw [hretry]
    exact ⟨rfl, Or.inl rfl⟩
  | removePending _ => exact ⟨rfl, Or.inr ⟨rfl, _, rfl⟩⟩
  | _ => exact ⟨rfl, Or.inl rfl⟩

/-- What the others do meanwhile. -/
theorem Untouched.others (h : Untouched m quiet n k) (hsame : SameWorker k k')
    (htree : k'.disk.tree = k.disk.tree)
    (hpending : k'.disk.pending = k.disk.pending ∨
      (¬ quiet ∧ ∃ number : UInt64, k'.disk.pending = k.disk.pending.erase number.toNat)) :
    Untouched m quiet n k' where
  leaves root hreadable key := by rw [htree, h.leaves root hreadable key]
  headroot := hsame.headroot.trans h.headroot
  optimistic := hsame.optimistic.trans h.optimistic
  blockCounter := hsame.blockCounter.trans h.blockCounter
  mempool := by
    rw [hsame.submitted, hsame.mempool]
    exact h.mempool
  pending := by
    obtain ⟨removed, hquiet, hremoved⟩ := h.pending
    rcases hpending with heq | ⟨hbusy, number, heq⟩
    · exact ⟨removed, hquiet, heq.trans hremoved⟩
    · refine ⟨removed ++ [number], fun hq ↦ absurd hq hbusy, ?_⟩
      rw [heq, hremoved, List.foldl_append]
      rfl
  storedCounter := hsame.storedCounter.trans h.storedCounter

/-- **One step** that is no restart, and does no more to the worker than move it on. -/
theorem Untouched.taken (h : Untouched m quiet n k)
    (hstep : k.Taken env m bincode l1Enabled e k') (hrestart : e ≠ .restart)
    (hquiet : quiet → e ≠ .removePending)
    (hworker : k.WorkerStep env m bincode e k' → ∃ w, k' = { k with worker := w }) :
    Untouched m quiet n k' := by
  cases hstep with
  | submitTx tx =>
    refine { h with mempool := ?_ }
    obtain ⟨new, hsubmitted, hmempool⟩ := h.mempool
    refine ⟨new ++ [tx], ?_, ?_⟩
    · rw [hsubmitted, List.append_assoc]
    · rw [hmempool, List.append_assoc]
  | worker hstep =>
    obtain ⟨w, rfl⟩ := hworker hstep
    exact h.setWorker w
  | prover hstep =>
    obtain ⟨htree, hpending⟩ := hstep.disk
    refine h.others hstep.sameWorker htree (hpending.imp_right fun ⟨he, hnumber⟩ ↦ ⟨?_, hnumber⟩)
    exact fun hq ↦ hquiet hq he
  | l1 hstep =>
    refine h.others hstep.sameWorker ?_ (Or.inl ?_)
    · cases hstep <;> rfl
    · cases hstep <;> rfl
  | restart => exact absurd rfl hrestart

/-- Only a tick brings the worker before the executor, and on its way there it writes nothing. -/
theorem WorkerStep.beforeExecute (h : n.WorkerStep env m bincode e n') (htick : e ≠ .tick)
    (hbefore : n'.worker.BeforeExecute) :
    n.worker.BeforeExecute ∧ ∃ w, n' = { n with worker := w } := by
  cases h with
  | tick _ => exact absurd rfl htick
  | fetches hw | copyTxs hw | readHead hw =>
    rw [hw]
    exact ⟨by constructor, _, rfl⟩
  | _ => cases hbefore

theorem WorkerStep.not_dead (h : n.WorkerStep env m bincode e n') : n.worker ≠ .dead := by
  intro hdead
  cases h with
  | fails _ _ hbefore =>
    rw [hdead] at hbefore
    cases hbefore
  | tick hw | fetches hw | nothingNew hw | copyTxs hw | readHead hw | execute hw _
  | setHeadroot hw | countBlock hw | moveHead hw | drain hw _ | drainPanics hw _ | commitBlock hw
  | commitFails hw => exact absurd (hdead.symm.trans hw) (by simp)

/-- Events between a tick and the next one or a restart. -/
def WithinTick (quiet : Prop) (_ : Node T) (e : NodeEvent) : Prop :=
  e ≠ .tick ∧ e ≠ .restart ∧ (quiet → e ≠ .removePending)

/-- Up to the executor the worker has written nothing. -/
theorem Reaches.untouched
    (h : Reaches env m bincode l1Enabled (WithinTick quiet) k k')
    (hk : Untouched m quiet n k) (hbefore : k'.worker.BeforeExecute) :
    Untouched m quiet n k' := by
  refine h.invariant (I := fun j ↦ j.worker.BeforeExecute → Untouched m quiet n j)
    (fun _ ↦ hk) ?_ hbefore
  rintro j j' e hj ⟨htick, hrestart, hquiet⟩ hstep hbefore'
  have hback : j.worker.BeforeExecute := by
    cases hstep with
    | submitTx _ => exact hbefore'
    | worker hstep => exact (hstep.beforeExecute htick hbefore').1
    | prover hstep => exact hstep.sameWorker.worker ▸ hbefore'
    | l1 hstep => exact hstep.sameWorker.worker ▸ hbefore'
    | restart => exact absurd rfl hrestart
  exact (hj hback).taken hstep hrestart hquiet fun hworker ↦
    (hworker.beforeExecute htick hbefore').2

/-- A worker that has stopped writes nothing any more. -/
theorem Reaches.untouched_of_dead
    (h : Reaches env m bincode l1Enabled (WithinTick quiet) k k') (hdead : k.worker = .dead)
    (hk : Untouched m quiet n k) : Untouched m quiet n k' := by
  refine (h.invariant (I := fun j ↦ j.worker = .dead ∧ Untouched m quiet n j)
    ⟨hdead, hk⟩ ?_).2
  rintro j j' e ⟨hj, huntouched⟩ ⟨-, hrestart, hquiet⟩ hstep
  have hstill : j'.worker = .dead := by
    cases hstep with
    | submitTx _ => exact hj
    | worker hstep => exact absurd hj hstep.not_dead
    | prover hstep => exact hstep.sameWorker.worker.trans hj
    | l1 hstep => exact hstep.sameWorker.worker.trans hj
    | restart => exact absurd rfl hrestart
  exact ⟨hstill, huntouched.taken hstep hrestart hquiet fun hworker ↦ absurd hj hworker.not_dead⟩

/-- The executor fails. -/
theorem execute_failed (hkeep : m.KeepsRoots) {order : IterOrder} {batch : BlockContents}
    {preRoot : Hash} {err : CoreError} {tree : T} (hk : Untouched m quiet n k)
    (hworker : k.worker = .rootRead batch preRoot)
    (hfails : applyOptimisticBatch (Core.getAccount m bincode) m env.crypto order k.disk.tree
      (some preRoot) batch.txs batch.deposits batch.forcedTxs = (.error (.err err), tree))
    (hexecute : k.execute env m bincode order = some k') :
    k'.worker = .dead ∧ Untouched m quiet n k' := by
  rw [execute, hworker] at hexecute
  simp only [hfails] at hexecute
  split at hexecute
  · obtain rfl := Option.some_inj.mp hexecute
    exact ⟨rfl, hk.setWorker _⟩
  · obtain rfl := Option.some_inj.mp hexecute
    refine ⟨rfl, { hk.setWorker .dead with leaves := fun root hreadable key ↦ ?_ }⟩
    have hreadable' : m.Readable k.disk.tree root := fun key ↦ by
      rw [hk.leaves root hreadable key]
      exact hreadable key
    exact (applyOptimisticBatch_failed hkeep hfails hreadable' key).trans
      (hk.leaves root hreadable key)

/-- **A batch that fails changes nothing.**  From any state: when the worker wakes up and what it
collects makes the executor fail, the state has changed by what the others did meanwhile alone.  So
it stays until the process is started again. -/
theorem failed_batch_untouched {events late : List NodeEvent} {order : IterOrder}
    {batch : BlockContents} {preRoot : Hash} {err : CoreError} {tree : T} (hkeep : m.KeepsRoots)
    (htick : n.run env m bincode l1Enabled (.tick :: events) = some k)
    (hworker : k.worker = .rootRead batch preRoot)
    (hfails : applyOptimisticBatch (Core.getAccount m bincode) m env.crypto order k.disk.tree
      (some preRoot) batch.txs batch.deposits batch.forcedTxs = (.error (.err err), tree))
    (hexecute : k.run env m bincode l1Enabled (.execute order :: late) = some n')
    (hwithin : ∀ e ∈ events ++ late, e ≠ .tick ∧ e ≠ .restart) :
    Untouched m (.removePending ∉ events ++ late) n n' ∧
      ∀ root, m.Readable n.disk.tree root → ∀ key,
        Core.getAccount m bincode n'.disk.tree root key
          = Core.getAccount m bincode n.disk.tree root key := by
  have hok : ∀ e ∈ events ++ late, ∀ j : Node T,
      WithinTick (.removePending ∉ events ++ late) j e := by
    intro e he j
    refine ⟨(hwithin e he).1, (hwithin e he).2, ?_⟩
    rintro hquiet rfl
    exact hquiet he
  obtain ⟨n₁, hfirst, hevents⟩ := Option.bind_eq_some_iff.mp htick
  obtain ⟨n₂, hsecond, hlate⟩ := Option.bind_eq_some_iff.mp hexecute
  have hwoken : Untouched m (.removePending ∉ events ++ late) n n₁ := by
    rw [step, tick] at hfirst
    split at hfirst
    · split at hfirst
      · exact Option.some_inj.mp hfirst ▸ (Untouched.refl n).setWorker _
      · exact Option.some_inj.mp hfirst ▸ (Untouched.refl n).setWorker _
    · exact absurd hfirst (by simp)
  have hbefore : Untouched m (.removePending ∉ events ++ late) n k :=
    (reaches_of_run (fun e he ↦ hok e (List.mem_append_left _ he)) hevents).untouched hwoken
      (hworker ▸ .rootRead batch preRoot)
  obtain ⟨hdead, hafter⟩ := execute_failed hkeep hbefore hworker hfails hsecond
  have hend : Untouched m (.removePending ∉ events ++ late) n n' :=
    (reaches_of_run (fun e he ↦ hok e (List.mem_append_right _ he)) hlate).untouched_of_dead hdead
      hafter
  refine ⟨hend, fun root hreadable key ↦ ?_⟩
  rw [Core.getAccount, hend.leaves root hreadable key, Core.getAccount]

end

end Node

/-! ## A deposit to an account that is there

A block is pending.  The worker fetches a deposit of somebody new and one of Alice, whose account
the executor cannot read. -/

namespace SecondDeposit

open ByteString (zeros FixedBytes)
open Requests (env m start)

def aliceAddress : FixedBytes 20 := ⟨List.replicate 19 0 ++ [1], by simp⟩

def depositAlice : NodeEvent :=
  .callL1 (.deposit { sender := aliceAddress, value := 5, timestamp := 8 })

/-- The first of two deposits goes through the executor, and the batch fails. -/
def failsLater (n : Node MemTree) : Bool :=
  match n.worker with
  | .rootRead batch preRoot =>
    decide (batch.deposits.length = 2 ∧ ((BlockExecutor.new n.disk.tree (some preRoot)).applyOps
        (Core.getAccount m .v1) ((batch.deposits.take 1).map Op.deposit)).1 = .ok ()) &&
      match applyOptimisticBatch (Core.getAccount m .v1) m env.crypto .cached n.disk.tree
          (some preRoot) batch.txs batch.deposits batch.forcedTxs with
      | (.error (.err _), _) => true
      | _ => false
  | _ => false

theorem of_failsLater {n : Node MemTree} (h : failsLater n = true) : ∃ batch preRoot err tree,
    n.worker = .rootRead batch preRoot ∧ batch.deposits.length = 2 ∧
      ((BlockExecutor.new n.disk.tree (some preRoot)).applyOps (Core.getAccount m .v1)
        ((batch.deposits.take 1).map Op.deposit)).1 = .ok () ∧
      applyOptimisticBatch (Core.getAccount m .v1) m env.crypto .cached n.disk.tree
        (some preRoot) batch.txs batch.deposits batch.forcedTxs = (.error (.err err), tree) := by
  rw [failsLater] at h
  split at h
  · rename_i batch preRoot hworker
    rw [Bool.and_eq_true, decide_eq_true_eq] at h
    obtain ⟨⟨hlength, hfirst⟩, h⟩ := h
    split at h
    · rename_i err tree hfails
      exact ⟨batch, preRoot, err, tree, hworker, hlength, hfirst, hfails⟩
    · exact absurd h (by simp)
  · exact absurd h (by simp)

/-- What the worker does up to the executor, and a request meanwhile. -/
def fetchBoth : List NodeEvent :=
  LostBlock.fetch.tail ++ [.readHead, .submitTx (Requests.tx 0)]

theorem run_both : ∃ n k n' : Node MemTree,
    start.run env m .v1 true (ThreeBlocks.force :: ThreeBlocks.makeBlock
      ++ [LostBlock.deposit, depositAlice]) = some n ∧
      n.run env m .v1 true (.tick :: fetchBoth) = some k ∧ failsLater k = true ∧
      k.run env m .v1 true [.execute .cached, .submitTx (Requests.tx 1)] = some n' ∧
      n.blockCounter = 1 := by
  have hany : (start.run env m .v1 true (ThreeBlocks.force :: ThreeBlocks.makeBlock
      ++ [LostBlock.deposit, depositAlice])).any (fun n ↦
        (n.run env m .v1 true (.tick :: fetchBoth)).any fun k ↦
          failsLater k &&
            (k.run env m .v1 true [.execute .cached, .submitTx (Requests.tx 1)]).any fun _ ↦
              decide (n.blockCounter = 1)) = true := by
    decide +kernel
  obtain ⟨n, hn, hany⟩ := (Option.any_eq_true _ _).mp hany
  obtain ⟨k, hk, hany⟩ := (Option.any_eq_true _ _).mp hany
  rw [Bool.and_eq_true] at hany
  obtain ⟨n', hn', hview⟩ := (Option.any_eq_true _ _).mp hany.2
  exact ⟨n, k, n', hn, hk, hany.1, hn', of_decide_eq_true hview⟩

end SecondDeposit

open SecondDeposit Requests in
theorem failed_batch_untouched_secondDeposit : ∃ (n k n' : Node MemTree) (batch : BlockContents)
    (preRoot : Hash), k.worker = .rootRead batch preRoot ∧ batch.deposits.length = 2 ∧
    ((BlockExecutor.new k.disk.tree (some preRoot)).applyOps (Core.getAccount m .v1)
      ((batch.deposits.take 1).map Op.deposit)).1 = .ok () ∧
    n.blockCounter = 1 ∧ n'.blockCounter = 1 ∧ n'.disk.headroot = n.disk.headroot ∧
    n'.disk.pending = n.disk.pending ∧
    ∃ new, n'.submitted = n.submitted ++ new ∧ n'.mempool = n.mempool ++ new := by
  obtain ⟨n, k, n', -, htick, hfail, hexecute, hcounter⟩ := run_both
  obtain ⟨batch, preRoot, err, tree, hworker, hlength, hfirst, hfails⟩ := of_failsLater hfail
  obtain ⟨h, -⟩ := Node.failed_batch_untouched (MemTree.keepsRoots _) htick hworker hfails hexecute
    (by simp [fetchBoth, LostBlock.fetch])
  obtain ⟨removed, hquiet, hpending⟩ := h.pending
  have hremoved : removed = [] := hquiet (by simp [fetchBoth, LostBlock.fetch])
  rw [hremoved] at hpending
  exact ⟨n, k, n', batch, preRoot, hworker, hlength, hfirst, hcounter,
    h.blockCounter.trans hcounter, h.headroot, hpending, h.mempool⟩

end TinyRollup
