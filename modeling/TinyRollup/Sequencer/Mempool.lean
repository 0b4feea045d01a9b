import TinyRollup.Sequencer.NodeSteps

/-!
# The mempool

The optimistic worker copies the mempool under one lock and removes as many transactions under
another, a whole batch later.  Requests only append in between, so what was copied is still at the
front (`Copied`).  From this it follows that every accepted transaction is in a block or in the
mempool, once and in the order it came (`mempool_accounted`).
-/

set_option autoImplicit false

namespace TinyRollup

namespace OptimisticWorker

/-- The transactions that were copied and are still in the mempool. -/
def copied? : OptimisticWorker → Option (List Transaction)
  | .copied batch | .rootRead batch _ | .executed batch _ _ | .headrootSet batch _ _ =>
    some batch.txs
  | .numbered block | .headMoved block => some block.txs
  | .sleeping | .fetching _ _ | .drained _ | .dead => none

/-- The transactions that have left the mempool and are in no block yet. -/
def inFlight : OptimisticWorker → List Transaction
  | .drained block => block.txs
  | _ => []

end OptimisticWorker

namespace Node

variable {T : Type} {env : Deployment} {m : Monotree T} {bincode : Bincode} {l1Enabled : Bool}
  {e : NodeEvent} {n n' : Node T}

/-- What was copied is a prefix of the mempool. -/
def Copied (n : Node T) : Prop := ∀ txs, n.worker.copied? = some txs → txs <+: n.mempool

theorem Copied.of_same (h : n.Copied) (hsame : SameWorker n n') : n'.Copied := by
  intro txs htxs
  rw [hsame.worker] at htxs
  rw [hsame.mempool]
  exact h txs htxs

/-- Copying the mempool gives all of it, and until it is drained only requests change it. -/
theorem Copied.taken (h : n.Copied) (hstep : n.Taken env m bincode l1Enabled e n') : n'.Copied := by
  cases hstep with
  | submitTx tx => exact fun txs htxs ↦ (h txs htxs).trans (List.prefix_append _ _)
  | worker hstep =>
    cases hstep with
    | copyTxs _ =>
      intro txs htxs
      obtain rfl := Option.some_inj.mp htxs
      exact List.prefix_refl _
    | readHead hw | execute hw _ | setHeadroot hw | countBlock hw | moveHead hw =>
      intro txs htxs
      refine h txs ?_
      rw [hw]
      exact htxs
    | tick | fetches | nothingNew | drain | drainPanics | commitBlock | commitFails | fails =>
      intro txs htxs
      exact absurd htxs (by simp [OptimisticWorker.copied?])
  | prover hstep => exact h.of_same hstep.sameWorker
  | l1 hstep => exact h.of_same hstep.sameWorker
  | restart =>
    intro txs htxs
    exact absurd htxs (by simp [restart, OptimisticWorker.copied?])

/-- The worker never drains more than there is. -/
theorem Copied.drain_le (h : n.Copied) {block : PendingBlock} (hw : n.worker = .headMoved block) :
    block.txs.length ≤ n.mempool.length :=
  (h block.txs (by rw [hw]; rfl)).length_le

/-- The accepted transactions are those of the blocks committed since then, those in flight, and
those of the mempool, in this order, unless the worker is gone. -/
def Accounted (old : List PendingBlock) (n : Node T) : Prop :=
  ∃ new, n.committed = old ++ new ∧ (n.worker ≠ .dead →
    n.submitted = new.flatMap PendingBlock.txs ++ (n.worker.inFlight ++ n.mempool))

theorem Accounted.of_same {old : List PendingBlock} (h : n.Accounted old)
    (hsame : SameWorker n n') : n'.Accounted old := by
  obtain ⟨new, hnew, htxs⟩ := h
  refine ⟨new, hsame.committed.trans hnew, fun halive ↦ ?_⟩
  rw [hsame.worker] at halive ⊢
  rw [hsame.submitted, hsame.mempool]
  exact htxs halive

theorem Accounted.taken {old : List PendingBlock} (h : n.Accounted old) (hcopied : n.Copied)
    (hstep : n.Taken env m bincode l1Enabled e n') (he : e ≠ .restart) : n'.Accounted old := by
  obtain ⟨new, hnew, htxs⟩ := h
  cases hstep with
  | submitTx tx =>
    refine ⟨new, hnew, fun halive ↦ ?_⟩
    simp only [htxs halive, List.append_assoc]
  | worker hstep =>
    cases hstep with
    | tick hw | fetches hw | nothingNew hw | copyTxs hw | readHead hw | execute hw _
    | setHeadroot hw | countBlock hw | moveHead hw =>
      refine ⟨new, hnew, fun _ ↦ ?_⟩
      rw [hw] at htxs
      exact htxs (by simp)
    | @drain block hw hlength =>
      refine ⟨new, hnew, fun _ ↦ ?_⟩
      have hprefix := hcopied block.txs (by rw [hw]; rfl)
      rw [hw] at htxs
      have htake := List.prefix_iff_eq_append.mp hprefix
      show n.submitted = _ ++ (block.txs ++ n.mempool.drop block.txs.length)
      rw [htake]
      exact htxs (by simp)
    | @commitBlock block hw =>
      refine ⟨new ++ [block], by rw [hnew, List.append_assoc], fun _ ↦ ?_⟩
      rw [hw] at htxs
      rw [List.flatMap_append, List.flatMap_singleton, List.append_assoc]
      exact htxs (by simp)
    | drainPanics | commitFails | fails => exact ⟨new, hnew, fun halive ↦ absurd rfl halive⟩
  | prover hstep => exact Accounted.of_same ⟨new, hnew, htxs⟩ hstep.sameWorker
  | l1 hstep => exact Accounted.of_same ⟨new, hnew, htxs⟩ hstep.sameWorker
  | restart => exact absurd rfl he

/-- **No transaction is lost, duplicated or reordered.**  After a start, until the process stops:
whenever the optimistic worker sleeps, the transactions accepted since are those of the blocks
committed since, in order, followed by the mempool.  And it never drains more than the mempool
holds. -/
theorem mempool_accounted {start n : Node T}
    (hrun : Reaches env m bincode l1Enabled (fun _ e ↦ e ≠ .restart) start.restart n) :
    (∃ new, n.committed = start.committed ++ new ∧ (n.worker = .sleeping →
        n.submitted = new.flatMap PendingBlock.txs ++ n.mempool)) ∧
      ∀ block, n.worker = .headMoved block → block.txs.length ≤ n.mempool.length := by
  have hinv : n.Copied ∧ n.Accounted start.committed := by
    refine hrun.invariant (I := fun k ↦ k.Copied ∧ k.Accounted start.committed)
      ⟨?_, [], ?_, fun _ ↦ rfl⟩ fun hk hok hstep ↦
        ⟨hk.1.taken hstep, hk.2.taken hk.1 hstep hok⟩
    · exact fun txs htxs ↦ absurd htxs (by simp [restart, OptimisticWorker.copied?])
    · exact (List.append_nil _).symm
  obtain ⟨hcopied, new, hnew, htxs⟩ := hinv
  refine ⟨⟨new, hnew, fun hw ↦ ?_⟩, fun block hw ↦ hcopied.drain_le hw⟩
  rw [hw] at htxs
  exact htxs (by simp)

end Node

/-! ## Three requests

The first request comes before the tick, the second during it, and the third between the drain and
the commit.  L1 is disabled, and the state tree has Alice's account. -/

namespace Requests

abbrev env : Deployment where
  crypto := .sha3Crate
  verifyProof _ _ _ := true
  rollupProgramVKey := Hash.default
  merkleVerify _ _ _ := false

abbrev m : Monotree MemTree := MemTree.monotree .sha3Crate

/-- The root of the tree with Alice's account. -/
abbrev root : Hash := FirstDeposit.account.hash .sha3Crate

abbrev start : Node MemTree := Node.init FirstDeposit.tree' root (Bridge.init root)

def tx (nonce : UInt64) : Transaction :=
  { from_ := Hash.ofByte 3, to_ := Hash.ofByte 2, amount := 1, fee := 0, nonce }

def events : List NodeEvent :=
  [.submitTx (tx 0), .tick, .copyTxs, .submitTx (tx 1), .readHead, .execute .cached, .setHeadroot,
    .countBlock, .moveHead, .drain, .submitTx (tx 2), .commitBlock]

def sleeps (n : Node MemTree) : Bool :=
  match n.worker with
  | .sleeping => true
  | _ => false

theorem worker_of_sleeps {n : Node MemTree} (h : sleeps n = true) : n.worker = .sleeping := by
  rw [sleeps] at h
  split at h
  · assumption
  · exact absurd h (by simp)

theorem run_events : (start.restart.run env m .v1 false events).map
    (fun n ↦ (sleeps n, n.committed.map PendingBlock.txs, n.mempool))
      = some (true, [[tx 0]], [tx 1, tx 2]) := by
  decide +kernel

end Requests

open Requests in
theorem mempool_accounted_requests : ∃ n : Node MemTree, n.mempool = [tx 1, tx 2] ∧
    n.submitted = [tx 0] ++ [tx 1, tx 2] := by
  obtain ⟨n, hrun, hview⟩ := Option.map_eq_some_iff.mp run_events
  obtain ⟨hsleeps, hrest⟩ := Prod.mk.inj hview
  obtain ⟨hcommitted, hmempool⟩ := Prod.mk.inj hrest
  have hreaches : Node.Reaches env m .v1 false (fun _ e ↦ e ≠ .restart) start.restart n :=
    Node.reaches_of_run (by simp [events]) hrun
  obtain ⟨⟨new, hnew, htxs⟩, -⟩ := Node.mempool_accounted hreaches
  have hall : new.flatMap PendingBlock.txs = [tx 0] := by
    rw [show start.committed ++ new = new from List.nil_append _] at hnew
    rw [List.flatMap_def, ← hnew, hcommitted]
    rfl
  exact ⟨n, hmempool, by rw [htxs (worker_of_sleeps hsleeps), hall, hmempool]⟩

end TinyRollup
