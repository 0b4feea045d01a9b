import TinyRollup.Sequencer.Mempool

/-!
# Stopping between the two databases

The optimistic worker writes the new root to the state tree, and the block to the queue database
some steps later.  When it stops in between, the root is there without its block, and the next start
takes it for the head (`crash_consistent_iff`).  A stop anywhere else, also one in the middle of a
block that leaves the root as it is, loses nothing.
-/

set_option autoImplicit false

namespace TinyRollup

open ByteString Stf

/-! ## Chains of blocks -/

theorem getElem?_concat_eq_some {α : Type} {l : List α} {a b : α} {i : ℕ}
    (h : (l ++ [a])[i]? = some b) : l[i]? = some b ∨ (i = l.length ∧ b = a) := by
  have hi : i < l.length + 1 := by
    simpa using (List.getElem?_eq_some_iff.mp h).1
  by_cases hlast : i = l.length
  · rw [hlast, List.getElem?_concat_length] at h
    exact Or.inr ⟨hlast, (Option.some_inj.mp h).symm⟩
  · rw [List.getElem?_append_left (by omega)] at h
    exact Or.inl h

/-- The root after some blocks that start from `root`. -/
def tip (root : Hash) (blocks : List PendingBlock) : Hash :=
  (blocks.getLast?.map PendingBlock.postStateRoot).getD root

@[simp] theorem tip_nil (root : Hash) : tip root [] = root := rfl

@[simp] theorem tip_concat (root : Hash) (blocks : List PendingBlock) (b : PendingBlock) :
    tip root (blocks ++ [b]) = b.postStateRoot := by
  rw [tip, List.getLast?_concat]
  rfl

/-- Every block starts from the root after the blocks before it. -/
def Linked (root : Hash) (blocks : List PendingBlock) : Prop :=
  ∀ i b, blocks[i]? = some b → b.preStateRoot = tip root (blocks.take i)

theorem linked_nil (root : Hash) : Linked root [] := fun i b h ↦ absurd h (by simp)

theorem Linked.concat {root : Hash} {blocks : List PendingBlock} {b : PendingBlock}
    (h : Linked root blocks) (hb : b.preStateRoot = tip root blocks) :
    Linked root (blocks ++ [b]) := by
  intro i b' hb'
  rcases getElem?_concat_eq_some hb' with hb' | ⟨rfl, rfl⟩
  · have hi : i < blocks.length := (List.getElem?_eq_some_iff.mp hb').1
    rw [List.take_append_of_le_length hi.le]
    exact h i b' hb'
  · rw [List.take_left, hb]

/-! ## The worker between the two databases -/

namespace OptimisticWorker

/-- The root that the batch starts from. -/
def preRoot? : OptimisticWorker → Option Hash
  | .rootRead _ preRoot | .executed _ preRoot _ | .headrootSet _ preRoot _ => some preRoot
  | .numbered block | .headMoved block | .drained block => some block.preStateRoot
  | .sleeping | .fetching _ _ | .copied _ | .dead => none

/-- After `set_headroot` and before `commit_optimistic_block`: the root that the batch starts from
and the one it leads to. -/
def window? : OptimisticWorker → Option (Hash × Hash)
  | .headrootSet _ preRoot newRoot => some (preRoot, newRoot)
  | .numbered block | .headMoved block | .drained block =>
    some (block.preStateRoot, block.postStateRoot)
  | _ => none

/-- The head that the worker has moved ahead of the queue. -/
def moved? : OptimisticWorker → Option Hash
  | .headMoved block | .drained block => some block.postStateRoot
  | _ => none

theorem preRoot?_of_window? {w : OptimisticWorker} {preRoot newRoot : Hash}
    (h : w.window? = some (preRoot, newRoot)) : w.preRoot? = some preRoot := by
  cases w with
  | headrootSet | numbered | headMoved | drained =>
    obtain ⟨rfl, -⟩ := Prod.mk.inj (Option.some_inj.mp h)
    rfl
  | _ => exact absurd h (by simp [window?])

theorem BeforeHeadroot.window? {w : OptimisticWorker} (h : w.BeforeHeadroot) :
    w.window? = none ∧ w.moved? = none := by
  cases h <;> exact ⟨rfl, rfl⟩

end OptimisticWorker

namespace Node

variable {T : Type} {env : Deployment} {m : Monotree T} {bincode : Bincode} {l1Enabled : Bool}
  {e : NodeEvent} {n n' : Node T} {root : Hash}

/-- The state tree has a root that is in no block of the queue. -/
def Torn (n : Node T) : Prop :=
  ∃ preRoot newRoot, n.worker.window? = some (preRoot, newRoot) ∧ newRoot ≠ preRoot

/-- The process does not stop, and the queue database does not fail, where this tears the two
databases apart. -/
def Careful (n : Node T) (e : NodeEvent) : Prop := n.Torn → e ≠ .restart ∧ e ≠ .workerFails

/-- The roots that the process has on disk and in memory are those of its blocks, which start from
`root`. -/
structure Chained (n : Node T) (root : Hash) : Prop where
  linked : Linked root n.committed
  preRoot : ∀ r, n.worker.preRoot? = some r → r = tip root n.committed
  headroot : n.disk.headroot = some ((n.worker.window?.map Prod.snd).getD (tip root n.committed))
  optimistic : n.heads.optimistic = n.worker.moved?.getD (tip root n.committed)

theorem chained_init (tree : T) (root : Hash) (l1 : Bridge) : (init tree root l1).Chained root where
  linked := linked_nil root
  preRoot _ h := absurd h (by simp [init, OptimisticWorker.preRoot?])
  headroot := rfl
  optimistic := rfl

theorem Chained.of_same (h : n.Chained root) (hsame : SameWorker n n') : n'.Chained root where
  linked := hsame.committed ▸ h.linked
  preRoot := by
    rw [hsame.worker, hsame.committed]
    exact h.preRoot
  headroot := by
    rw [hsame.headroot, hsame.worker, hsame.committed]
    exact h.headroot
  optimistic := by
    rw [hsame.optimistic, hsame.worker, hsame.committed]
    exact h.optimistic

theorem Chained.initialRoot_eq (h : n.Chained root) :
    n.disk.initialRoot = (n.worker.window?.map Prod.snd).getD (tip root n.committed) := by
  rw [Disk.initialRoot, h.headroot, Option.getD_some]

/-- What the next start finds is the root of the last block, unless the databases are torn. -/
theorem Chained.initialRoot_eq_tip_iff (h : n.Chained root) :
    n.disk.initialRoot = tip root n.committed ↔ ¬ n.Torn := by
  rw [h.initialRoot_eq, Torn]
  cases hwindow : n.worker.window? with
  | none => simp
  | some w =>
    obtain ⟨preRoot, newRoot⟩ := w
    rw [← h.preRoot preRoot (OptimisticWorker.preRoot?_of_window? hwindow)]
    simp

theorem Chained.workerStep (h : n.Chained root) (hcopied : n.Copied) (hok : n.Careful e)
    (hstep : n.WorkerStep env m bincode e n') : n'.Chained root := by
  obtain ⟨hlinked, hpre, hhead, hopt⟩ := h
  cases hstep with
  | tick hw | fetches hw | nothingNew hw | copyTxs hw =>
    rw [hw] at hhead hopt
    exact ⟨hlinked, fun r hr ↦ absurd hr (by simp [OptimisticWorker.preRoot?]), hhead, hopt⟩
  | readHead hw =>
    rw [hw] at hhead hopt
    exact ⟨hlinked, fun r hr ↦ (Option.some_inj.mp hr).symm.trans hopt, hhead, hopt⟩
  | execute hw _ =>
    rw [hw] at hpre hhead hopt
    exact ⟨hlinked, hpre, hhead, hopt⟩
  | setHeadroot hw =>
    rw [hw] at hpre hopt
    exact ⟨hlinked, hpre, rfl, hopt⟩
  | countBlock hw =>
    rw [hw] at hpre hhead hopt
    exact ⟨hlinked, hpre, hhead, hopt⟩
  | moveHead hw =>
    rw [hw] at hpre hhead
    exact ⟨hlinked, hpre, hhead, rfl⟩
  | drain hw _ =>
    rw [hw] at hpre hhead hopt
    exact ⟨hlinked, hpre, hhead, hopt⟩
  | drainPanics hw hlength => exact absurd (hcopied.drain_le hw) hlength
  | @commitBlock block hw =>
    rw [hw] at hpre hhead hopt
    refine ⟨hlinked.concat (hpre _ rfl), fun r hr ↦ absurd hr ?_, ?_, ?_⟩
    · simp [OptimisticWorker.preRoot?]
    · rw [tip_concat]
      exact hhead
    · rw [tip_concat]
      exact hopt
  | @commitFails block hw =>
    have hsame : block.postStateRoot = block.preStateRoot := by
      by_contra hne
      exact (hok ⟨_, _, by rw [hw]; rfl, hne⟩).2 rfl
    rw [hw] at hpre hhead hopt
    have htip : block.postStateRoot = tip root n.committed := hsame.trans (hpre _ rfl)
    refine ⟨hlinked, fun r hr ↦ absurd hr (by simp [OptimisticWorker.preRoot?]), ?_, ?_⟩
    · exact hhead.trans (congrArg some htip)
    · exact hopt.trans htip
  | fails tree poisoned hw =>
    rw [hw.window?.1] at hhead
    rw [hw.window?.2] at hopt
    exact ⟨hlinked, fun r hr ↦ absurd hr (by simp [OptimisticWorker.preRoot?]), hhead, hopt⟩

/-- **One step** keeps the roots together, if it does not tear them apart. -/
theorem Chained.taken (h : n.Chained root) (hcopied : n.Copied) (hok : n.Careful e)
    (hstep : n.Taken env m bincode l1Enabled e n') : n'.Chained root := by
  cases hstep with
  | submitTx tx => exact ⟨h.linked, h.preRoot, h.headroot, h.optimistic⟩
  | worker hstep => exact h.workerStep hcopied hok hstep
  | prover hstep => exact h.of_same hstep.sameWorker
  | l1 hstep => exact h.of_same hstep.sameWorker
  | restart =>
    have htip : n.disk.initialRoot = tip root n.committed :=
      h.initialRoot_eq_tip_iff.mpr fun htorn ↦ (hok htorn).1 rfl
    exact ⟨h.linked, fun r hr ↦ absurd hr (by simp [restart, OptimisticWorker.preRoot?]),
      congrArg some htip, htip⟩

/-- The roots stay together in runs without such a stop. -/
theorem Reaches.chained {tree : T} {l1 : Bridge}
    (hrun : Reaches env m bincode l1Enabled Careful (init tree root l1) n) :
    n.Copied ∧ n.Chained root := by
  refine hrun.invariant (I := fun k ↦ k.Copied ∧ k.Chained root) ⟨?_, chained_init tree root l1⟩
    fun hk hok hstep ↦ ⟨hk.1.taken hstep, hk.2.taken hk.1 hok hstep⟩
  exact fun txs htxs ↦ absurd htxs (by simp [init, OptimisticWorker.copied?])

/-- Stopping changes neither the root on disk nor the blocks. -/
theorem Taken.stop (hstep : n.Taken env m bincode l1Enabled e n')
    (hstop : e = .restart ∨ n'.worker = .dead) :
    n'.disk.initialRoot = n.disk.initialRoot ∧ n'.committed = n.committed := by
  cases hstep with
  | submitTx tx => exact ⟨rfl, rfl⟩
  | worker hstep =>
    cases hstep with
    | setHeadroot | commitBlock => exact absurd hstop (by simp)
    | _ => exact ⟨rfl, rfl⟩
  | prover hstep =>
    obtain ⟨-, -, -, -, -, hheadroot, -, hcommitted⟩ := hstep.sameWorker
    exact ⟨by rw [Disk.initialRoot, hheadroot, Disk.initialRoot], hcommitted⟩
  | l1 hstep =>
    obtain ⟨-, -, -, -, -, hheadroot, -, hcommitted⟩ := hstep.sameWorker
    exact ⟨by rw [Disk.initialRoot, hheadroot, Disk.initialRoot], hcommitted⟩
  | restart => exact ⟨rfl, rfl⟩

/-- **When a stop separates the state tree from the queue.**  In a run from any state tree and head
root, at the first stop of the process or of its optimistic worker that might do so: the head that
the next start makes of the disk is the root of the last committed block, or the first one, exactly
if the worker was not between `set_headroot` and `commit_optimistic_block` with a new root. -/
theorem crash_consistent_iff {tree : T} {l1 : Bridge}
    (hrun : Reaches env m bincode l1Enabled Careful (init tree root l1) n)
    (hstep : n.step env m bincode l1Enabled e = some n')
    (hstop : e = .restart ∨ n'.worker = .dead) :
    n'.restart.heads.optimistic = tip root n'.restart.committed ↔ ¬ n.Torn := by
  obtain ⟨hroot, hcommitted⟩ := (step_cases hstep).stop hstop
  show n'.disk.initialRoot = tip root n'.committed ↔ ¬ n.Torn
  rw [hroot, hcommitted]
  exact hrun.chained.2.initialRoot_eq_tip_iff

end Node

/-! ## A stop after a deposit

The process stops when the root with the deposit is written, and starts again. -/

namespace LostBlock

open Requests (env m root start)

def deposit : NodeEvent :=
  .callL1 (.deposit { sender := zeros 20, value := 10, timestamp := 7 })

/-- The optimistic worker fetches what is new on L1. -/
def fetch : List NodeEvent :=
  [.tick, .fetchDeposits, .fetchDeposits, .fetchDeposits, .fetchForcedTxs, .fetchForcedTxs,
    .fetchForcedTxs, .copyTxs]

def events : List NodeEvent := deposit :: fetch ++ [.readHead, .execute .cached, .setHeadroot]

theorem run_events : (start.run env m .v1 true events).map
    (fun n ↦ (n.committed.length, decide (n.restart.heads.optimistic = root)))
      = some (0, false) := by
  decide +kernel

end LostBlock

open Requests (env m root start) in
/-- The head after the restart is not the initial root, and there is no block. -/
theorem deposit_lost : ∃ n,
    start.run env m .v1 true (LostBlock.events ++ [.restart]) = some n ∧ n.committed = [] ∧
      n.heads.optimistic ≠ tip root n.committed := by
  obtain ⟨n, hrun, hview⟩ := Option.map_eq_some_iff.mp LostBlock.run_events
  obtain ⟨hlength, hhead⟩ := Prod.mk.inj hview
  have hcommitted : n.committed = [] := List.eq_nil_of_length_eq_zero hlength
  refine ⟨n.restart, ?_, hcommitted, ?_⟩
  · rw [Node.run_append, hrun]
    rfl
  · rw [show n.restart.committed = [] from hcommitted]
    exact of_decide_eq_false hhead

open Requests (env m root start) in
theorem crash_consistent_iff_deposit : ∃ n : Node MemTree,
    start.run env m .v1 true LostBlock.events = some n ∧
      (n.restart.restart.heads.optimistic = tip root n.restart.restart.committed ↔ ¬ n.Torn) := by
  obtain ⟨n, hrun, -⟩ := Option.map_eq_some_iff.mp LostBlock.run_events
  have hreaches : Node.Reaches env m .v1 true Node.Careful start n :=
    Node.reaches_of_run (by simp [LostBlock.events, LostBlock.deposit, LostBlock.fetch,
      Node.Careful]) hrun
  exact ⟨n, hrun, Node.crash_consistent_iff (e := .restart) hreaches rfl (Or.inl rfl)⟩

end TinyRollup
