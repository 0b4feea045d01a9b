import TinyRollup.Core.Queries
import TinyRollup.Sequencer.FailedBatch

/-!
# A panic while the tree is locked

A panic with the tree locked poisons its lock, and no worker gets it again.  The generator panics at
a sibling that is not 32 bytes long, and if it does not arrive at the root of the block; and the
tree itself panics at a root that it has not stored.  A `Harmless` block is one at which none of
this can happen, whatever the tree returns.  `unpoisoned_iff` says that there are no others, and
that the lock is not poisoned as long as the blocks are harmless and the executor inserts at stored
roots.
-/

set_option autoImplicit false

namespace TinyRollup

open ByteString Stf

namespace PendingBlock

/-- No tree with these roots makes the generator panic on the block, if its own calls at them return
or fail. -/
def NeverPanics (bincode : Bincode) (c : Crypto) (stored : List Hash) (block : PendingBlock) :
    Prop :=
  ∀ (T : Type) (m : Monotree T) (tree : T), m.CalmAt tree stored → ∀ msg,
    ¬ (Core.generateProofsForBlock m bincode c tree block).PanicsWith msg

/-- The operations lead from one root to the other.  Those that move it start from the empty tree,
and none comes after one that is refused there.  The others that the generator asks about are met at
a stored root. -/
def LeadsTo (c : Crypto) (stored : List Hash) (post : Hash) : Hash → List Op → Prop
  | root, [] => root = post
  | root, op :: ops =>
    if op.moves then
      root = Hash.default ∧
        match op.opening with
        | .refused => True
        | .one a => LeadsTo c stored post (a.hash c) ops
        | .two a b => a.hash c = Hash.default ∧ LeadsTo c stored post (b.hash c) ops
    else (op.asks → IsHead stored root) ∧ LeadsTo c stored post root ops

instance decidableLeadsTo (c : Crypto) (stored : List Hash) (post : Hash) :
    ∀ root ops, Decidable (LeadsTo c stored post root ops)
  | root, [] => inferInstanceAs (Decidable (root = post))
  | root, op :: ops =>
    if hop : op.moves then
      match hopening : op.opening with
      | .refused => decidable_of_iff (root = Hash.default) (by simp [LeadsTo, hop, hopening])
      | .one a =>
        haveI := decidableLeadsTo c stored post (a.hash c) ops
        decidable_of_iff (root = Hash.default ∧ LeadsTo c stored post (a.hash c) ops)
          (by simp [LeadsTo, hop, hopening])
      | .two a b =>
        haveI := decidableLeadsTo c stored post (b.hash c) ops
        decidable_of_iff
          (root = Hash.default ∧ a.hash c = Hash.default ∧ LeadsTo c stored post (b.hash c) ops)
          (by simp [LeadsTo, hop, hopening])
    else
      haveI := decidableLeadsTo c stored post root ops
      decidable_of_iff ((op.asks → IsHead stored root) ∧ LeadsTo c stored post root ops)
        (by simp [LeadsTo, hop])

/-- The operations of the block lead from its one root to the other. -/
def Harmless (c : Crypto) (stored : List Hash) (block : PendingBlock) : Prop :=
  LeadsTo c stored block.postStateRoot block.preStateRoot block.ops

instance (c : Crypto) (stored : List Hash) (block : PendingBlock) :
    Decidable (block.Harmless c stored) :=
  decidableLeadsTo c stored block.postStateRoot block.preStateRoot block.ops

end PendingBlock

/-! ## The generator -/

section

variable {T : Type} {m : Monotree T} {bincode : Bincode} {c : Crypto} {tree : T}
  {stored : List Hash} {block : PendingBlock} {op : Op}

/-- The loop over the roots fails, or it arrives at this one. -/
def Settles (post : Hash) (x : Run CoreError Hash) : Prop :=
  (∀ msg, ¬ x.PanicsWith msg) ∧ ∀ root, x = .ok root → root = post

theorem settles_ok {root post : Hash} : Settles post (.ok root) ↔ root = post := by
  simp [Settles]

theorem settles_err (post : Hash) (e : CoreError) : Settles post (Run.err e) :=
  ⟨fun _ ↦ Run.not_panicsWith_err, fun _ h ↦ absurd h (by simp [Run.err])⟩

theorem not_settles_panic (post : Hash) (msg : String) : ¬ Settles post (Run.panic msg) :=
  fun h ↦ h.1 msg rfl

theorem generateProofsForBlock_calm_iff :
    (∀ msg, ¬ (Core.generateProofsForBlock m bincode c tree block).PanicsWith msg) ↔
      Settles block.postStateRoot
        (block.ops.foldlM (Core.nextRoot m bincode c tree) block.preStateRoot) := by
  simp only [generateProofsForBlock_panicsWith, not_or, not_exists, not_and, Settles]
  constructor
  · intro h
    refine ⟨fun msg ↦ (h msg).1, fun root hroot ↦ ?_⟩
    by_contra hne
    exact (h _).2 root hroot hne rfl
  · rintro ⟨hcalm, hroot⟩ msg
    exact ⟨hcalm msg, fun root hok hne ↦ absurd (hroot root hok) hne⟩

/-- What does not move the root does not stop the loop. -/
theorem foldlM_of_stays (hshort : bincode.RefusesShort) (hm : m.CalmAt tree stored) {root : Hash}
    {op : Op} {ops : List Op} (hop : ¬ op.moves = true) (hroot : op.asks → IsHead stored root) :
    (op :: ops).foldlM (Core.nextRoot m bincode c tree) root
      = ops.foldlM (Core.nextRoot m bincode c tree) root := by
  have hstep : Core.nextRoot m bincode c tree root op = .ok root := by
    cases op with
    | deposit d => exact absurd rfl hop
    | forced tx => exact nextRoot_of_dummy ⟨tx, rfl, by simpa [Op.moves] using hop⟩
    | transaction tx =>
      exact nextRoot_of_tx (getAccount_barren m hshort) tx
        (hm.getAccount (hroot rfl) bincode tx.from_)
  rw [List.foldlM_cons, hstep, Run.ok_bind]

/-- An operation that moves the root of the empty tree. -/
theorem nextRoot_default (m : Monotree T) (bincode : Bincode) (c : Crypto) (tree : T)
    (hop : op.moves = true) :
    match op.opening with
    | .refused => ∃ e, Core.nextRoot m bincode c tree Hash.default op = Run.err e
    | .one a => Core.nextRoot m bincode c tree Hash.default op = .ok (a.hash c)
    | .two a b => Core.nextRoot m bincode c tree Hash.default op
        = (Core.buildStfProof m bincode tree (a.hash c) op.recipient).map fun q ↦
          computeNewRoot c q (b.hash c) :=
  nextRoot_of_new hop (buildStfProof_default m bincode tree op.key)
    (buildStfProof_default m bincode tree op.recipient)

/-- The induction is on the operations, from any root. -/
theorem PendingBlock.LeadsTo.settles (hshort : bincode.RefusesShort) (hm : m.CalmAt tree stored)
    {post : Hash} {ops : List Op} : ∀ {root : Hash}, LeadsTo c stored post root ops →
      Settles post (ops.foldlM (Core.nextRoot m bincode c tree) root) := by
  induction ops with
  | nil => exact fun h ↦ settles_ok.mpr h
  | cons op ops ih =>
    intro root h
    rw [LeadsTo] at h
    by_cases hop : op.moves = true
    · rw [if_pos hop] at h
      obtain ⟨rfl, hopening⟩ := h
      have hstep := nextRoot_default m bincode c tree hop
      rw [List.foldlM_cons]
      cases hcase : op.opening with
      | refused =>
        rw [hcase] at hstep
        obtain ⟨e, he⟩ := hstep
        rw [he]
        exact settles_err post e
      | one a =>
        rw [hcase] at hstep hopening
        rw [hstep]
        exact ih hopening
      | two a b =>
        rw [hcase] at hstep hopening
        rw [hstep, hopening.1, buildStfProof_default]
        exact ih hopening.2
    · rw [if_neg hop] at h
      rw [foldlM_of_stays hshort hm hop h.1]
      exact ih h.2

/-- **The generator returns or fails on a harmless block.** -/
theorem PendingBlock.Harmless.calm (h : block.Harmless c stored) (hshort : bincode.RefusesShort)
    (hm : m.CalmAt tree stored) (msg : String) :
    ¬ (Core.generateProofsForBlock m bincode c tree block).PanicsWith msg :=
  generateProofsForBlock_calm_iff.mpr (LeadsTo.settles hshort hm h) msg

end

/-! ### A tree with short siblings -/

/-- No account is there, every proof has a sibling without bytes, and other roots than these are not
in the database. -/
def shortSiblings (stored : List Hash) : Monotree Unit :=
  Monotree.guard
    { get _ _ _ := .ok none
      getMerkleProof _ _ _ := .ok (some [(true, [])])
      inserts _ _ _ _ := (.ok none, ()) } stored

section

variable {bincode : Bincode} {c : Crypto} {stored : List Hash} {block : PendingBlock} {op : Op}
  {ops : List Op}

theorem shortSiblings_calmAt : (shortSiblings stored).CalmAt () stored where
  get root hroot k msg := by simp [shortSiblings, guard_get hroot]
  getMerkleProof root hroot k msg := by simp [shortSiblings, guard_getMerkleProof hroot]
  inserts root hroot ks vs msg := by simp [shortSiblings, guard_inserts hroot]

theorem shortSiblings_build (stored : List Hash) {root : Hash} (hroot : root ≠ Hash.default)
    (k : Hash) :
    ∃ msg, Core.buildStfProof (shortSiblings stored) bincode () root k = Run.panic msg := by
  by_cases hmem : root ∈ stored
  · have hroot' : ¬ some root = some Hash.default := fun h ↦ hroot (Option.some_inj.mp h)
    refine ⟨"monotree sibling must be 32 bytes", ?_⟩
    rw [shortSiblings, Core.buildStfProof, Core.getAccount, if_neg hroot', guard_get hmem,
      Core.getProof, if_neg hroot, guard_getMerkleProof hmem]
    rfl
  · exact ⟨strayRoot, buildStfProof_stray (not_or.mpr ⟨hroot, hmem⟩) k⟩

/-- A transaction at a root that is not stored. -/
theorem isHead_of_settles {root post : Hash} (hop : ¬ op.moves = true) (hasks : op.asks)
    (h : Settles post ((op :: ops).foldlM
      (Core.nextRoot (shortSiblings stored) bincode c ()) root)) : IsHead stored root := by
  by_contra hstray
  cases op with
  | deposit d => exact absurd rfl hop
  | forced tx => exact absurd hasks (by simpa [Op.moves, Op.asks] using hop)
  | transaction tx =>
    have hstep : Core.nextRoot (shortSiblings stored) bincode c () root (.transaction tx)
        = Run.panic strayRoot := by
      rw [Core.nextRoot, Core.generateTx, shortSiblings, getAccount_stray hstray]
      rfl
    rw [List.foldlM_cons, hstep] at h
    exact not_settles_panic _ _ h

theorem PendingBlock.leadsTo_of_settles (hshort : bincode.RefusesShort) {post : Hash} :
    ∀ {root : Hash},
      Settles post (ops.foldlM (Core.nextRoot (shortSiblings stored) bincode c ()) root) →
        LeadsTo c stored post root ops := by
  induction ops with
  | nil => exact fun h ↦ settles_ok.mp h
  | cons op ops ih =>
    intro root h
    rw [LeadsTo]
    by_cases hop : op.moves = true
    · rw [if_pos hop]
      rw [List.foldlM_cons] at h
      have hroot : root = Hash.default := by
        by_contra hne
        obtain ⟨msg, hpanic⟩ := shortSiblings_build stored hne op.key
        rw [nextRoot_of_failed hop hpanic] at h
        exact not_settles_panic _ _ h
      subst hroot
      refine ⟨rfl, ?_⟩
      have hstep := nextRoot_default (shortSiblings stored) bincode c () hop
      cases hcase : op.opening with
      | refused => exact trivial
      | one a =>
        rw [hcase] at hstep
        rw [hstep] at h
        exact ih h
      | two a b =>
        rw [hcase] at hstep
        rw [hstep] at h
        have hdefault : a.hash c = Hash.default := by
          by_contra hne
          obtain ⟨msg, hpanic⟩ := shortSiblings_build stored hne op.recipient
          rw [hpanic] at h
          exact not_settles_panic _ _ h
        rw [hdefault, buildStfProof_default] at h
        exact ⟨hdefault, ih h⟩
    · rw [if_neg hop]
      have hroot := fun hasks ↦ isHead_of_settles hop hasks h
      rw [foldlM_of_stays hshort shortSiblings_calmAt hop hroot] at h
      exact ⟨hroot, ih h⟩

/-- **The blocks on which the generator never panics are the harmless ones.** -/
theorem PendingBlock.neverPanics_iff (hshort : bincode.RefusesShort) :
    block.NeverPanics bincode c stored ↔ block.Harmless c stored := by
  constructor
  · intro h
    have hcalm := fun msg ↦ h Unit (shortSiblings stored) () shortSiblings_calmAt msg
    exact leadsTo_of_settles hshort (generateProofsForBlock_calm_iff.mp hcalm)
  · intro h T m tree hm msg
    exact h.calm hshort hm msg

end

/-! ## The process -/

namespace Node

section

variable {T : Type} {env : Deployment} {m : Monotree T} {bincode : Bincode} {l1Enabled : Bool}
  {stored : T → List Hash} {e : NodeEvent} {n n' : Node T}

theorem countRetry_poisoned (n : Node T) (block : PendingBlock) (retries : ℕ) :
    (n.countRetry block retries).poisoned = n.poisoned := by
  rcases n.countRetry_eq block retries with heq | heq <;> rw [heq]

/-- What the prover worker does without the lock. -/
theorem ProverStep.poisoned (h : n.ProverStep env l1Enabled e n') (he : e ≠ .prove) :
    n'.poisoned = n.poisoned := by
  cases h with
  | proveFails _ _ => exact absurd rfl he
  | receiptReverted _ _ | attemptFails _ => exact countRetry_poisoned _ _ _
  | _ => rfl

theorem L1Step.poisoned (h : n.L1Step env e n') : n'.poisoned = n.poisoned := by
  cases h <;> rfl

/-- The executor starts from a stored root, or it has no deposits for the empty tree.  The generator
goes through a block on which it does not panic, and writing the head root does not fail. -/
def Sound (c : Crypto) (stored : T → List Hash) (n : Node T) (e : NodeEvent) : Prop :=
  (∀ order, e = .execute order → ∀ batch preRoot, n.worker = .rootRead batch preRoot →
      preRoot ∈ stored n.disk.tree ∨ preRoot = Hash.default ∧ batch.deposits = []) ∧
    (e = .prove → ∀ block retries, n.prover = .proving block retries →
      block.Harmless c (stored n.disk.tree)) ∧
    (e = .workerFails → ∀ batch preRoot newRoot, n.worker ≠ .executed batch preRoot newRoot)

/-- The prover worker does not poison the lock with a harmless block. -/
theorem prove_poisoned (hshort : bincode.RefusesShort) (hm : ∀ t, m.CalmAt t (stored t))
    (hok : n.Sound env.crypto stored .prove) (h : n.prove env m bincode l1Enabled = some n') :
    n'.poisoned = n.poisoned := by
  rw [prove] at h
  split at h
  swap
  · exact absurd h (by simp)
  rename_i block retries hprover
  have hharmless := hok.2.1 rfl block retries hprover
  split at h
  · exact absurd h (by simp)
  split at h
  · rw [← Option.some_inj.mp h, countRetry_poisoned]
  split at h
  · rename_i msg hpanic
    exact absurd hpanic (hharmless.calm hshort (hm _) msg)
  · rw [← Option.some_inj.mp h, countRetry_poisoned]
  split at h
  · rw [← Option.some_inj.mp h, countRetry_poisoned]
  split at h
  · rw [← Option.some_inj.mp h]
  · rw [← Option.some_inj.mp h]

/-- The batch is executed without a panic. -/
theorem Sound.calm {order : IterOrder} {batch : BlockContents} {preRoot : Hash}
    (hok : n.Sound env.crypto stored (.execute order)) (hshort : bincode.RefusesShort)
    (hm : ∀ t, m.CalmAt t (stored t)) (hworker : n.worker = .rootRead batch preRoot)
    (msg : String) :
    ¬ (applyOptimisticBatch (Core.getAccount m bincode) m env.crypto order n.disk.tree
      (some preRoot) batch.txs batch.deposits batch.forcedTxs).1.PanicsWith msg := by
  rcases hok.1 order rfl batch preRoot hworker with hmem | ⟨rfl, hdeposits⟩
  · have hread : BlockExecutor.ReadsCalmly (Core.getAccount m bincode) msg n.disk.tree
        (some preRoot) := fun k ↦ (hm _).getAccount (Or.inr hmem) bincode k msg
    exact applyOptimisticBatch_calm hread
      (fun ks vs ↦ (hm _).inserts preRoot hmem ks vs msg) env.crypto order _ _ _
  · rw [hdeposits, applyOptimisticBatch_default m hshort]
    exact Run.not_panicsWith_ok

/-- The optimistic worker does not poison it with its executor. -/
theorem execute_poisoned (hshort : bincode.RefusesShort) (hm : ∀ t, m.CalmAt t (stored t))
    {order : IterOrder} (hok : n.Sound env.crypto stored (.execute order))
    (h : n.execute env m bincode order = some n') : n'.poisoned = n.poisoned := by
  rw [execute] at h
  split at h
  swap
  · exact absurd h (by simp)
  rename_i batch preRoot hworker
  split at h
  · rw [← Option.some_inj.mp h]
  split at h
  · rw [← Option.some_inj.mp h]
  · rw [← Option.some_inj.mp h]
  · rename_i msg tree heq
    have hresult := hok.calm hshort hm hworker msg
    rw [heq] at hresult
    exact absurd rfl hresult

theorem workerFails_poisoned (hok : n.Sound env.crypto stored .workerFails)
    (h : n.workerFails = some n') : n'.poisoned = n.poisoned := by
  rw [workerFails] at h
  split at h
  · rw [← Option.some_inj.mp h]
  · rw [← Option.some_inj.mp h]
  · rw [← Option.some_inj.mp h]
  · rename_i hworker
    exact absurd hworker (hok.2.2 rfl _ _ _)
  · exact absurd h (by simp)

/-- The worker collects a batch without the lock. -/
theorem collect_poisoned (h : n.tick l1Enabled = some n' ∨ n.fetchDeposits = some n' ∨
    n.fetchForcedTxs bincode = some n' ∨ n.copyTxs = some n' ∨ n.readHead = some n') :
    n'.poisoned = n.poisoned := by
  rcases h with h | h | h | h | h
  · rw [tick] at h
    split at h
    · split at h <;> rw [← Option.some_inj.mp h]
    · exact absurd h (by simp)
  · rw [fetchDeposits] at h
    split at h
    · split at h
      · exact absurd h (by simp)
      · rw [← Option.some_inj.mp h]
      · rw [← Option.some_inj.mp h]
    · exact absurd h (by simp)
  · rw [fetchForcedTxs] at h
    split at h
    · split at h
      · exact absurd h (by simp)
      · rw [← Option.some_inj.mp h]
      · rw [← Option.some_inj.mp h]
    · exact absurd h (by simp)
  · rw [copyTxs] at h
    split at h
    · split at h <;> rw [← Option.some_inj.mp h]
    · exact absurd h (by simp)
  · rw [readHead] at h
    split at h
    · rw [← Option.some_inj.mp h]
    · exact absurd h (by simp)

/-- It writes its block with the lock, or after it, and nothing panics. -/
theorem finish_poisoned (h : n.setHeadroot = some n' ∨ n.countBlock = some n' ∨
    n.moveHead = some n' ∨ n.drain = some n' ∨ n.commitBlock = some n') :
    n'.poisoned = n.poisoned := by
  rcases h with h | h | h | h | h
  · rw [setHeadroot] at h
    split at h
    · rw [← Option.some_inj.mp h]
    · exact absurd h (by simp)
  · rw [countBlock] at h
    split at h
    · rw [← Option.some_inj.mp h]
    · exact absurd h (by simp)
  · rw [moveHead] at h
    split at h
    · rw [← Option.some_inj.mp h]
    · exact absurd h (by simp)
  · rw [drain] at h
    split at h
    · split at h <;> rw [← Option.some_inj.mp h]
    · exact absurd h (by simp)
  · rw [commitBlock] at h
    split at h
    · rw [← Option.some_inj.mp h]
    · exact absurd h (by simp)

/-- **One step** does not poison the lock. -/
theorem step_poisoned (hshort : bincode.RefusesShort) (hm : ∀ t, m.CalmAt t (stored t))
    (hok : n.Sound env.crypto stored e) (h : n.step env m bincode l1Enabled e = some n')
    (hn : n.poisoned = false) : n'.poisoned = false := by
  have hcollect : (n.tick l1Enabled = some n' ∨ n.fetchDeposits = some n' ∨
      n.fetchForcedTxs bincode = some n' ∨ n.copyTxs = some n' ∨ n.readHead = some n') →
        n'.poisoned = false := fun hs ↦ (collect_poisoned hs).trans hn
  have hfinish : (n.setHeadroot = some n' ∨ n.countBlock = some n' ∨ n.moveHead = some n' ∨
      n.drain = some n' ∨ n.commitBlock = some n') → n'.poisoned = false :=
    fun hs ↦ (finish_poisoned hs).trans hn
  have hprover : ∀ e', n.ProverStep env l1Enabled e' n' → e' ≠ .prove → n'.poisoned = false :=
    fun _ hs he ↦ (hs.poisoned he).trans hn
  have hL1 : ∀ e', n.L1Step env e' n' → n'.poisoned = false := fun _ hs ↦ hs.poisoned.trans hn
  cases e with
  | submitTx tx => exact Option.some_inj.mp h ▸ hn
  | tick => exact hcollect (Or.inl h)
  | fetchDeposits => exact hcollect (Or.inr (Or.inl h))
  | fetchForcedTxs => exact hcollect (Or.inr (Or.inr (Or.inl h)))
  | copyTxs => exact hcollect (Or.inr (Or.inr (Or.inr (Or.inl h))))
  | readHead => exact hcollect (Or.inr (Or.inr (Or.inr (Or.inr h))))
  | execute order => exact (execute_poisoned hshort hm hok h).trans hn
  | setHeadroot => exact hfinish (Or.inl h)
  | countBlock => exact hfinish (Or.inr (Or.inl h))
  | moveHead => exact hfinish (Or.inr (Or.inr (Or.inl h)))
  | drain => exact hfinish (Or.inr (Or.inr (Or.inr (Or.inl h))))
  | commitBlock => exact hfinish (Or.inr (Or.inr (Or.inr (Or.inr h))))
  | workerFails => exact (workerFails_poisoned hok h).trans hn
  | peekPending => exact hprover _ (proverStep_peekPending h) (by simp)
  | prove => exact (prove_poisoned hshort hm hok h).trans hn
  | send proofBytes => exact hprover _ (proverStep_send h) (by simp)
  | getReceipt => exact hprover _ (proverStep_getReceipt h) (by simp)
  | attemptFails => exact hprover _ (proverStep_attemptFails h) (by simp)
  | moveProven => exact hprover _ (proverStep_moveProven h) (by simp)
  | pushFailed => exact hprover _ (proverStep_pushFailed h) (by simp)
  | removePending => exact hprover _ (proverStep_removePending h) (by simp)
  | proverFails => exact hprover _ (proverStep_proverFails h) (by simp)
  | callL1 call => exact Option.some_inj.mp h ▸ hn
  | mine i => exact hL1 _ (l1Step_mine h)
  | drop i => exact hL1 _ (l1Step_drop h)
  | restart => exact Option.some_inj.mp h ▸ rfl

/-- **Any run** of sound steps leaves the lock unpoisoned. -/
theorem Reaches.unpoisoned (hshort : bincode.RefusesShort) (hm : ∀ t, m.CalmAt t (stored t))
    (hrun : Reaches env m bincode l1Enabled (Sound env.crypto stored) n n')
    (hn : n.poisoned = false) : n'.poisoned = false := by
  induction hrun with
  | refl => exact hn
  | tail _ hlast ih =>
    obtain ⟨e, hok, hstep⟩ := hlast
    exact step_poisoned hshort hm hok hstep ih

end

/-- **The blocks that cannot poison the lock are the harmless ones**, and as long as all blocks are
harmless, the executor inserts at stored roots and the head root can be written, the optimistic
worker executes its batches. -/
theorem unpoisoned_iff (env : Deployment) {bincode : Bincode} (hshort : bincode.RefusesShort) :
    (∀ (stored : List Hash) (block : PendingBlock),
      block.NeverPanics bincode env.crypto stored ↔ block.Harmless env.crypto stored) ∧
    ∀ (T : Type) (m : Monotree T) (stored : T → List Hash) (l1Enabled : Bool) (tree : T)
        (root : Hash) (l1 : Bridge) (n : Node T), (∀ t, m.CalmAt t (stored t)) →
      Reaches env m bincode l1Enabled (Sound env.crypto stored) (init tree root l1) n →
      n.poisoned = false ∧
        ∀ order batch preRoot newRoot tree', n.worker = .rootRead batch preRoot →
          applyOptimisticBatch (Core.getAccount m bincode) m env.crypto order n.disk.tree
            (some preRoot) batch.txs batch.deposits batch.forcedTxs = (.ok newRoot, tree') →
          n.execute env m bincode order = some { n with
            disk := { n.disk with tree := tree' }
            worker := .executed batch preRoot newRoot } := by
  constructor
  · exact fun stored block ↦ PendingBlock.neverPanics_iff hshort
  · intro T m stored l1Enabled tree root l1 n hm hrun
    have hclean := hrun.unpoisoned hshort hm rfl
    refine ⟨hclean, fun order batch preRoot newRoot tree' hworker hbatch ↦ ?_⟩
    rw [execute, hworker]
    simp [hclean, hbatch]

end Node

/-! ## A transfer from an account that does not exist

The executor leaves the forced transaction out, and the head stays where it is.  The generator makes
an account up for the sender, and the transfer fails there, which costs a nonce. -/

namespace Unprovable

open Requests (env m start)

/-- A transfer of 1 from an address without an account, as bytes. -/
def transfer : Bytes :=
  (List.replicate 31 0 ++ [3]) ++ List.replicate 32 0 ++ List.replicate 8 0 ++ List.replicate 8 0 ++
    (1 :: List.replicate 7 0) ++ List.replicate 8 0 ++ List.replicate 8 0

def forceTransfer : NodeEvent :=
  .callL1 (.forceTransaction
    { sender := zeros 20, value := 10 ^ 15, timestamp := 7 } transfer)

/-- The block is made, the generator goes through it, and a deposit comes in meanwhile. -/
def stopEvents : List NodeEvent :=
  forceTransfer :: ThreeBlocks.makeBlock ++ [.peekPending, .prove, LostBlock.deposit] ++
    LostBlock.fetch ++ [.readHead]

def dead (n : Node MemTree) : Bool :=
  match n.worker with
  | .dead => true
  | _ => false

/-- The process is stopped by the next batch, which the executor would apply. -/
def stopped (n : Node MemTree) : Bool :=
  n.poisoned && (n.step env m .v1 true (.execute .cached)).any dead &&
    (({ n with poisoned := false }).step env m .v1 true (.execute .cached)).any fun n ↦ !dead n

/-- The executor starts from a stored root. -/
def startsStored (stored : List Hash) : OptimisticWorker → Bool
  | .rootRead _ preRoot => decide (IsHead stored preRoot ∧ preRoot ≠ Hash.default)
  | _ => true

/-- The generator starts at a harmless block. -/
def startsHarmless (stored : List Hash) : ProverWorker → Bool
  | .proving block _ => decide (block.Harmless env.crypto stored)
  | _ => true

def startsSound (n : Node MemTree) : NodeEvent → Bool
  | .execute _ => startsStored n.disk.tree.stored n.worker
  | .prove => startsHarmless n.disk.tree.stored n.prover
  | .workerFails => false
  | _ => true

theorem sound_of_startsSound (e : NodeEvent) (n : Node MemTree) (h : startsSound n e = true) :
    n.Sound env.crypto MemTree.stored e := by
  refine ⟨?_, ?_, ?_⟩
  · rintro order rfl batch preRoot hworker
    rw [startsSound, hworker] at h
    obtain ⟨hhead, hne⟩ := of_decide_eq_true h
    exact Or.inl (hhead.resolve_left hne)
  · rintro rfl block retries hprover
    rw [startsSound, hprover] at h
    exact of_decide_eq_true h
  · rintro rfl
    exact absurd h (by simp [startsSound])

/-- A transaction without a sender gets into a block, and the next one is fetched. -/
def provesAgain : List NodeEvent :=
  .submitTx (Requests.tx 0) :: ThreeBlocks.makeBlock ++
    [.peekPending, .prove, .submitTx (Requests.tx 1)] ++ LostBlock.fetch ++ [.readHead]

/-- The worker has failed once to prove the block. -/
def triesAgain (n : Node MemTree) : Bool :=
  match n.prover with
  | .proving _ 1 => true
  | _ => false

/-- The executor applies the next batch. -/
def applies (n : Node MemTree) : Bool :=
  match n.worker with
  | .rootRead batch preRoot =>
    (applyOptimisticBatch (Core.getAccount m .v1) m env.crypto .cached n.disk.tree (some preRoot)
      batch.txs batch.deposits batch.forcedTxs).1.isOk
  | _ => false

theorem exists_of_applies {n : Node MemTree} (h : applies n = true) :
    ∃ batch preRoot newRoot tree', n.worker = .rootRead batch preRoot ∧
      applyOptimisticBatch (Core.getAccount m .v1) m env.crypto .cached n.disk.tree (some preRoot)
        batch.txs batch.deposits batch.forcedTxs = (.ok newRoot, tree') := by
  rw [applies] at h
  split at h
  · rename_i batch preRoot hworker
    refine ⟨batch, preRoot, ?_⟩
    generalize applyOptimisticBatch (Core.getAccount m .v1) m env.crypto .cached n.disk.tree
      (some preRoot) batch.txs batch.deposits batch.forcedTxs = x at h ⊢
    obtain ⟨res, tree'⟩ := x
    cases res with
    | ok newRoot => exact ⟨newRoot, tree', hworker, rfl⟩
    | error e => exact absurd h (by simp [Except.isOk, Except.toBool])
  · exact absurd h (by simp)

theorem run_stopEvents : (start.run env m .v1 true stopEvents).any stopped = true := by
  decide +kernel

theorem run_provesAgain :
    (start.runIf env m .v1 true startsSound provesAgain).any
      (fun n ↦ triesAgain n && applies n) = true := by
  decide +kernel

end Unprovable

open Unprovable Requests in
/-- The lock is poisoned, and the optimistic worker stops at a batch that could be applied. -/
theorem transfer_poisons : ∃ n, start.run env m .v1 true stopEvents = some n ∧ n.poisoned = true ∧
    (n.step env m .v1 true (.execute .cached)).any dead = true ∧
    (({ n with poisoned := false }).step env m .v1 true (.execute .cached)).any dead = false := by
  obtain ⟨n, hrun, hstopped⟩ := (Option.any_eq_true _ _).mp run_stopEvents
  rw [stopped, Bool.and_eq_true, Bool.and_eq_true] at hstopped
  obtain ⟨⟨hpoisoned, hdead⟩, halive⟩ := hstopped
  obtain ⟨k, hk, hnot⟩ := (Option.any_eq_true _ _).mp halive
  refine ⟨n, hrun, hpoisoned, hdead, ?_⟩
  rw [hk, Option.any_some]
  exact (Bool.not_eq_eq_eq_not).mp hnot

open Unprovable Requests in
/-- A block failed to prove, and the optimistic worker executes the next batch. -/
theorem unpoisoned_iff_transaction : ∃ n : Node MemTree, triesAgain n = true ∧
    n.poisoned = false ∧ (n.execute env m .v1 .cached).any (fun n ↦ !dead n) = true := by
  obtain ⟨n, hrun, hview⟩ := (Option.any_eq_true _ _).mp run_provesAgain
  obtain ⟨hagain, happlies⟩ := (Bool.and_eq_true _ _).mp hview
  obtain ⟨batch, preRoot, newRoot, tree', hworker, hbatch⟩ := exists_of_applies happlies
  have hreaches := Node.reaches_of_runIf (fun e _ ↦ sound_of_startsSound e) hrun
  obtain ⟨-, hruns⟩ := Node.unpoisoned_iff env Bincode.v1_refusesShort
  obtain ⟨hclean, hexecute⟩ :=
    hruns MemTree m MemTree.stored true _ _ _ n (MemTree.calmAt _) hreaches
  refine ⟨n, hagain, hclean, ?_⟩
  rw [hexecute _ _ _ _ _ hworker hbatch]
  rfl

end TinyRollup
