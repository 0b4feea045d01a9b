import TinyRollup.Core.Provable
import TinyRollup.Core.Panics

/-!
# The roots that the generator goes through

`generate_proofs_for_block` carries a root along, asks the tree for accounts and proofs at it and
computes the next one.  `nextRoot` is what one operation does to the root, and the generator is the
loop of it over all operations, with a comparison at the end (`generateProofsForBlock_map`).

No account can be read back, so the generator gets past a deposit or a forced transaction only if
its accounts are not there.  Then it makes up proofs without siblings, and the root that it moves to
is the digest of the one account that the operation makes (`Opening`).
-/

set_option autoImplicit false

namespace TinyRollup

open ByteString Stf HashTree

/-- The operations of the block. -/
def PendingBlock.ops (block : PendingBlock) : List Op :=
  blockOps block.txs block.deposits block.forcedTxs

/-- The operation changes the root if its accounts are there. -/
def Op.moves : Op → Bool
  | .deposit _ => true
  | .forced tx => tx.from_ ≠ Hash.default
  | .transaction _ => false

/-- What an operation makes of accounts that are not there. -/
inductive Opening
  | refused
  | one (a : Account)
  | two (from_ to_ : Account)
  deriving DecidableEq

def Op.opening : Op → Opening
  | .deposit d =>
    match Stf.applyDeposit (Account.new d.to_) d with
    | .ok a => .one a
    | .error _ => .refused
  | .forced tx =>
    match Stf.applyForcedTx (Account.new tx.from_) (Account.new tx.to_) tx with
    | .ok (.failure a) => .one a
    | .ok (.success a b) => .two a b
    | .error _ => .refused
  | .transaction _ => .refused

section

variable {T : Type} (m : Monotree T) (bincode : Bincode) (c : Crypto) (tree : T)

/-- What an operation does to the root of the generator. -/
def Core.nextRoot (root : Hash) : Op → Run CoreError Hash
  | .deposit d => (Core.generateDeposit m bincode c tree (root, []) d).map Prod.fst
  | .forced tx =>
    (Core.generateForced m bincode c tree ⟨root, [], []⟩ tx).map Core.ProofState.currentRoot
  | .transaction tx =>
    (Core.generateTx m bincode c tree ⟨root, [], []⟩ tx).map Core.ProofState.currentRoot

end

section

variable {T : Type} {m : Monotree T} {bincode : Bincode} {c : Crypto} {tree : T} {root : Hash}

/-! ## The generator as a loop over roots -/

theorem generateDeposit_map (st : Hash × List MerkleProof) (d : Deposit) :
    (Core.generateDeposit m bincode c tree st d).map Prod.fst
      = Core.nextRoot m bincode c tree st.1 (.deposit d) := by
  rw [Core.nextRoot, Core.generateDeposit, Core.generateDeposit]
  cases Core.buildStfProof m bincode tree st.1 d.to_ with
  | error e => rfl
  | ok p =>
    simp only [Run.ok_bind]
    split <;> rfl

theorem generateTransfer_map (st : Core.ProofState) (from_ to_ : Hash)
    (apply : Account → Account → Except StfError TransactionResult) :
    (Core.generateTransfer m bincode c tree st from_ to_ apply).map Core.ProofState.currentRoot
      = (Core.generateTransfer m bincode c tree ⟨st.currentRoot, [], []⟩ from_ to_ apply).map
        Core.ProofState.currentRoot := by
  rw [Core.generateTransfer, Core.generateTransfer]
  cases Core.buildStfProof m bincode tree st.currentRoot from_ with
  | error e => rfl
  | ok p =>
    cases Core.buildStfProof m bincode tree st.currentRoot to_ with
    | error e => rfl
    | ok q =>
      simp only [Run.ok_bind]
      cases apply p.account q.account with
      | error e => rfl
      | ok r =>
        cases r with
        | failure a => rfl
        | success a b =>
          simp only [Run.ofExcept, Run.mapErr_ok, Run.ok_bind]
          cases Core.buildStfProof m bincode tree (computeNewRoot c p (a.hash c)) to_ <;> rfl

theorem generateForced_map (st : Core.ProofState) (tx : ForcedTx) :
    (Core.generateForced m bincode c tree st tx).map Core.ProofState.currentRoot
      = Core.nextRoot m bincode c tree st.currentRoot (.forced tx) := by
  rw [Core.nextRoot, Core.generateForced, Core.generateForced]
  split
  · rfl
  · exact generateTransfer_map st _ _ _

theorem generateTx_map (st : Core.ProofState) (tx : Transaction) :
    (Core.generateTx m bincode c tree st tx).map Core.ProofState.currentRoot
      = Core.nextRoot m bincode c tree st.currentRoot (.transaction tx) := by
  rw [Core.nextRoot, Core.generateTx, Core.generateTx]
  rcases Core.getAccount m bincode tree (some st.currentRoot) tx.from_ with (err | msg) | a
  · rfl
  · rfl
  · exact generateTransfer_map st _ _ _

/-- **The generator goes through the roots of its operations**, and panics if the last one is not
the root of the block. -/
theorem generateProofsForBlock_map (block : PendingBlock) :
    (Core.generateProofsForBlock m bincode c tree block).map (fun _ ↦ ())
      = block.ops.foldlM (Core.nextRoot m bincode c tree) block.preStateRoot >>= fun root ↦
        if root = block.postStateRoot then .ok ()
        else Run.panic "fatal: root mismatch after proof generation simulation" := by
  have hdeposits : (block.deposits.foldlM (Core.generateDeposit m bincode c tree)
      (block.preStateRoot, [])).map Prod.fst
        = block.deposits.foldlM (fun root d ↦ Core.nextRoot m bincode c tree root (.deposit d))
          block.preStateRoot :=
    Run.foldlM_map (fun st d _ ↦ generateDeposit_map st d) _
  simp only [Core.generateProofsForBlock, PendingBlock.ops, blockOps, List.foldlM_append,
    List.foldlM_map]
  rw [← hdeposits]
  cases block.deposits.foldlM (Core.generateDeposit m bincode c tree) (block.preStateRoot, []) with
  | error e => rfl
  | ok ds =>
  have hforced : (block.forcedTxs.foldlM (Core.generateForced m bincode c tree)
      ⟨ds.1, [], []⟩).map Core.ProofState.currentRoot
        = block.forcedTxs.foldlM (fun root tx ↦ Core.nextRoot m bincode c tree root (.forced tx))
          ds.1 :=
    Run.foldlM_map (fun st tx _ ↦ generateForced_map st tx) _
  simp only [Except.map, Run.ok_bind] at hforced ⊢
  rw [← hforced]
  cases block.forcedTxs.foldlM (Core.generateForced m bincode c tree) ⟨ds.1, [], []⟩ with
  | error e => rfl
  | ok forced =>
  have htxs : (block.txs.foldlM (Core.generateTx m bincode c tree)
      ⟨forced.currentRoot, [], []⟩).map Core.ProofState.currentRoot
        = block.txs.foldlM (fun root tx ↦ Core.nextRoot m bincode c tree root (.transaction tx))
          forced.currentRoot :=
    Run.foldlM_map (fun st tx _ ↦ generateTx_map st tx) _
  simp only [Except.map, Run.ok_bind] at htxs ⊢
  rw [← htxs]
  cases block.txs.foldlM (Core.generateTx m bincode c tree) ⟨forced.currentRoot, [], []⟩ with
  | error e => rfl
  | ok txs =>
  simp only [Run.ok_bind]
  by_cases hroot : txs.currentRoot = block.postStateRoot
  · rw [if_pos hroot, if_pos hroot]
    rfl
  · rw [if_neg hroot, if_neg hroot]
    rfl

theorem generateProofsForBlock_panicsWith {block : PendingBlock} {msg : String} :
    (Core.generateProofsForBlock m bincode c tree block).PanicsWith msg ↔
      (block.ops.foldlM (Core.nextRoot m bincode c tree) block.preStateRoot).PanicsWith msg ∨
        ∃ root, block.ops.foldlM (Core.nextRoot m bincode c tree) block.preStateRoot = .ok root ∧
          root ≠ block.postStateRoot ∧
          "fatal: root mismatch after proof generation simulation" = msg := by
  rw [← Run.panicsWith_map (f := fun _ ↦ ()), generateProofsForBlock_map, Run.panicsWith_bind]
  refine or_congr_right (exists_congr fun root ↦ and_congr_right fun _ ↦ ?_)
  split
  · rename_i hroot
    simp [hroot]
  · rename_i hroot
    simp [hroot]

/-! ## One operation -/

/-- Nothing is asked at the root of the empty tree. -/
theorem buildStfProof_default (m : Monotree T) (bincode : Bincode) (tree : T) (k : Hash) :
    Core.buildStfProof m bincode tree Hash.default k = .ok (Core.dummyProof k) := by
  rw [Core.buildStfProof, Core.getAccount, if_pos rfl, Core.getProof, if_pos rfl]
  rfl

theorem computeNewRoot_dummyProof (c : Crypto) (k h : Hash) :
    computeNewRoot c (Core.dummyProof k) h = h := rfl

/-- Of a dummy the tree is not asked. -/
theorem nextRoot_of_dummy {op : Op} (hop : op.Dummy) :
    Core.nextRoot m bincode c tree root op = .ok root := by
  obtain ⟨tx, rfl, hdummy⟩ := hop
  rw [Core.nextRoot, Core.generateForced, if_pos hdummy]
  rfl

/-- A transaction asks for its sender only, and what it hears does not matter. -/
theorem nextRoot_of_tx (hread : Barren (Core.getAccount m bincode)) (tx : Transaction)
    (hget : ∀ msg, ¬ (Core.getAccount m bincode tree (some root) tx.from_).PanicsWith msg) :
    Core.nextRoot m bincode c tree root (.transaction tx) = .ok root := by
  rw [Core.nextRoot, Core.generateTx]
  cases hres : Core.getAccount m bincode tree (some root) tx.from_ with
  | ok a => exact absurd hres (hread.ne_ok _ _ _ _)
  | error e =>
    cases e with
    | err e => rfl
    | panic msg => exact absurd hres (hget msg)

/-- A deposit or a forced transaction asks for the proof of its account first. -/
theorem nextRoot_of_failed {op : Op} (hop : op.moves = true) {e : Halt CoreError}
    (hbuild : Core.buildStfProof m bincode tree root op.key = .error e) :
    Core.nextRoot m bincode c tree root op = .error e := by
  cases op with
  | deposit d =>
    rw [Core.nextRoot, Core.generateDeposit, show Core.buildStfProof m bincode tree root d.to_ = _
      from hbuild]
    rfl
  | forced tx =>
    have hreal : tx.from_ ≠ Hash.default := by simpa [Op.moves] using hop
    rw [Core.nextRoot, Core.generateForced, if_neg hreal, Core.generateTransfer,
      show Core.buildStfProof m bincode tree root tx.from_ = _ from hbuild]
    rfl
  | transaction tx => exact absurd hop (by simp [Op.moves])

/-- The recipient. -/
def Op.recipient : Op → Hash
  | .deposit d => d.to_
  | .forced tx => tx.to_
  | .transaction tx => tx.to_

/-- A forced transaction asks for the proof of its recipient next. -/
theorem nextRoot_of_recipient_failed {op : Op} (hop : op.moves = true) {p : MerkleProof}
    {e : Halt CoreError} (hfrom : Core.buildStfProof m bincode tree root op.key = .ok p)
    (hto : Core.buildStfProof m bincode tree root op.recipient = .error e) :
    Core.nextRoot m bincode c tree root op = .error e := by
  cases op with
  | deposit d => exact absurd (hfrom.symm.trans hto) (by simp)
  | forced tx =>
    have hreal : tx.from_ ≠ Hash.default := by simpa [Op.moves] using hop
    rw [Core.nextRoot, Core.generateForced, if_neg hreal, Core.generateTransfer,
      show Core.buildStfProof m bincode tree root tx.from_ = _ from hfrom, Run.ok_bind,
      show Core.buildStfProof m bincode tree root tx.to_ = _ from hto]
    rfl
  | transaction tx => exact absurd hop (by simp [Op.moves])

/-- **From accounts that are not there** the root moves to the digest of the account that is made.
A second account is asked for at that root. -/
theorem nextRoot_of_new {op : Op} (hop : op.moves = true)
    (hfrom : Core.buildStfProof m bincode tree root op.key = .ok (Core.dummyProof op.key))
    (hto : Core.buildStfProof m bincode tree root op.recipient
      = .ok (Core.dummyProof op.recipient)) :
    match op.opening with
    | .refused => ∃ e, Core.nextRoot m bincode c tree root op = Run.err e
    | .one a => Core.nextRoot m bincode c tree root op = .ok (a.hash c)
    | .two a b => Core.nextRoot m bincode c tree root op
        = (Core.buildStfProof m bincode tree (a.hash c) op.recipient).map fun q ↦
          computeNewRoot c q (b.hash c) := by
  cases op with
  | deposit d =>
    rw [Op.opening, applyDeposit_new]
    rw [Core.nextRoot, Core.generateDeposit,
      show Core.buildStfProof m bincode tree root d.to_ = _ from hfrom, Run.ok_bind,
      show (Core.dummyProof (Op.deposit d).key).account = Account.new d.to_ from rfl,
      applyDeposit_new]
    rfl
  | forced tx =>
    have hreal : tx.from_ ≠ Hash.default := by simpa [Op.moves] using hop
    have hstep : Core.nextRoot m bincode c tree root (.forced tx)
        = (Core.generateTransfer m bincode c tree ⟨root, [], []⟩ tx.from_ tx.to_ fun from_ to_ ↦
            Stf.applyForcedTx from_ to_ tx).map Core.ProofState.currentRoot := by
      rw [Core.nextRoot, Core.generateForced, if_neg hreal]
    rw [hstep, Core.generateTransfer,
      show Core.buildStfProof m bincode tree root tx.from_ = _ from hfrom, Run.ok_bind,
      show Core.buildStfProof m bincode tree root tx.to_ = _ from hto, Run.ok_bind, Op.opening,
      show (Core.dummyProof (Op.forced tx).key).account = Account.new tx.from_ from rfl,
      show (Core.dummyProof (Op.forced tx).recipient).account = Account.new tx.to_ from rfl]
    cases Stf.applyForcedTx (Account.new tx.from_) (Account.new tx.to_) tx with
    | error e => exact ⟨_, rfl⟩
    | ok r =>
      cases r with
      | failure a => rfl
      | success a b =>
        simp only [Run.ofExcept, Run.mapErr_ok, Run.ok_bind, computeNewRoot_dummyProof,
          Op.recipient]
        cases Core.buildStfProof m bincode tree (a.hash c) tx.to_ <;> rfl
  | transaction tx => exact absurd hop (by simp [Op.moves])

end

end TinyRollup
