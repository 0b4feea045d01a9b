import TinyRollup.Core.Provable

/-!
# The panics of the executor

The executor has none of its own: it reads the tree at its root and inserts there, and it panics
only if one of these calls does.
-/

set_option autoImplicit false

namespace TinyRollup

open ByteString Stf

/-- The root of the empty tree or a stored one.  The head is such a root, and so is the root that a
block starts from. -/
def IsHead (stored : List Hash) (root : Hash) : Prop := root = Hash.default ∨ root ∈ stored

instance (stored : List Hash) (root : Hash) : Decidable (IsHead stored root) :=
  inferInstanceAs (Decidable (root = Hash.default ∨ root ∈ stored))

/-- The calls of the crate at the roots that it has stored return or fail. -/
structure Monotree.CalmAt {T : Type} (m : Monotree T) (tree : T) (stored : List Hash) : Prop where
  get : ∀ root ∈ stored, ∀ k msg, ¬ (m.get tree (some root) k).PanicsWith msg
  getMerkleProof : ∀ root ∈ stored, ∀ k msg,
    ¬ (m.getMerkleProof tree (some root) k).PanicsWith msg
  inserts : ∀ root ∈ stored, ∀ ks vs msg, ¬ (m.inserts tree (some root) ks vs).1.PanicsWith msg

/-- The all-zero root is not passed on. -/
theorem Monotree.CalmAt.getAccount {T : Type} {m : Monotree T} {tree : T} {stored : List Hash}
    {root : Hash} (h : m.CalmAt tree stored) (hroot : IsHead stored root) (bincode : Bincode)
    (k : Hash) (msg : String) :
    ¬ (Core.getAccount m bincode tree (some root) k).PanicsWith msg := by
  rw [Core.getAccount]
  split
  · simp
  · rename_i hne
    have hmem : root ∈ stored := hroot.resolve_left fun heq ↦ hne (congrArg some heq)
    simp [Run.panicsWith_bind, h.get root hmem]

namespace MemTree

/-- The roots that the tree has. -/
def stored (t : MemTree) : List Hash := (t.map Prod.fst).filter fun r ↦ r ≠ Hash.default

theorem find_of_mem_stored {t : MemTree} {root : Hash} (h : root ∈ t.stored) :
    ∃ es, find t (some root) = .ok es := by
  rw [stored, List.mem_filter, List.mem_map] at h
  obtain ⟨⟨⟨r, es⟩, hmem, rfl⟩, hne⟩ := h
  cases hlookup : t.lookup r with
  | none =>
    rw [List.lookup_eq_none_iff] at hlookup
    exact absurd (hlookup _ hmem) (by simp)
  | some es' =>
    refine ⟨es', ?_⟩
    simp only [find, if_neg (of_decide_eq_true hne), hlookup]

theorem calmAt (c : Crypto) (t : MemTree) : (monotree c).CalmAt t t.stored where
  get root hroot k msg := by
    obtain ⟨es, hes⟩ := find_of_mem_stored hroot
    simp [monotree, hes]
  getMerkleProof root hroot k msg := by
    obtain ⟨es, hes⟩ := find_of_mem_stored hroot
    simp [monotree, hes]
  inserts root hroot ks vs msg := by
    obtain ⟨es, hes⟩ := find_of_mem_stored hroot
    simp only [monotree, inserts, hes]
    split
    · simp
    · split
      · simp
      · split <;> simp

end MemTree

section

variable {T : Type} {read : Reader T} {msg : String}

theorem panicsWith_orNew (key : Hash) {x : Run CoreError Account} :
    (Core.orNew key x).PanicsWith msg ↔ x.PanicsWith msg := by
  rcases x with (e | m) | a
  · cases e <;> simp [Core.orNew, Run.PanicsWith]
  · rfl
  · rfl

theorem panicsWith_unwrapOr (a : Account) {x : Run CoreError Account} :
    (Run.unwrapOr a x).PanicsWith msg ↔ x.PanicsWith msg := by
  rcases x with (e | m) | b <;> simp [Run.unwrapOr, Run.PanicsWith]

namespace BlockExecutor

variable {ex : BlockExecutor T}

/-- Reading from the tree at this root does not end in the panic. -/
def ReadsCalmly (read : Reader T) (msg : String) (tree : T) (root : Option Hash) : Prop :=
  ∀ k, ¬ (read tree root k).PanicsWith msg

theorem ReadsCalmly.getAccountHelper (h : ReadsCalmly read msg ex.tree ex.root) (address : Hash) :
    ¬ (ex.getAccountHelper read address).1.PanicsWith msg := by
  rcases getAccountHelper_cases read ex address with
    ⟨a, -, hget⟩ | ⟨a, -, -, hget⟩ | ⟨e, -, hread, hget⟩
  · rw [hget]
    exact Run.not_panicsWith_ok
  · rw [hget]
    exact Run.not_panicsWith_ok
  · rw [hget, ← hread]
    exact h _

theorem ReadsCalmly.applyDeposit (h : ReadsCalmly read msg ex.tree ex.root) (d : Deposit) :
    ¬ (ex.applyDeposit read d).1.PanicsWith msg := by
  have hget := h.getAccountHelper d.to_
  rw [← panicsWith_orNew d.to_] at hget
  rw [BlockExecutor.applyDeposit]
  simp only
  split
  · rename_i e he
    rw [he] at hget
    simpa using hget
  · rename_i a _
    split
    · simp
    · simp
    · rename_i e hne hdeposit
      exact absurd (applyDeposit_eq_error_iff.mp hdeposit).2 hne

theorem ReadsCalmly.applyTransfer (h : ReadsCalmly read msg ex.tree ex.root) (from_ to_ : Hash)
    (apply : Account → Account → Except StfError TransactionResult) :
    ¬ (ex.applyTransfer read from_ to_ apply).1.PanicsWith msg := by
  have hfrom := h.getAccountHelper from_
  have hgrows := grows_getAccountHelper read ex from_
  rw [BlockExecutor.applyTransfer]
  split
  · simp
  · rename_i heq
    rw [heq] at hfrom
    simpa using hfrom
  · rename_i a ex₁ heq
    rw [heq] at hgrows
    have hcalm : ReadsCalmly read msg ex₁.tree ex₁.root := by rwa [hgrows.tree, hgrows.root]
    have hto := hcalm.getAccountHelper to_
    rw [← panicsWith_unwrapOr (Account.new to_)] at hto
    simp only
    split
    · rename_i e he
      rw [he] at hto
      simpa using hto
    · split <;> simp

theorem ReadsCalmly.applyOp (h : ReadsCalmly read msg ex.tree ex.root) (op : Op) :
    ¬ (ex.applyOp read op).1.PanicsWith msg := by
  cases op with
  | deposit d => exact h.applyDeposit d
  | forced tx =>
    rw [BlockExecutor.applyOp, applyForcedTx]
    split
    · simp
    · exact h.applyTransfer _ _ _
  | transaction tx => exact h.applyTransfer _ _ _

theorem ReadsCalmly.applyOps (h : ReadsCalmly read msg ex.tree ex.root) (ops : List Op) :
    ¬ (ex.applyOps read ops).1.PanicsWith msg := by
  induction ops generalizing ex with
  | nil => exact Run.not_panicsWith_ok
  | cons op ops ih =>
    have hop := h.applyOp op
    have hgrows := grows_applyOp read ex op
    rw [BlockExecutor.applyOps]
    split
    · rename_i heq
      rw [heq] at hgrows
      exact ih (by rwa [hgrows.tree, hgrows.root])
    · rename_i heq
      rw [heq] at hop
      exact hop

end BlockExecutor

/-- **The executor panics as the tree does** at its root. -/
theorem applyOptimisticBatch_calm {m : Monotree T} {tree : T} {root : Option Hash}
    (hread : BlockExecutor.ReadsCalmly read msg tree root)
    (hinserts : ∀ ks vs, ¬ (m.inserts tree root ks vs).1.PanicsWith msg) (c : Crypto)
    (order : IterOrder) (txs : List Transaction) (deposits : List Deposit)
    (forcedTxs : List ForcedTx) :
    ¬ (applyOptimisticBatch read m c order tree root txs deposits forcedTxs).1.PanicsWith msg := by
  have hcalm : BlockExecutor.ReadsCalmly read msg (BlockExecutor.new tree root).tree
      (BlockExecutor.new tree root).root := hread
  have hops := hcalm.applyOps (blockOps txs deposits forcedTxs)
  have hgrows := BlockExecutor.grows_applyOps read (BlockExecutor.new tree root)
    (blockOps txs deposits forcedTxs)
  rw [applyOptimisticBatch_eq]
  split
  · rename_i heq
    rw [heq] at hops
    simpa using hops
  · rename_i ex heq
    rw [heq] at hgrows
    have htree : ex.tree = tree := hgrows.tree
    have hroot : ex.root = root := hgrows.root
    rw [BlockExecutor.commitBlock]
    split
    · simp
    · simp [Run.panicsWith_bind, htree, hroot, hinserts]

/-- At the root of the empty tree nothing is inserted without a deposit. -/
theorem applyOptimisticBatch_default (m : Monotree T) {bincode : Bincode}
    (hshort : bincode.RefusesShort) (c : Crypto) (order : IterOrder) (tree : T)
    (txs : List Transaction) (forcedTxs : List ForcedTx) :
    applyOptimisticBatch (Core.getAccount m bincode) m c order tree (some Hash.default) txs []
      forcedTxs = (.ok Hash.default, tree) := by
  obtain ⟨ex, hops, -⟩ := BlockExecutor.applyOps_refines
    (BlockExecutor.new tree (some Hash.default)) (blockOps txs [] forcedTxs)
    (reads_empty m bincode tree)
  obtain ⟨rfl, -⟩ := (BlockExecutor.fresh_new tree _).applyOps_of_no_deposit
    (getAccount_barren _ hshort) (by simp [blockOps]) hops
  rw [applyOptimisticBatch_eq, hops]
  rfl

end

end TinyRollup
