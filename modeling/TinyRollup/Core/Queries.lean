import TinyRollup.Core.Generated
import TinyRollup.Core.Roots

/-!
# The roots at which the tree is asked

The tree has the roots that its insertions have returned.  `Monotree.guard` is the tree that panics
at every other root, so that the code keeps to the stored roots where it does not panic so with the
guarded tree.

It leaves them in two places.  The all-zero root is kept from the reads of the executor and not from
its insertion.  And the generator asks at the roots that it has computed itself, from the second
operation of a block on.
-/

set_option autoImplicit false

namespace TinyRollup

open ByteString Stf

/-- The panic at a root that is not in the database. -/
def strayRoot : String := "root not in the database"

/-- A call at a stored root, or at none. -/
def Run.atStored {α : Type} (stored : List Hash) (root : Option Hash) (x : Run String α) :
    Run String α :=
  match root with
  | none => x
  | some r => if r ∈ stored then x else Run.panic strayRoot

/-- The tree with its calls at the stored roots only. -/
def Monotree.guard {T : Type} (m : Monotree T) (stored : List Hash) : Monotree T where
  get t root k := Run.atStored stored root (m.get t root k)
  getMerkleProof t root k := Run.atStored stored root (m.getMerkleProof t root k)
  inserts t root ks vs :=
    (Run.atStored stored root (m.inserts t root ks vs).1, (m.inserts t root ks vs).2)

section

variable {T : Type} (m : Monotree T) (bincode : Bincode) (c : Crypto)

/-- A tree after any batches, with the roots that `inserts` has returned on top of those stored at
first.  A batch starts from the head, and after a crash from an earlier one. -/
inductive Recorded (tree₀ : T) (stored₀ : List Hash) : T → List Hash → Prop
  | start : Recorded tree₀ stored₀ tree₀ stored₀
  | applied {tree tree' : T} {stored : List Hash} {root root' : Hash} {order : IterOrder}
      {txs : List Transaction} {deposits : List Deposit} {forcedTxs : List ForcedTx}
      {ex : BlockExecutor T} (h : Recorded tree₀ stored₀ tree stored) (hroot : IsHead stored root)
      (hops : (BlockExecutor.new tree (some root)).applyOps (Core.getAccount m bincode)
        (blockOps txs deposits forcedTxs) = (.ok (), ex))
      (hbatch : applyOptimisticBatch (Core.getAccount m bincode) m c order tree (some root) txs
        deposits forcedTxs = (.ok root', tree')) :
      Recorded tree₀ stored₀ tree'
        (if ex.accountCache.entries = [] then stored else root' :: stored)
  | failed {tree tree' : T} {stored : List Hash} {root : Hash} {order : IterOrder}
      {txs : List Transaction} {deposits : List Deposit} {forcedTxs : List ForcedTx}
      {e : Halt CoreError} (h : Recorded tree₀ stored₀ tree stored) (hroot : IsHead stored root)
      (hbatch : applyOptimisticBatch (Core.getAccount m bincode) m c order tree (some root) txs
        deposits forcedTxs = (.error e, tree')) :
      Recorded tree₀ stored₀ tree' stored

end

/-- Every head has accounts, and the root of the empty tree is not stored. -/
structure Founded {T : Type} {m : Monotree T} (laws : MonotreeLaws m) (c : Crypto) (tree : T)
    (stored : List Hash) : Prop where
  not_mem : Hash.default ∉ stored
  holds : ∀ root, IsHead stored root → ∃ s, Holds laws c tree root s

/-- With no root stored, any tree will do. -/
theorem founded_nil {T : Type} {m : Monotree T} (laws : MonotreeLaws m) (c : Crypto) (tree : T) :
    Founded laws c tree [] := by
  refine ⟨List.not_mem_nil, ?_⟩
  rintro root (rfl | hmem)
  · exact ⟨_, holds_empty laws tree⟩
  · exact absurd hmem List.not_mem_nil

/-- The generator asks about the operation. -/
def Op.asks : Op → Bool
  | .forced tx => tx.from_ ≠ Hash.default
  | _ => true

section

variable {T : Type} (m : Monotree T) (bincode : Bincode) (c : Crypto) (tree : T)
  (stored : List Hash)

/-- The operation is met at roots where the tree can be asked, and `rest` holds of the root after
it.  The generator stops at an account that is there and at an operation that is refused, and from
accounts that are not there it moves to the digests of the new ones. -/
def Op.AsksStored (root : Hash) (op : Op) (rest : Hash → Prop) : Prop :=
  if op.moves then
    IsHead stored root ∧
      (NotFound (Core.getAccount m bincode) tree (some root) op.key →
        NotFound (Core.getAccount m bincode) tree (some root) op.recipient →
          match op.opening with
          | .refused => True
          | .one a => rest (a.hash c)
          | .two a b => IsHead stored (a.hash c) ∧
              (NotFound (Core.getAccount m bincode) tree (some (a.hash c)) op.recipient →
                rest (b.hash c)))
  else (op.asks → IsHead stored root) ∧ rest root

def AsksStored : Hash → List Op → Prop
  | _, [] => True
  | root, op :: ops => op.AsksStored m bincode c tree stored root fun root' ↦ AsksStored root' ops

end

section

variable {T : Type} {m : Monotree T} {bincode : Bincode} {c : Crypto} {laws : MonotreeLaws m}
  {tree : T} {stored : List Hash} {root : Hash}

/-! ## The guarded tree -/

theorem guard_get (h : root ∈ stored) (k : Hash) :
    (m.guard stored).get tree (some root) k = m.get tree (some root) k := if_pos h

theorem guard_getMerkleProof (h : root ∈ stored) (k : Hash) :
    (m.guard stored).getMerkleProof tree (some root) k = m.getMerkleProof tree (some root) k :=
  if_pos h

theorem guard_inserts (h : root ∈ stored) (ks vs : List Hash) :
    ((m.guard stored).inserts tree (some root) ks vs).1 = (m.inserts tree (some root) ks vs).1 :=
  if_pos h

theorem guard_get_stray (h : root ∉ stored) (k : Hash) :
    (m.guard stored).get tree (some root) k = Run.panic strayRoot := if_neg h

theorem guard_inserts_stray (h : root ∉ stored) (ks vs : List Hash) :
    ((m.guard stored).inserts tree (some root) ks vs).1 = Run.panic strayRoot := if_neg h

/-- At the root of the empty tree nothing is read. -/
theorem getAccount_guard (h : IsHead stored root) (k : Hash) :
    Core.getAccount (m.guard stored) bincode tree (some root) k
      = Core.getAccount m bincode tree (some root) k := by
  rw [Core.getAccount, Core.getAccount]
  split
  · rfl
  · rename_i hroot
    have hmem : root ∈ stored := h.resolve_left fun heq ↦ hroot (congrArg some heq)
    rw [guard_get hmem]

theorem getProof_guard (h : IsHead stored root) (k : Hash) :
    Core.getProof (m.guard stored) tree root k = Core.getProof m tree root k := by
  rw [Core.getProof, Core.getProof]
  split
  · rfl
  · rename_i hroot
    rw [guard_getMerkleProof (h.resolve_left hroot)]

theorem buildStfProof_guard (h : IsHead stored root) (k : Hash) :
    Core.buildStfProof (m.guard stored) bincode tree root k
      = Core.buildStfProof m bincode tree root k := by
  rw [Core.buildStfProof, Core.buildStfProof, getAccount_guard h, getProof_guard h]

theorem getAccount_stray (h : ¬ IsHead stored root) (k : Hash) :
    Core.getAccount (m.guard stored) bincode tree (some root) k = Run.panic strayRoot := by
  obtain ⟨hroot, hmem⟩ := not_or.mp h
  rw [Core.getAccount, if_neg fun heq ↦ hroot (Option.some_inj.mp heq), guard_get_stray hmem]
  rfl

theorem buildStfProof_stray (h : ¬ IsHead stored root) (k : Hash) :
    Core.buildStfProof (m.guard stored) bincode tree root k = Run.panic strayRoot := by
  rw [Core.buildStfProof, getAccount_stray h]
  rfl

/-! ## The stored roots -/

/-- A batch that has cached an account does not arrive at the root of the empty tree. -/
theorem Holds.ne_default {tree' : T} {root' : Hash} {s : AccountMap} {ex : BlockExecutor T}
    (h : Holds laws c tree' root' (ex.view s)) (hne : ex.accountCache.entries ≠ []) :
    root' ≠ Hash.default := by
  rintro rfl
  obtain ⟨e, he⟩ := List.exists_mem_of_ne_nil _ hne
  have hlookup : ex.accountCache.lookup e.1 = some e.2 := AList.mem_lookup_iff.mpr he
  have hleaf := h.leaf e.1
  rw [laws.leaf_default, BlockExecutor.view, hlookup, Option.some_or] at hleaf
  exact absurd hleaf (by simp)

/-- The batch that has arrived at a root starts the next one from such a root again. -/
theorem isHead_applied {tree' : T} {root' : Hash} {order : IterOrder} {txs : List Transaction}
    {deposits : List Deposit} {forcedTxs : List ForcedTx} {ex : BlockExecutor T}
    (hroot : IsHead stored root)
    (hops : (BlockExecutor.new tree (some root)).applyOps (Core.getAccount m bincode)
      (blockOps txs deposits forcedTxs) = (.ok (), ex))
    (hbatch : applyOptimisticBatch (Core.getAccount m bincode) m c order tree (some root) txs
      deposits forcedTxs = (.ok root', tree')) :
    IsHead (if ex.accountCache.entries = [] then stored else root' :: stored) root' := by
  have hgrows := BlockExecutor.grows_applyOps (Core.getAccount m bincode)
    (BlockExecutor.new tree (some root)) (blockOps txs deposits forcedTxs)
  rw [hops] at hgrows
  have hex : ex.root = some root := hgrows.root
  rw [applyOptimisticBatch_eq, hops] at hbatch
  split
  · rename_i hempty
    simp only [BlockExecutor.commitBlock, if_pos hempty, hex, Option.getD_some] at hbatch
    obtain rfl := Except.ok.inj (Prod.mk.inj hbatch).1
    exact hroot
  · exact Or.inr (List.mem_cons_self ..)

/-- **Every stored root has accounts**, and the root of the empty tree is not stored. -/
theorem Recorded.founded {tree₀ : T} {stored₀ : List Hash} (hshort : bincode.RefusesShort)
    (hstart : Founded laws c tree₀ stored₀) (h : Recorded m bincode c tree₀ stored₀ tree stored) :
    Founded laws c tree stored := by
  induction h with
  | start => exact hstart
  | @applied tree tree' stored root root' order txs deposits forcedTxs ex _ hroot hops hbatch ih =>
    have hkept : ∀ r, IsHead stored r → ∃ s, Holds laws c tree' r s := by
      intro r hr
      obtain ⟨s, hs⟩ := ih.holds r hr
      exact ⟨s, hs.batchOn ⟨order, root, txs, deposits, forcedTxs, by rw [hbatch]⟩⟩
    split
    · exact ⟨ih.not_mem, hkept⟩
    · rename_i hcached
      obtain ⟨s, hs⟩ := ih.holds root hroot
      obtain ⟨ex', hops', hholds⟩ := hs.applied hshort hbatch
      obtain rfl := (Prod.mk.inj (hops.symm.trans hops')).2
      have hne : root' ≠ Hash.default := hholds.ne_default hcached
      refine ⟨?_, ?_⟩
      · rw [List.mem_cons, not_or]
        exact ⟨hne.symm, ih.not_mem⟩
      · rintro r (rfl | hmem)
        · exact hkept _ (Or.inl rfl)
        · rcases List.mem_cons.mp hmem with rfl | hmem
          · exact ⟨_, hholds⟩
          · exact hkept r (Or.inr hmem)
  | @failed tree tree' stored root order txs deposits forcedTxs e _ hroot hbatch ih =>
    refine ⟨ih.not_mem, fun r hr ↦ ?_⟩
    obtain ⟨s, hs⟩ := ih.holds r hr
    exact ⟨s, hs.batchOn ⟨order, root, txs, deposits, forcedTxs, by rw [hbatch]⟩⟩

/-! ## The executor -/

/-- Into the empty tree, a batch with a deposit goes through up to its insertion. -/
theorem applyOps_default (m : Monotree T) (hshort : bincode.RefusesShort) (tree : T) (d : Deposit)
    (ds : List Deposit) (ops : List Op) : ∃ ex,
      (BlockExecutor.new tree (some Hash.default)).applyOps (Core.getAccount m bincode)
        ((d :: ds).map Op.deposit ++ ops) = (.ok (), ex) ∧ ex.accountCache.entries ≠ [] := by
  obtain ⟨ex, hops, -⟩ := BlockExecutor.applyOps_refines
    (BlockExecutor.new tree (some Hash.default)) ((d :: ds).map Op.deposit ++ ops)
    (reads_empty m bincode tree)
  have hnew : (BlockExecutor.new tree (some Hash.default)).CacheNew (Core.getAccount m bincode) :=
    fun k hk ↦ absurd (BlockExecutor.fresh_new tree _ k) hk
  obtain ⟨-, hcached⟩ :=
    hnew.deposits_opened (getAccount_barren m hshort) hops d (List.mem_cons_self ..)
  exact ⟨ex, hops, fun hnil ↦ hcached (lookup_of_entries_nil hnil _)⟩

/-- **The executor keeps to the stored roots** unless it puts the first deposits into the empty
tree. -/
theorem applyOptimisticBatch_stray_iff (hshort : bincode.RefusesShort)
    (hm : m.CalmAt tree stored) (hdefault : Hash.default ∉ stored) (hroot : IsHead stored root)
    (order : IterOrder)
    (txs : List Transaction) (deposits : List Deposit) (forcedTxs : List ForcedTx) :
    (applyOptimisticBatch (Core.getAccount (m.guard stored) bincode) (m.guard stored) c order tree
      (some root) txs deposits forcedTxs).1.PanicsWith strayRoot ↔
        root = Hash.default ∧ deposits ≠ [] := by
  by_cases hempty : root = Hash.default
  swap
  · have hread : BlockExecutor.ReadsCalmly (Core.getAccount (m.guard stored) bincode) strayRoot
        tree (some root) := by
      intro k
      rw [getAccount_guard hroot]
      exact hm.getAccount hroot bincode k strayRoot
    have hmem : root ∈ stored := hroot.resolve_left hempty
    have hinserts : ∀ ks vs,
        ¬ ((m.guard stored).inserts tree (some root) ks vs).1.PanicsWith strayRoot := by
      intro ks vs
      rw [guard_inserts hmem]
      exact hm.inserts root hmem ks vs strayRoot
    have hcalm := applyOptimisticBatch_calm hread hinserts c order txs deposits forcedTxs
    exact iff_of_false hcalm fun h ↦ hempty h.1
  subst hempty
  rw [applyOptimisticBatch_eq]
  cases deposits with
  | nil =>
    rw [← applyOptimisticBatch_eq, applyOptimisticBatch_default _ hshort]
    exact iff_of_false Run.not_panicsWith_ok fun h ↦ h.2 rfl
  | cons d ds =>
    obtain ⟨ex, hops, hcached⟩ := applyOps_default (m.guard stored) hshort tree d ds
      (forcedTxs.map .forced ++ txs.map .transaction)
    have hgrows := BlockExecutor.grows_applyOps (Core.getAccount (m.guard stored) bincode)
      (BlockExecutor.new tree (some Hash.default)) (blockOps txs (d :: ds) forcedTxs)
    rw [blockOps, hops] at hgrows
    have hdefault' : ex.root = some Hash.default := hgrows.root
    rw [blockOps, hops]
    simp only
    rw [BlockExecutor.commitBlock, if_neg hcached, hdefault']
    simp only [guard_inserts_stray hdefault]
    exact iff_of_true rfl (by simp)

/-! ## The generator -/

/-- An account that is there cannot be read, and there is no proof of it. -/
theorem buildStfProof_of_found (hshort : bincode.RefusesShort) (hm : m.CalmAt tree stored)
    (hroot : IsHead stored root) {k : Hash}
    (h : ¬ NotFound (Core.getAccount m bincode) tree (some root) k) :
    ∃ e, Core.buildStfProof m bincode tree root k = Run.err e := by
  obtain ⟨e, he, hne⟩ := (getAccount_barren m hshort tree (some root) k).resolve_left h
  rw [Core.buildStfProof, he]
  cases e with
  | panic msg => exact absurd he (hm.getAccount hroot bincode k msg)
  | err e =>
    cases e with
    | accountNotFound k' => exact absurd rfl (hne k')
    | _ => exact ⟨_, rfl⟩

section

variable (hshort : bincode.RefusesShort) (hm : m.CalmAt tree stored)
  (habsent : laws.ProvesNoAbsent) (hstart : Founded laws c tree stored)

include hshort

include habsent hstart in
theorem buildStfProof_guard_of_notFound (hroot : IsHead stored root) {k : Hash}
    (h : NotFound (Core.getAccount m bincode) tree (some root) k) :
    Core.buildStfProof (m.guard stored) bincode tree root k = .ok (Core.dummyProof k) := by
  obtain ⟨s, hs⟩ := hstart.holds root hroot
  rw [buildStfProof_guard hroot, hs.buildStfProof habsent ((hs.notFound_iff hshort k).mp h)]

include hm

theorem buildStfProof_guard_of_found (hroot : IsHead stored root) {k : Hash}
    (h : ¬ NotFound (Core.getAccount m bincode) tree (some root) k) :
    ∃ e, Core.buildStfProof (m.guard stored) bincode tree root k = Run.err e := by
  rw [buildStfProof_guard hroot]
  exact buildStfProof_of_found hshort hm hroot h

/-- An operation that does not move the root. -/
theorem nextRoot_stays_stray_iff {op : Op} (hop : ¬ op.moves = true)
    {next : Hash → Run CoreError Hash} :
    ¬ (Core.nextRoot (m.guard stored) bincode c tree root op >>= next).PanicsWith strayRoot ↔
      (op.asks → IsHead stored root) ∧ ¬ (next root).PanicsWith strayRoot := by
  cases op with
  | deposit d => exact absurd rfl hop
  | forced tx =>
    have hdummy : tx.from_ = Hash.default := by simpa [Op.moves] using hop
    rw [nextRoot_of_dummy ⟨tx, rfl, hdummy⟩, Run.ok_bind]
    simp [Op.asks, hdummy]
  | transaction tx =>
    by_cases hroot : IsHead stored root
    · have hcalm : ∀ msg, ¬ (Core.getAccount (m.guard stored) bincode tree (some root)
          tx.from_).PanicsWith msg := by
        rw [getAccount_guard hroot]
        exact hm.getAccount hroot bincode tx.from_
      rw [nextRoot_of_tx (getAccount_barren _ hshort) tx hcalm, Run.ok_bind]
      simp [hroot]
    · have hstep : Core.nextRoot (m.guard stored) bincode c tree root (.transaction tx)
          = Run.panic strayRoot := by
        rw [Core.nextRoot, Core.generateTx, getAccount_stray hroot]
        rfl
      rw [hstep]
      exact iff_of_false (fun h ↦ h rfl) fun h ↦ hroot (h.1 rfl)

include habsent hstart

/-- One that does, from accounts that are not there. -/
theorem nextRoot_new_stray_iff {op : Op} (hop : op.moves = true) (hroot : IsHead stored root)
    (hkey : NotFound (Core.getAccount m bincode) tree (some root) op.key)
    (hrec : NotFound (Core.getAccount m bincode) tree (some root) op.recipient)
    {next : Hash → Run CoreError Hash} :
    ¬ (Core.nextRoot (m.guard stored) bincode c tree root op >>= next).PanicsWith strayRoot ↔
      match op.opening with
      | .refused => True
      | .one a => ¬ (next (a.hash c)).PanicsWith strayRoot
      | .two a b => IsHead stored (a.hash c) ∧
          (NotFound (Core.getAccount m bincode) tree (some (a.hash c)) op.recipient →
            ¬ (next (b.hash c)).PanicsWith strayRoot) := by
  have hstep := nextRoot_of_new (c := c) hop
    (buildStfProof_guard_of_notFound hshort habsent hstart hroot hkey)
    (buildStfProof_guard_of_notFound hshort habsent hstart hroot hrec)
  cases hcase : op.opening with
  | refused =>
    rw [hcase] at hstep
    obtain ⟨e, he⟩ := hstep
    rw [he]
    exact iff_of_true Run.not_panicsWith_err trivial
  | one a =>
    rw [hcase] at hstep
    rw [hstep]
    rfl
  | two a b =>
    rw [hcase] at hstep
    rw [hstep]
    by_cases hsender : IsHead stored (a.hash c)
    swap
    · rw [buildStfProof_stray hsender]
      exact iff_of_false (fun h ↦ h rfl) fun h ↦ hsender h.1
    by_cases hagain : NotFound (Core.getAccount m bincode) tree (some (a.hash c)) op.recipient
    · rw [buildStfProof_guard_of_notFound hshort habsent hstart hsender hagain]
      simp only [hsender, hagain, true_and, forall_const]
      rfl
    · obtain ⟨e, he⟩ := buildStfProof_guard_of_found hshort hm hsender hagain
      rw [he]
      exact iff_of_true Run.not_panicsWith_err ⟨hsender, fun h ↦ absurd h hagain⟩

/-- **One operation** of the generator. -/
theorem nextRoot_stray_iff (root : Hash) (op : Op) {next : Hash → Run CoreError Hash}
    {rest : Hash → Prop} (hnext : ∀ root', ¬ (next root').PanicsWith strayRoot ↔ rest root') :
    ¬ (Core.nextRoot (m.guard stored) bincode c tree root op >>= next).PanicsWith strayRoot ↔
      op.AsksStored m bincode c tree stored root rest := by
  rw [Op.AsksStored]
  simp only [← hnext]
  by_cases hop : op.moves = true
  swap
  · rw [if_neg hop]
    exact nextRoot_stays_stray_iff hshort hm hop
  rw [if_pos hop]
  by_cases hroot : IsHead stored root
  swap
  · rw [nextRoot_of_failed hop (buildStfProof_stray hroot op.key)]
    exact iff_of_false (fun h ↦ h rfl) fun h ↦ hroot h.1
  by_cases hkey : NotFound (Core.getAccount m bincode) tree (some root) op.key
  swap
  · obtain ⟨e, he⟩ := buildStfProof_guard_of_found hshort hm hroot hkey
    rw [nextRoot_of_failed hop he]
    exact iff_of_true Run.not_panicsWith_err ⟨hroot, fun h ↦ absurd h hkey⟩
  by_cases hrec : NotFound (Core.getAccount m bincode) tree (some root) op.recipient
  swap
  · obtain ⟨e, he⟩ := buildStfProof_guard_of_found hshort hm hroot hrec
    have hfrom := buildStfProof_guard_of_notFound hshort habsent hstart hroot hkey
    rw [nextRoot_of_recipient_failed hop hfrom he]
    exact iff_of_true Run.not_panicsWith_err ⟨hroot, fun _ h ↦ absurd h hrec⟩
  rw [nextRoot_new_stray_iff hshort hm habsent hstart hop hroot hkey hrec]
  simp only [hroot, hkey, hrec, true_and, forall_const]

/-- **The generator keeps to the stored roots** exactly as long as it meets its operations there. -/
theorem generateProofsForBlock_stray_iff (block : PendingBlock) :
    ¬ (Core.generateProofsForBlock (m.guard stored) bincode c tree block).PanicsWith strayRoot ↔
      AsksStored m bincode c tree stored block.preStateRoot block.ops := by
  have hloop : ∀ (ops : List Op) (root : Hash),
      ¬ (ops.foldlM (Core.nextRoot (m.guard stored) bincode c tree) root).PanicsWith strayRoot ↔
        AsksStored m bincode c tree stored root ops := by
    intro ops
    induction ops with
    | nil => exact fun root ↦ iff_of_true Run.not_panicsWith_ok trivial
    | cons op ops ih =>
      intro root
      rw [List.foldlM_cons]
      exact nextRoot_stray_iff hshort hm habsent hstart root op ih
  rw [generateProofsForBlock_panicsWith, ← hloop]
  -- The comparison of the roots has another message.
  simp [strayRoot]

end

/-- **When the tree is asked at stored roots only.**  After any batches and from any head: the
executor asks so unless it puts deposits into the empty tree, and the generator exactly if it meets
the operations of its block at stored roots or the root of the empty tree. -/
theorem queries_stored_iff {laws : MonotreeLaws m} (habsent : laws.ProvesNoAbsent)
    (hshort : bincode.RefusesShort) {tree₀ : T} {stored₀ : List Hash}
    (hstart : Founded laws c tree₀ stored₀) (h : Recorded m bincode c tree₀ stored₀ tree stored)
    (hm : m.CalmAt tree stored) (hroot : IsHead stored root) :
    (∀ order txs deposits forcedTxs,
      ¬ (applyOptimisticBatch (Core.getAccount (m.guard stored) bincode) (m.guard stored) c order
        tree (some root) txs deposits forcedTxs).1.PanicsWith strayRoot ↔
          root ≠ Hash.default ∨ deposits = []) ∧
    ∀ block : PendingBlock, block.preStateRoot = root →
      (¬ (Core.generateProofsForBlock (m.guard stored) bincode c tree block).PanicsWith strayRoot ↔
        AsksStored m bincode c tree stored root block.ops) := by
  have hfounded := h.founded hshort hstart
  constructor
  · intro order txs deposits forcedTxs
    rw [applyOptimisticBatch_stray_iff hshort hm hfounded.not_mem hroot, not_and_or, not_not]
  · rintro block rfl
    exact generateProofsForBlock_stray_iff hshort hm habsent hfounded block

end

/-! ## Deposits to one account

The executor inserts the first deposits of all at the all-zero root.  Later, of two deposits to one
new account, the generator asks for the second at the digest of the account with the first. -/

namespace TwoDeposits

open FirstDeposit (c alice account tree')

abbrev m : Monotree MemTree := MemTree.monotree c

def bob : Hash := Hash.ofByte 2

def deposit : Deposit := { to_ := bob, amount := 10, timestamp := 0 }

def bob₁ : Account := { id := bob, balance := 10, nonce := 0 }

def bob₂ : Account := { id := bob, balance := 20, nonce := 0 }

def entries : List (Hash × Hash) := [(alice, account.hash c), (bob, bob₂.hash c)]

def root : Hash := MemTree.rootOf c entries

def tree₂ : MemTree := (root, entries) :: tree'

def block : PendingBlock where
  blockNumber := 1
  txs := []
  deposits := [deposit, deposit]
  forcedTxs := []
  preStateRoot := account.hash c
  postStateRoot := root

theorem founded : Founded (MemTree.sortedLaws c) c tree' [account.hash c] where
  not_mem h := Payment.account_ne_default (List.mem_singleton.mp h).symm
  holds := by
    rintro r (rfl | hmem)
    · exact ⟨_, holds_empty (MemTree.sortedLaws c) tree'⟩
    · rw [List.mem_singleton.mp hmem]
      exact ⟨_, Payment.holds_deposit⟩

theorem calmAt : m.CalmAt tree' [account.hash c] := by
  have hstored : tree'.stored = [account.hash c] := by decide +kernel
  exact hstored ▸ MemTree.calmAt c tree'

theorem isHead : IsHead [account.hash c] (account.hash c) := Or.inr (List.mem_singleton_self _)

theorem applyOptimisticBatch_block : applyOptimisticBatch (Core.getAccount m Bincode.v1) m c
    IterOrder.cached tree' (some block.preStateRoot) block.txs block.deposits block.forcedTxs
      = (.ok block.postStateRoot, tree₂) := by
  decide +kernel

/-- The executor of the block, with Bob in its cache. -/
def executed : Run CoreError Unit × BlockExecutor MemTree :=
  (BlockExecutor.new tree' (some block.preStateRoot)).applyOps (Core.getAccount m Bincode.v1)
    block.ops

theorem recorded : Recorded m Bincode.v1 c tree' [account.hash c] tree₂ [root, account.hash c] := by
  have hok : executed.1 = .ok () := by decide +kernel
  have hops : executed = (.ok (), executed.2) := by rw [← hok]
  have hcached : executed.2.accountCache.entries ≠ [] := by decide +kernel
  have happlied := Recorded.applied .start isHead hops applyOptimisticBatch_block
  rwa [if_neg hcached] at happlied

theorem calmAt₂ : m.CalmAt tree₂ [root, account.hash c] := by
  have hstored : tree₂.stored = [root, account.hash c] := by decide +kernel
  exact hstored ▸ MemTree.calmAt c tree₂

theorem notFound_bob :
    NotFound (Core.getAccount m Bincode.v1) tree₂ (some (account.hash c)) bob := by
  rw [NotFound]
  decide +kernel

theorem bob₁_stray : ¬ IsHead [root, account.hash c] (bob₁.hash c) := by decide +kernel

end TwoDeposits

open TwoDeposits FirstDeposit in
/-- Both with the roots that are stored by then. -/
theorem deposits_stray :
    (Recorded m Bincode.v1 c [] [] [] [] ∧
      (applyOptimisticBatch (Core.getAccount (m.guard []) Bincode.v1) (m.guard []) c
        IterOrder.cached [] (some Hash.default) [] [FirstDeposit.deposit] []).1.PanicsWith
          strayRoot) ∧
    Founded (MemTree.sortedLaws c) c tree' [account.hash c] ∧
      Recorded m Bincode.v1 c tree' [account.hash c] tree₂ [TwoDeposits.root, account.hash c] ∧
      (Core.generateProofsForBlock (m.guard [TwoDeposits.root, account.hash c]) Bincode.v1 c tree₂
        block).PanicsWith strayRoot := by
  have hcalm : m.CalmAt [] [] := MemTree.calmAt c []
  refine ⟨⟨.start, ?_⟩, founded, recorded, ?_⟩
  · exact (applyOptimisticBatch_stray_iff Bincode.v1_refusesShort hcalm List.not_mem_nil
      (Or.inl rfl) IterOrder.cached [] [FirstDeposit.deposit] []).mpr ⟨rfl, by simp⟩
  · by_contra hasks
    have hfounded := recorded.founded Bincode.v1_refusesShort founded
    rw [generateProofsForBlock_stray_iff Bincode.v1_refusesShort calmAt₂
      (MemTree.sortedLaws_provesNoAbsent c) hfounded] at hasks
    obtain ⟨hroot, -⟩ := hasks.2 notFound_bob notFound_bob
    exact bob₁_stray hroot

open TwoDeposits FirstDeposit in
theorem queries_stored_iff_deposits :
    ¬ (applyOptimisticBatch (Core.getAccount (m.guard [account.hash c]) Bincode.v1)
        (m.guard [account.hash c]) c IterOrder.cached tree' (some (account.hash c)) []
        [TwoDeposits.deposit] []).1.PanicsWith strayRoot ∧
      ¬ (Core.generateProofsForBlock (m.guard [account.hash c]) Bincode.v1 c tree'
        { block with deposits := [TwoDeposits.deposit] }).PanicsWith strayRoot := by
  have hcalls := queries_stored_iff (MemTree.sortedLaws_provesNoAbsent c) Bincode.v1_refusesShort
    founded .start calmAt isHead
  refine ⟨(hcalls.1 _ _ _ _).mpr (Or.inl Payment.account_ne_default), ?_⟩
  exact (hcalls.2 _ rfl).mpr ⟨isHead, fun _ _ ↦ trivial⟩

end TinyRollup
