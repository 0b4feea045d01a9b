import TinyRollup.Core.Conservation
import TinyRollup.Core.ReadBack

/-!
# Reachable state trees

The states that optimistic batches reach from the empty tree.  `Reachable tree root s` keeps along
the accounts `s` that have been committed, which the tree itself does not: its leaves are their
hashes.  `Reachable.holds` is the invariant, from the laws of the tree.
-/

set_option autoImplicit false

namespace TinyRollup

open ByteString Stf AccountMap

section

variable {T : Type} (m : Monotree T) (bincode : Bincode) (c : Crypto)

/-- A tree with the root of its accounts, after any batches.  A batch that fails may still have
changed the tree. -/
inductive Reachable : T → Hash → AccountMap → Prop
  | empty (tree : T) : Reachable tree Hash.default fun _ ↦ none
  | applied {tree tree' : T} {root root' : Hash} {s : AccountMap} {order : IterOrder}
      {txs : List Transaction} {deposits : List Deposit} {forcedTxs : List ForcedTx}
      {ex : BlockExecutor T} (h : Reachable tree root s)
      (hops : (BlockExecutor.new tree (some root)).applyOps (Core.getAccount m bincode)
        (blockOps txs deposits forcedTxs) = (.ok (), ex))
      (hbatch : applyOptimisticBatch (Core.getAccount m bincode) m c order tree (some root) txs
        deposits forcedTxs = (.ok root', tree')) :
      Reachable tree' root' (ex.view s)
  | failed {tree tree' : T} {root : Hash} {s : AccountMap} {order : IterOrder}
      {txs : List Transaction} {deposits : List Deposit} {forcedTxs : List ForcedTx}
      {e : Halt CoreError} (h : Reachable tree root s)
      (hbatch : applyOptimisticBatch (Core.getAccount m bincode) m c order tree (some root) txs
        deposits forcedTxs = (.error e, tree')) :
      Reachable tree' root s

/-- A batch was applied to the tree. -/
def BatchOn (tree tree' : T) : Prop :=
  ∃ order root txs deposits forcedTxs,
    (applyOptimisticBatch (Core.getAccount m bincode) m c order tree (some root) txs deposits
      forcedTxs).2 = tree'

end

/-! ## The accounts of the cache -/

namespace BlockExecutor

variable {T : Type} {read : Reader T} {ex : BlockExecutor T}

/-- Every cached account has its key as id. -/
def Keyed (ex : BlockExecutor T) : Prop := ∀ k a, ex.accountCache.lookup k = some a → a.id = k

theorem keyed_new (tree : T) (root : Option Hash) : (new tree root).Keyed :=
  fun _ _ h ↦ absurd h (by simp [new])

theorem Keyed.cacheInsert (h : ex.Keyed) {key : Hash} {a : Account} (ha : a.id = key) :
    (ex.cacheInsert key a).Keyed := by
  intro k b hb
  rw [lookup_cacheInsert] at hb
  split at hb
  · rename_i hk
    obtain rfl := Option.some_inj.mp hb
    exact ha.trans hk.symm
  · exact h k b hb

/-- The helper shows a cached account or an error. -/
theorem Keyed.getAccountHelper (h : ex.Keyed) (hread : Barren read) (address : Hash) :
    (ex.getAccountHelper read address).2 = ex ∧
      ∀ a, (ex.getAccountHelper read address).1 = .ok a → a.id = address := by
  rcases getAccountHelper_cases read ex address with
    ⟨a, hcache, hget⟩ | ⟨a, -, hok, -⟩ | ⟨e, -, -, hget⟩
  · rw [hget]
    refine ⟨rfl, fun b hb ↦ ?_⟩
    obtain rfl := Except.ok.inj hb
    exact h address a hcache
  · exact absurd hok (hread.ne_ok _ _ _ _)
  · rw [hget]
    exact ⟨rfl, fun b hb ↦ absurd hb (by simp)⟩

theorem id_of_orNew {key : Hash} {result : Run CoreError Account} {a : Account}
    (h : ∀ b, result = .ok b → b.id = key) (ha : Core.orNew key result = .ok a) : a.id = key := by
  unfold Core.orNew at ha
  split at ha
  · obtain rfl := Except.ok.inj ha
    rfl
  · exact h a ha

theorem id_of_unwrapOr {key : Hash} {result : Run CoreError Account} {a : Account}
    (h : ∀ b, result = .ok b → b.id = key)
    (ha : Run.unwrapOr (Account.new key) result = .ok a) : a.id = key := by
  unfold Run.unwrapOr at ha
  split at ha
  · obtain rfl := Except.ok.inj ha
    rfl
  · exact h a ha

theorem Keyed.applyDeposit (h : ex.Keyed) (hread : Barren read) (d : Deposit) :
    (ex.applyDeposit read d).2.Keyed := by
  obtain ⟨hex, hid⟩ := h.getAccountHelper hread d.to_
  rw [BlockExecutor.applyDeposit]
  simp only [hex]
  split
  · exact h
  · rename_i a ha
    split
    · rename_i a' ha'
      have hto := id_of_orNew hid ha
      obtain ⟨-, rfl⟩ := applyDeposit_eq_ok_iff.mp ha'
      exact h.cacheInsert hto
    · exact h
    · exact h

theorem Keyed.applyTransfer (h : ex.Keyed) (hread : Barren read) (from_ to_ : Hash)
    {apply : Account → Account → Except StfError TransactionResult}
    {nonce fee amount : UInt64} (happly : ∀ a b, apply a b = transfer a b nonce fee amount) :
    (ex.applyTransfer read from_ to_ apply).2.Keyed := by
  obtain ⟨hex, hid⟩ := h.getAccountHelper hread from_
  obtain ⟨hexTo, hidTo⟩ := h.getAccountHelper hread to_
  rw [BlockExecutor.applyTransfer]
  rw [← Prod.eta (ex.getAccountHelper read from_), hex]
  split
  · rename_i heq
    exact (Prod.mk.inj heq).2 ▸ h
  · rename_i heq
    exact (Prod.mk.inj heq).2 ▸ h
  · rename_i a ex₁ heq
    obtain ⟨ha, rfl⟩ := Prod.mk.inj heq
    simp only [hexTo]
    split
    · exact h
    · rename_i b hb
      rw [happly]
      split
      · rename_i a' b' hr
        obtain ⟨-, -, ⟨-, hr'⟩ | ⟨-, -, hr'⟩⟩ := transfer_eq_ok_iff.mp hr
        · exact absurd hr' (by simp)
        · obtain ⟨rfl, rfl⟩ := TransactionResult.success.inj hr'
          have hfrom : (debited a fee amount).id = from_ := hid a ha
          have hto : (credited b amount).id = to_ := (credited_id b amount).trans
            (id_of_unwrapOr hidTo hb)
          rw [updateCacheSuccess]
          split
          · rename_i heq
            exact h.cacheInsert (hto.trans heq.symm)
          · exact (h.cacheInsert hfrom).cacheInsert hto
      · rename_i a' hr
        obtain ⟨-, -, ⟨-, hr'⟩ | ⟨-, -, hr'⟩⟩ := transfer_eq_ok_iff.mp hr
        · obtain rfl := TransactionResult.failure.inj hr'
          exact h.cacheInsert (hid a ha)
        · exact absurd hr' (by simp)
      · exact h

theorem Keyed.applyOp (h : ex.Keyed) (hread : Barren read) (op : Op) :
    (ex.applyOp read op).2.Keyed := by
  cases op with
  | deposit d => exact h.applyDeposit hread d
  | forced tx =>
    rw [BlockExecutor.applyOp, applyForcedTx]
    split
    · exact h
    · exact h.applyTransfer hread _ _ fun _ _ ↦ rfl
  | transaction tx => exact h.applyTransfer hread _ _ fun _ _ ↦ rfl

theorem Keyed.applyOps (h : ex.Keyed) (hread : Barren read) (ops : List Op) :
    (ex.applyOps read ops).2.Keyed := by
  induction ops generalizing ex with
  | nil => exact h
  | cons op ops ih =>
    have hkeyed := h.applyOp hread op
    rw [BlockExecutor.applyOps]
    split
    · rename_i ex' heq
      rw [heq] at hkeyed
      exact ih hkeyed
    · rename_i ex' heq
      rwa [heq] at hkeyed

/-! ### The deposits of a batch -/

/-- Of what was cached nothing is in the tree. -/
def CacheNew (read : Reader T) (ex : BlockExecutor T) : Prop :=
  ∀ k, ex.accountCache.lookup k ≠ none → NotFound read ex.tree ex.root k

/-- A deposit that goes through is to an account that is not in the tree, and leaves it cached. -/
theorem CacheNew.applyDeposit (h : ex.CacheNew read) (hread : Barren read) {d : Deposit}
    (hok : (ex.applyDeposit read d).1 = .ok ()) :
    NotFound read ex.tree ex.root d.to_ ∧
      (ex.applyDeposit read d).2.accountCache.lookup d.to_ ≠ none ∧
      (ex.applyDeposit read d).2.CacheNew read := by
  have hinsert : ∀ a, NotFound read ex.tree ex.root d.to_ →
      (ex.cacheInsert d.to_ a).CacheNew read := by
    intro a hnot k hk
    rw [lookup_cacheInsert] at hk
    split at hk
    · rename_i heq
      exact heq ▸ hnot
    · exact h k hk
  have hcached : ∀ a, (ex.cacheInsert d.to_ a).accountCache.lookup d.to_ ≠ none := by
    intro a
    rw [lookup_cacheInsert, if_pos rfl]
    simp
  rcases getAccountHelper_cases read ex d.to_ with
    ⟨a, hcache, hget⟩ | ⟨a, -, hread', -⟩ | ⟨e, hcache, he, hget⟩
  · have hlookup : ex.accountCache.lookup d.to_ ≠ none := by
      rw [hcache]
      simp
    have hnot := h d.to_ hlookup
    refine ⟨hnot, ?_⟩
    rw [BlockExecutor.applyDeposit, hget] at hok ⊢
    simp only [Core.orNew] at hok ⊢
    cases ha : Stf.applyDeposit a d with
    | ok a' => exact ⟨hcached a', hinsert a' hnot⟩
    | error e =>
      obtain ⟨-, rfl⟩ := applyDeposit_eq_error_iff.mp ha
      exact ⟨hlookup, h⟩
  · exact absurd hread' (hread.ne_ok _ _ _ _)
  · rcases hread ex.tree ex.root d.to_ with hnot | ⟨e', he', hne⟩
    · refine ⟨hnot, ?_⟩
      obtain rfl := Except.error.inj (he.symm.trans hnot)
      rw [BlockExecutor.applyDeposit, hget]
      simp only [Core.orNew, applyDeposit_new]
      exact ⟨hcached _, hinsert _ hnot⟩
    · obtain rfl := Except.error.inj (he.symm.trans he')
      rw [BlockExecutor.applyDeposit, hget] at hok
      rcases e with err | msg
      · cases err with
        | accountNotFound k => exact absurd rfl (hne k)
        | _ => exact absurd hok (by simp [Core.orNew])
      · exact absurd hok (by simp [Core.orNew])

theorem applyOps_cons_ok {ex' : BlockExecutor T} {op : Op} {ops : List Op}
    (h : ex.applyOps read (op :: ops) = (.ok (), ex')) :
    (ex.applyOp read op).1 = .ok () ∧ (ex.applyOp read op).2.applyOps read ops = (.ok (), ex') := by
  rw [BlockExecutor.applyOps] at h
  split at h
  · rename_i heq
    rw [heq]
    exact ⟨rfl, h⟩
  · exact absurd h (by simp)

theorem grows_applyOps (read : Reader T) (ex : BlockExecutor T) (ops : List Op) :
    Grows ex (ex.applyOps read ops).2 := by
  induction ops generalizing ex with
  | nil => exact Grows.refl ex
  | cons op ops ih =>
    have hgrows := grows_applyOp read ex op
    rw [BlockExecutor.applyOps]
    split
    · rename_i ex' heq
      rw [heq] at hgrows
      exact hgrows.trans (ih ex')
    · rename_i ex' heq
      rw [heq] at hgrows
      exact hgrows

/-- **The deposits of a batch that goes through are to accounts that are not in the tree.** -/
theorem CacheNew.deposits_opened {ds : List Deposit} {ops : List Op} {ex' : BlockExecutor T}
    (h : ex.CacheNew read) (hread : Barren read)
    (hok : ex.applyOps read (ds.map Op.deposit ++ ops) = (.ok (), ex')) :
    ∀ d ∈ ds, NotFound read ex.tree ex.root d.to_ ∧ ex'.accountCache.lookup d.to_ ≠ none := by
  induction ds generalizing ex with
  | nil => simp
  | cons d ds ih =>
    rw [List.map_cons, List.cons_append] at hok
    obtain ⟨hop, hrest⟩ := applyOps_cons_ok hok
    obtain ⟨hnot, hcached, hnew⟩ := h.applyDeposit hread hop
    have hgrows := grows_applyDeposit read ex d
    have hgrows' := grows_applyOps read (ex.applyOp read (.deposit d)).2 (ds.map Op.deposit ++ ops)
    rw [hrest] at hgrows'
    rw [List.forall_mem_cons]
    refine ⟨⟨hnot, hgrows'.cached _ hcached⟩, fun d' hd' ↦ ?_⟩
    have hlater := ih hnew hrest d' hd'
    rwa [hgrows.tree, hgrows.root] at hlater

end BlockExecutor

/-! ## The invariant -/

/-- The tree has the hashes of the accounts `s` under this root. -/
structure Holds {T : Type} {m : Monotree T} (laws : MonotreeLaws m) (c : Crypto) (tree : T)
    (root : Hash) (s : AccountMap) : Prop where
  known : laws.known tree root
  leaf : ∀ k, laws.leaf tree root k = (s k).map (Account.hash c)
  keyed : ∀ k a, s k = some a → a.id = k
  nonempty : root ≠ Hash.default → ∃ k a, s k = some a

section

variable {T : Type} {m : Monotree T} {bincode : Bincode} {c : Crypto} {laws : MonotreeLaws m}
  {tree tree' : T} {root root' : Hash} {s : AccountMap}

theorem holds_empty (laws : MonotreeLaws m) (tree : T) :
    Holds laws c tree Hash.default fun _ ↦ none where
  known := laws.known_default tree
  leaf k := laws.leaf_default tree k
  keyed _ _ h := absurd h (by simp)
  nonempty h := absurd rfl h

/-- What the tree returns for a key. -/
theorem Holds.getAccount_eq (h : Holds laws c tree root s) (hroot : root ≠ Hash.default)
    (k : Hash) :
    Core.getAccount m bincode tree (some root) k =
      match s k with
      | some a => Run.okOr (bincode.account (a.hash c).toList) (.accountDataCorrupted k)
      | none => Run.err (.accountNotFound k) := by
  rw [Core.getAccount, if_neg (by simpa using hroot), laws.get_eq tree root k hroot h.known, h.leaf]
  cases s k <;> rfl

theorem Holds.notFound (h : Holds laws c tree root s) {k : Hash} (hnone : s k = none) :
    NotFound (Core.getAccount m bincode) tree (some root) k := by
  by_cases hroot : root = Hash.default
  · rw [NotFound, Core.getAccount, if_pos (congrArg some hroot)]
  · rw [NotFound, h.getAccount_eq hroot, hnone]

/-- A root with an account is not the root of the empty tree. -/
theorem Holds.root_ne_default (h : Holds laws c tree root s) {k : Hash} {a : Account}
    (ha : s k = some a) : root ≠ Hash.default := by
  rintro rfl
  have hleaf := h.leaf k
  rw [laws.leaf_default, ha] at hleaf
  exact absurd hleaf (by simp)

/-- An account that has been committed cannot be read. -/
theorem Holds.getAccount_stored (h : Holds laws c tree root s) (hshort : bincode.RefusesShort)
    {k : Hash} {a : Account} (ha : s k = some a) :
    Core.getAccount m bincode tree (some root) k = Run.err (.accountDataCorrupted k) := by
  have hnone : bincode.account (a.hash c).toList = none := hshort _ (by simp)
  rw [h.getAccount_eq (h.root_ne_default ha), ha]
  simp only [hnone, Run.okOr]

/-- An account is not found exactly if it has not been committed. -/
theorem Holds.notFound_iff (h : Holds laws c tree root s) (hshort : bincode.RefusesShort)
    (k : Hash) : NotFound (Core.getAccount m bincode) tree (some root) k ↔ s k = none := by
  refine ⟨fun hnot ↦ ?_, h.notFound⟩
  by_contra hsome
  obtain ⟨a, ha⟩ := Option.ne_none_iff_exists'.mp hsome
  rw [NotFound, h.getAccount_stored hshort ha] at hnot
  exact absurd hnot (by simp [Run.err])

/-- What another batch does to the tree leaves the roots it has. -/
theorem Holds.inserts (h : Holds laws c tree root s) (root' : Option Hash) (ks vs : List Hash) :
    Holds laws c (m.inserts tree root' ks vs).2 root s where
  known := laws.known_inserts tree root root' ks vs h.known
  leaf k := by rw [laws.leaf_inserts tree root root' ks vs h.known, h.leaf]
  keyed := h.keyed
  nonempty := h.nonempty

theorem commitBlock_tree (m : Monotree T) (c : Crypto) (order : IterOrder) (ex : BlockExecutor T) :
    (ex.commitBlock m c order).2 = ex.tree ∨
      ∃ ks vs, (ex.commitBlock m c order).2 = (m.inserts ex.tree ex.root ks vs).2 := by
  rw [BlockExecutor.commitBlock]
  split
  · exact Or.inl rfl
  · exact Or.inr ⟨_, _, rfl⟩

/-- A batch reads the tree and inserts into it at most once. -/
theorem applyOptimisticBatch_tree (m : Monotree T) (bincode : Bincode) (c : Crypto)
    (order : IterOrder) (tree : T) (root : Option Hash) (txs : List Transaction)
    (deposits : List Deposit) (forcedTxs : List ForcedTx) :
    (applyOptimisticBatch (Core.getAccount m bincode) m c order tree root txs deposits forcedTxs).2
        = tree ∨
      ∃ ks vs, (applyOptimisticBatch (Core.getAccount m bincode) m c order tree root txs deposits
        forcedTxs).2 = (m.inserts tree root ks vs).2 := by
  have hgrows := BlockExecutor.grows_applyOps (Core.getAccount m bincode)
    (BlockExecutor.new tree root) (blockOps txs deposits forcedTxs)
  rw [applyOptimisticBatch_eq]
  split
  · rename_i heq
    rw [heq] at hgrows
    exact Or.inl hgrows.tree
  · rename_i ex heq
    rw [heq] at hgrows
    have htree : ex.tree = tree := hgrows.tree
    have hroot : ex.root = root := hgrows.root
    rw [← htree, ← hroot]
    exact commitBlock_tree m c order ex

theorem Holds.batchOn (h : Holds laws c tree root s) (hbatch : BatchOn m bincode c tree tree') :
    Holds laws c tree' root s := by
  obtain ⟨order, root', txs, deposits, forcedTxs, rfl⟩ := hbatch
  rcases applyOptimisticBatch_tree m bincode c order tree (some root') txs deposits forcedTxs with
    heq | ⟨ks, vs, heq⟩
  · rwa [heq]
  · rw [heq]
    exact h.inserts _ _ _

theorem Holds.later (h : Holds laws c tree root s)
    (hlater : Relation.ReflTransGen (BatchOn m bincode c) tree tree') :
    Holds laws c tree' root s := by
  induction hlater with
  | refl => exact h
  | tail _ hbatch ih => exact ih.batchOn hbatch

/-- The entries of a cache in the order of an iteration. -/
theorem IterOrder.mem_entries (order : IterOrder) (cache : AccountCache) (k : Hash) (a : Account) :
    (k, a) ∈ order.entries cache ↔ cache.lookup k = some a := by
  rw [(order.perm cache).mem_iff, List.mem_map]
  constructor
  · rintro ⟨e, he, heq⟩
    obtain ⟨rfl, rfl⟩ := Prod.mk.inj heq
    exact AList.mem_lookup_iff.mpr he
  · intro h
    exact ⟨⟨k, a⟩, AList.mem_lookup_iff.mp h, rfl⟩

theorem IterOrder.nodup_keys (order : IterOrder) (cache : AccountCache) :
    ((order.entries cache).map Prod.fst).Nodup := by
  have hperm := (order.perm cache).map Prod.fst
  rw [hperm.nodup_iff, List.map_map]
  exact cache.nodupKeys

theorem lookup_of_mem {es : List (Hash × Hash)} (hnd : (es.map Prod.fst).Nodup) {k v : Hash} :
    es.lookup k = some v ↔ (k, v) ∈ es := by
  induction es with
  | nil => simp
  | cons e es ih =>
    obtain ⟨k', v'⟩ := e
    rw [List.map_cons, List.nodup_cons] at hnd
    rw [MemTree.lookup_cons_eq, List.mem_cons, Prod.mk.injEq]
    split
    · rename_i hk
      subst hk
      rw [Option.some_inj]
      constructor
      · rintro rfl
        exact Or.inl ⟨rfl, rfl⟩
      · rintro (⟨-, rfl⟩ | hmem)
        · rfl
        · exact absurd (List.mem_map.mpr ⟨_, hmem, rfl⟩) hnd.1
    · rename_i hk
      rw [ih hnd.2]
      exact ⟨Or.inr, fun h ↦ h.resolve_left fun h ↦ hk h.1⟩

theorem lookup_of_entries_nil {cache : AccountCache} (h : cache.entries = []) (k : Hash) :
    cache.lookup k = none := by
  rw [Option.eq_none_iff_forall_ne_some]
  intro a ha
  have hmem := AList.mem_lookup_iff.mp ha
  rw [h] at hmem
  exact absurd hmem (by simp)

/-- What a commit inserts: the hashes of the cached accounts, every key once. -/
theorem commitBlock_inserts {ex : BlockExecutor T} {order : IterOrder}
    (hcached : ex.accountCache.entries ≠ [])
    (hcommit : ex.commitBlock m c order = (.ok root', tree')) :
    ∃ es : List (Hash × Hash), (es.map Prod.fst).Nodup ∧
      m.inserts ex.tree ex.root (es.map Prod.fst) (es.map Prod.snd) = (.ok (some root'), tree') ∧
      ∀ k, es.lookup k = (ex.accountCache.lookup k).map (Account.hash c) := by
  rw [BlockExecutor.commitBlock, if_neg hcached] at hcommit
  obtain ⟨hr, htree'⟩ := Prod.mk.inj hcommit
  obtain ⟨o, ho, hr⟩ := Run.bind_eq_ok.mp hr
  rw [Run.okOr_eq_ok] at hr
  subst hr
  rw [Run.mapErr_eq_ok] at ho
  let es := (order.entries ex.accountCache).map fun e ↦ (e.1, e.2.hash c)
  have hks : (order.entries ex.accountCache).map Prod.fst = es.map Prod.fst := by
    rw [List.map_map]
    rfl
  have hvs : (order.entries ex.accountCache).map (fun e ↦ e.2.hash c) = es.map Prod.snd := by
    rw [List.map_map]
    rfl
  have hnd : (es.map Prod.fst).Nodup := hks ▸ order.nodup_keys ex.accountCache
  rw [hks, hvs] at ho htree'
  refine ⟨es, hnd, Prod.ext ho htree', fun k ↦ Option.ext fun v ↦ ?_⟩
  rw [lookup_of_mem hnd, List.mem_map, Option.map_eq_some_iff]
  constructor
  · rintro ⟨⟨k', a⟩, hmem, heq⟩
    obtain ⟨rfl, rfl⟩ := Prod.mk.inj heq
    exact ⟨a, (order.mem_entries _ _ _).mp hmem, rfl⟩
  · rintro ⟨a, ha, rfl⟩
    exact ⟨(k, a), (order.mem_entries _ _ _).mpr ha, rfl⟩

/-- A commit writes the hashes of the cached accounts over the leaves that were there. -/
theorem commitBlock_leaf (ex : BlockExecutor T) {order : IterOrder}
    (hknown : laws.known ex.tree root) (hroot : ex.root = some root)
    (hcommit : ex.commitBlock m c order = (.ok root', tree')) :
    laws.known tree' root' ∧ ∀ k, laws.leaf tree' root' k
      = ((ex.accountCache.lookup k).map (Account.hash c)).or (laws.leaf ex.tree root k) := by
  by_cases hempty : ex.accountCache.entries = []
  · rw [BlockExecutor.commitBlock, if_pos hempty, hroot, Option.getD_some] at hcommit
    obtain ⟨hr, rfl⟩ := Prod.mk.inj hcommit
    obtain rfl := Except.ok.inj hr
    refine ⟨hknown, fun k ↦ ?_⟩
    rw [lookup_of_entries_nil hempty, Option.map_none, Option.none_or]
  · obtain ⟨es, hnd, hinserts, hes⟩ := commitBlock_inserts hempty hcommit
    rw [hroot] at hinserts
    refine ⟨laws.inserts_known ex.tree tree' root root' _ _ hknown hinserts, fun k ↦ ?_⟩
    rw [laws.inserts_leaf ex.tree tree' root root' es hknown hnd hinserts k, hes]

/-- **A commit moves the invariant** to the new root and the accounts the executor shows. -/
theorem Holds.commitBlock {ex : BlockExecutor T} {order : IterOrder} (h : Holds laws c tree root s)
    (htree : ex.tree = tree) (hroot : ex.root = some root) (hkeyed : ex.Keyed)
    (hcommit : ex.commitBlock m c order = (.ok root', tree')) :
    Holds laws c tree' root' (ex.view s) := by
  have hview : ∀ k, ex.view s k = (ex.accountCache.lookup k).or (s k) := fun _ ↦ rfl
  obtain ⟨hknown, hleaf⟩ := commitBlock_leaf ex (htree ▸ h.known) hroot hcommit
  refine ⟨hknown, fun k ↦ ?_, fun k a ha ↦ ?_, fun hne ↦ ?_⟩
  · rw [hleaf, htree, h.leaf, hview]
    cases ex.accountCache.lookup k <;> rfl
  · rw [hview, Option.or_eq_some_iff] at ha
    rcases ha with ha | ⟨-, ha⟩
    · exact hkeyed k a ha
    · exact h.keyed k a ha
  · by_cases hempty : ex.accountCache.entries = []
    · rw [BlockExecutor.commitBlock, if_pos hempty, hroot, Option.getD_some] at hcommit
      obtain rfl := Except.ok.inj (Prod.mk.inj hcommit).1
      obtain ⟨k, a, ha⟩ := h.nonempty hne
      exact ⟨k, a, by rw [hview, lookup_of_entries_nil hempty, Option.none_or, ha]⟩
    · obtain ⟨e, he⟩ := List.exists_mem_of_ne_nil _ hempty
      have hlookup : ex.accountCache.lookup e.1 = some e.2 := AList.mem_lookup_iff.mpr he
      exact ⟨e.1, e.2, by rw [hview, hlookup, Option.some_or]⟩

/-- A batch that goes through moves the invariant to the accounts the executor has in the end. -/
theorem Holds.applied {order : IterOrder} {txs : List Transaction} {deposits : List Deposit}
    {forcedTxs : List ForcedTx} (h : Holds laws c tree root s) (hshort : bincode.RefusesShort)
    (hbatch : applyOptimisticBatch (Core.getAccount m bincode) m c order tree (some root) txs
      deposits forcedTxs = (.ok root', tree')) :
    ∃ ex, (BlockExecutor.new tree (some root)).applyOps (Core.getAccount m bincode)
        (blockOps txs deposits forcedTxs) = (.ok (), ex) ∧
      Holds laws c tree' root' (ex.view s) := by
  rw [applyOptimisticBatch_eq] at hbatch
  split at hbatch
  · exact absurd hbatch (by simp)
  rename_i ex hops
  have hgrows := BlockExecutor.grows_applyOps (Core.getAccount m bincode)
    (BlockExecutor.new tree (some root)) (blockOps txs deposits forcedTxs)
  have hkeyed := (BlockExecutor.keyed_new tree (some root)).applyOps
    (getAccount_barren m hshort) (blockOps txs deposits forcedTxs)
  rw [hops] at hgrows hkeyed
  exact ⟨ex, hops, h.commitBlock hgrows.tree hgrows.root hkeyed hbatch⟩

/-- The accounts that its deposits are made to are opened by the batch. -/
theorem Holds.deposits_opened {ops : List Op} {deposits : List Deposit} {ex : BlockExecutor T}
    (h : Holds laws c tree root s) (hshort : bincode.RefusesShort)
    (hops : (BlockExecutor.new tree (some root)).applyOps (Core.getAccount m bincode)
      (deposits.map Op.deposit ++ ops) = (.ok (), ex)) :
    ∀ d ∈ deposits, s d.to_ = none ∧ ex.view s d.to_ ≠ none := by
  intro d hd
  have hnew : (BlockExecutor.new tree (some root)).CacheNew (Core.getAccount m bincode) :=
    fun k hk ↦ absurd (BlockExecutor.fresh_new tree (some root) k) hk
  obtain ⟨hnot, hcached⟩ := hnew.deposits_opened (getAccount_barren m hshort) hops d hd
  refine ⟨(h.notFound_iff hshort _).mp hnot, ?_⟩
  rw [BlockExecutor.view]
  simp [hcached]

/-- **Every reachable tree holds the accounts that were committed.** -/
theorem Reachable.holds (laws : MonotreeLaws m) (hshort : bincode.RefusesShort)
    (h : Reachable m bincode c tree root s) : Holds laws c tree root s := by
  induction h with
  | empty tree => exact holds_empty laws tree
  | applied _ hops hbatch ih =>
    obtain ⟨ex, hops', hholds⟩ := ih.applied hshort hbatch
    obtain rfl := (Prod.mk.inj (hops.symm.trans hops')).2
    exact hholds
  | @failed tree tree' root s order txs deposits forcedTxs e _ hbatch ih =>
    exact ih.batchOn ⟨order, root, txs, deposits, forcedTxs, by rw [hbatch]⟩

end

end TinyRollup
