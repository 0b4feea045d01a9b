import TinyRollup.Core.Tree

/-!
# The block executor

`BlockExecutor` of the core and `apply_optimistic_batch` of the sequencer.

The executor reads accounts through `get_account` at the root it started from and keeps what it has
read or changed in a cache; `commit_block` writes the hashes of the cached accounts to the tree.
Between the two it only reads the tree.  `read`, a parameter of this module, is the `get_account` it
reads with.

An operation that fails leaves the executor as far as it got, so every operation returns its result
and the executor.
-/

set_option autoImplicit false

namespace TinyRollup

open ByteString Stf

/-- `HashMap<Hash, Account>`. -/
abbrev AccountCache := AList fun _ : Hash ↦ Account

/-- The order in which a `HashMap` is iterated. -/
structure IterOrder where
  entries : AccountCache → List (Hash × Account)
  perm : ∀ cache, (entries cache).Perm (cache.entries.map fun e ↦ (e.1, e.2))

/-- The entry that was written last comes first. -/
def IterOrder.cached : IterOrder where
  entries cache := cache.entries.map fun e ↦ (e.1, e.2)
  perm _ := List.Perm.refl _

structure BlockExecutor (T : Type) where
  tree : T
  root : Option Hash
  accountCache : AccountCache

/-- `get_account`. -/
abbrev Reader (T : Type) := T → Option Hash → Hash → Run CoreError Account

namespace BlockExecutor

variable {T : Type} (read : Reader T)

def new (tree : T) (root : Option Hash) : BlockExecutor T := ⟨tree, root, ∅⟩

/-- `self.account_cache.insert(key, account)`. -/
def cacheInsert (ex : BlockExecutor T) (key : Hash) (account : Account) : BlockExecutor T :=
  { ex with accountCache := ex.accountCache.insert key account }

def getAccountHelper (ex : BlockExecutor T) (address : Hash) :
    Run CoreError Account × BlockExecutor T :=
  match ex.accountCache.lookup address with
  | some account => (.ok account, ex)
  | none =>
    match read ex.tree ex.root address with
    | .ok account => (.ok account, ex.cacheInsert address account)
    | .error e => (.error e, ex)

def applyDeposit (ex : BlockExecutor T) (deposit : Deposit) :
    Run CoreError Unit × BlockExecutor T :=
  let (result, ex) := ex.getAccountHelper read deposit.to_
  match Core.orNew deposit.to_ result with
  | .error e => (.error e, ex)
  | .ok toAccount =>
    match Stf.applyDeposit toAccount deposit with
    | .ok updatedAccount => (.ok (), ex.cacheInsert deposit.to_ updatedAccount)
    | .error .balanceOverflow => (.ok (), ex)
    | .error _ => (Run.panic "apply_deposit can only return balance overflow", ex)

def updateCacheSuccess (ex : BlockExecutor T) (fromKey : Hash) (fromAccount : Account)
    (toKey : Hash) (toAccount : Account) : BlockExecutor T :=
  if fromKey = toKey then
    ex.cacheInsert fromKey toAccount
  else
    (ex.cacheInsert fromKey fromAccount).cacheInsert toKey toAccount

/-- The common body of `apply_forced_tx` and `apply_transaction`; `handle_stf_error` only prints. -/
def applyTransfer (ex : BlockExecutor T) (from_ to_ : Hash)
    (apply : Account → Account → Except StfError TransactionResult) :
    Run CoreError Unit × BlockExecutor T :=
  match ex.getAccountHelper read from_ with
  | (.error (.err (.accountNotFound _)), ex) => (.ok (), ex)
  | (.error e, ex) => (.error e, ex)
  | (.ok fromAccount, ex) =>
    let (result, ex) := ex.getAccountHelper read to_
    match Run.unwrapOr (Account.new to_) result with
    | .error e => (.error e, ex)
    | .ok toAccount =>
      match apply fromAccount toAccount with
      | .ok (.success updatedFrom updatedTo) =>
        (.ok (), ex.updateCacheSuccess from_ updatedFrom to_ updatedTo)
      | .ok (.failure updatedFrom) => (.ok (), ex.cacheInsert from_ updatedFrom)
      | .error _ => (.ok (), ex)

def applyForcedTx (ex : BlockExecutor T) (tx : ForcedTx) : Run CoreError Unit × BlockExecutor T :=
  if tx.from_ = Hash.default then (.ok (), ex)
  else ex.applyTransfer read tx.from_ tx.to_ fun from_ to_ ↦ Stf.applyForcedTx from_ to_ tx

def applyTransaction (ex : BlockExecutor T) (tx : Transaction) :
    Run CoreError Unit × BlockExecutor T :=
  ex.applyTransfer read tx.from_ tx.to_ fun from_ to_ ↦ Stf.applyTransaction from_ to_ tx

/-- `commit_block`; it returns the tree as well. -/
def commitBlock (m : Monotree T) (c : Crypto) (order : IterOrder) (ex : BlockExecutor T) :
    Run CoreError Hash × T :=
  if ex.accountCache.entries = [] then
    (.ok (ex.root.getD Hash.default), ex.tree)
  else
    let entries := order.entries ex.accountCache
    let keys := entries.map Prod.fst
    let leaves := entries.map fun e ↦ e.2.hash c
    let (result, tree) := m.inserts ex.tree ex.root keys leaves
    (do
      let newRoot ← Run.mapErr
        (fun e ↦ CoreError.databaseError ("commit_block inserts err: " ++ e)) result
      Run.okOr newRoot (.databaseError "commit_block inserts returned none err"), tree)

end BlockExecutor

/-- An operation of a block. -/
inductive Op
  | deposit (d : Deposit)
  | forced (tx : ForcedTx)
  | transaction (tx : Transaction)

/-- The operations of a block, in the order they are applied. -/
def blockOps (txs : List Transaction) (deposits : List Deposit) (forcedTxs : List ForcedTx) :
    List Op :=
  deposits.map .deposit ++ (forcedTxs.map .forced ++ txs.map .transaction)

namespace BlockExecutor

variable {T : Type} (read : Reader T)

def applyOp (ex : BlockExecutor T) : Op → Run CoreError Unit × BlockExecutor T
  | .deposit d => ex.applyDeposit read d
  | .forced tx => ex.applyForcedTx read tx
  | .transaction tx => ex.applyTransaction read tx

/-- The loops of `apply_optimistic_batch`, which stop at the first error. -/
def applyOps (ex : BlockExecutor T) : List Op → Run CoreError Unit × BlockExecutor T
  | [] => (.ok (), ex)
  | op :: ops =>
    match ex.applyOp read op with
    | (.ok (), ex) => applyOps ex ops
    | (.error e, ex) => (.error e, ex)

end BlockExecutor

/-- `apply_optimistic_batch`; it returns the tree as well. -/
def applyOptimisticBatch {T : Type} (read : Reader T) (m : Monotree T) (c : Crypto)
    (order : IterOrder) (tree : T) (root : Option Hash) (txs : List Transaction)
    (deposits : List Deposit) (forcedTxs : List ForcedTx) : Run CoreError Hash × T :=
  if txs = [] ∧ deposits = [] ∧ forcedTxs = [] then
    (.ok (root.getD Hash.default), tree)
  else
    match (BlockExecutor.new tree root).applyOps read (blockOps txs deposits forcedTxs) with
    | (.error e, ex) => (.error e, ex.tree)
    | (.ok (), ex) => ex.commitBlock m c order

/-! ## Operations on the cache -/

namespace BlockExecutor

variable {T : Type} {read : Reader T} {ex : BlockExecutor T}

@[simp] theorem cacheInsert_tree (key : Hash) (a : Account) :
    (ex.cacheInsert key a).tree = ex.tree :=
  rfl

@[simp] theorem cacheInsert_root (key : Hash) (a : Account) :
    (ex.cacheInsert key a).root = ex.root :=
  rfl

theorem lookup_cacheInsert (key : Hash) (a : Account) (k : Hash) :
    (ex.cacheInsert key a).accountCache.lookup k
      = if k = key then some a else ex.accountCache.lookup k := by
  rw [cacheInsert]
  split
  · rename_i h
    rw [h, AList.lookup_insert]
  · rename_i h
    rw [AList.lookup_insert_ne h]

/-- What `get_account_helper` does: it finds the account, with the cache filled, or it does not,
with the executor as before. -/
theorem getAccountHelper_cases (read : Reader T) (ex : BlockExecutor T) (address : Hash) :
    (∃ a, ex.accountCache.lookup address = some a ∧
      ex.getAccountHelper read address = (.ok a, ex)) ∨
    (∃ a, ex.accountCache.lookup address = none ∧ read ex.tree ex.root address = .ok a ∧
      ex.getAccountHelper read address = (.ok a, ex.cacheInsert address a)) ∨
    (∃ e, ex.accountCache.lookup address = none ∧ read ex.tree ex.root address = .error e ∧
      ex.getAccountHelper read address = (.error e, ex)) := by
  rw [getAccountHelper]
  cases hcache : ex.accountCache.lookup address with
  | some a => exact Or.inl ⟨a, rfl, rfl⟩
  | none =>
    cases hread : read ex.tree ex.root address with
    | ok a => exact Or.inr (Or.inl ⟨a, rfl, rfl, rfl⟩)
    | error e => exact Or.inr (Or.inr ⟨e, rfl, rfl, rfl⟩)

end BlockExecutor

end TinyRollup
