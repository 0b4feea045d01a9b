import TinyRollup.Core.Executor

/-!
# The executor as a ledger

A state is a finite map from addresses to accounts, `AccountMap`, and an operation of a block is a
function on it, `Op.apply`.  `applyOp_refines` says that an executor whose reads return the stored
accounts does this function to the map it shows, `view`: the stored accounts, overridden by the
cached ones.  It never fails there.  What is proved about a run of the executor is proved about
`Op.apply` first; `trace` is the run as a list of steps.
-/

set_option autoImplicit false

namespace TinyRollup

open ByteString Stf
open UInt64 (Fits)

/-- A map from addresses to accounts. -/
abbrev AccountMap := Hash → Option Account

/-- The transfer that a transaction asks for. -/
structure Transfer where
  from_ : Hash
  to_ : Hash
  nonce : UInt64
  fee : UInt64
  amount : UInt64
  deriving DecidableEq

/-- The transfer that an operation asks for; a deposit asks for none, and neither does a dummy. -/
def Op.transfer : Op → Option Transfer
  | .deposit _ => none
  | .forced tx =>
    if tx.from_ = Hash.default then none else some ⟨tx.from_, tx.to_, tx.nonce, tx.fee, tx.amount⟩
  | .transaction tx => some ⟨tx.from_, tx.to_, tx.nonce, tx.fee, tx.amount⟩

namespace AccountMap

/-- The account of an address, a new one where there is none. -/
def getOrNew (s : AccountMap) (k : Hash) : Account := (s k).getD (Account.new k)

def set (s : AccountMap) (k : Hash) (a : Account) : AccountMap := Function.update s k (some a)

theorem set_apply (s : AccountMap) (k k' : Hash) (a : Account) :
    s.set k a k' = if k' = k then some a else s k' := Function.update_apply s k (some a) k'

@[simp] theorem set_self (s : AccountMap) (k : Hash) (a : Account) : s.set k a k = some a := by
  rw [set_apply, if_pos rfl]

theorem set_ne (s : AccountMap) {k k' : Hash} (h : k' ≠ k) (a : Account) : s.set k a k' = s k' := by
  rw [set_apply, if_neg h]

theorem set_set (s : AccountMap) (k : Hash) (a b : Account) : (s.set k a).set k b = s.set k b := by
  rw [set, set, Function.update_idem, set]

theorem set_eq_self {s : AccountMap} {k : Hash} {a : Account} (h : s k = some a) :
    s.set k a = s := by
  rw [set, ← h, Function.update_eq_self]

def applyDeposit (s : AccountMap) (d : Deposit) : AccountMap :=
  match Stf.applyDeposit (s.getOrNew d.to_) d with
  | .ok a => s.set d.to_ a
  | .error _ => s

def applyTransfer (s : AccountMap) (t : Transfer) : AccountMap :=
  match s t.from_ with
  | none => s
  | some a =>
    match Stf.transfer a (s.getOrNew t.to_) t.nonce t.fee t.amount with
    | .ok (.success from_ to_) => (s.set t.from_ from_).set t.to_ to_
    | .ok (.failure from_) => s.set t.from_ from_
    | .error _ => s

end AccountMap

open AccountMap

/-- The operation on the accounts. -/
def Op.apply (op : Op) (s : AccountMap) : AccountMap :=
  match op with
  | .deposit d => s.applyDeposit d
  | .forced _ | .transaction _ => op.transfer.elim s s.applyTransfer

/-! ## What a transfer does -/

/-- The transfer moves its amount. -/
structure Transfer.Executes (t : Transfer) (s : AccountMap) (a : Account) : Prop where
  found : s t.from_ = some a
  nonce : a.nonce = t.nonce
  paid : Paid a t.fee t.amount
  fits : Fits ((s.getOrNew t.to_).balance.toNat + t.amount.toNat)

/-- The transfer only charges its sender. -/
structure Transfer.Charges (t : Transfer) (s : AccountMap) (a : Account) : Prop where
  found : s t.from_ = some a
  nonce : a.nonce = t.nonce
  fits : Fits (t.amount.toNat + t.fee.toNat)
  unpaid : ¬ Paid a t.fee t.amount

theorem Transfer.Executes.transfer_eq {t : Transfer} {s : AccountMap} {a : Account}
    (h : t.Executes s a) :
    Stf.transfer a (s.getOrNew t.to_) t.nonce t.fee t.amount
      = .ok (.success (debited a t.fee t.amount) (credited (s.getOrNew t.to_) t.amount)) :=
  transfer_eq_ok_iff.mpr
    ⟨h.nonce, (UInt64.fits_toNat a.balance).mono h.paid, Or.inr ⟨h.paid, h.fits, rfl⟩⟩

theorem Transfer.Charges.transfer_eq {t : Transfer} {s : AccountMap} {a : Account}
    (h : t.Charges s a) :
    Stf.transfer a (s.getOrNew t.to_) t.nonce t.fee t.amount = .ok (.failure (charged a t.fee)) :=
  transfer_eq_ok_iff.mpr ⟨h.nonce, h.fits, Or.inl ⟨h.unpaid, rfl⟩⟩

/-- A transfer whose sender exists executes, charges its sender, or is an error. -/
theorem Transfer.outcome {t : Transfer} {s : AccountMap} {a : Account} (h : s t.from_ = some a) :
    t.Executes s a ∨ t.Charges s a ∨
      ∃ e, Stf.transfer a (s.getOrNew t.to_) t.nonce t.fee t.amount = .error e := by
  cases hr : Stf.transfer a (s.getOrNew t.to_) t.nonce t.fee t.amount with
  | error e => exact Or.inr (Or.inr ⟨e, rfl⟩)
  | ok r =>
    rcases transfer_eq_ok_iff.mp hr with ⟨hnonce, hfits, ⟨hunpaid, -⟩ | ⟨hpaid, hto, -⟩⟩
    · exact Or.inr (Or.inl ⟨h, hnonce, hfits, hunpaid⟩)
    · exact Or.inl ⟨h, hnonce, hpaid, hto⟩

/-- A transfer that neither executes nor charges its sender has no sender or is an error. -/
theorem Transfer.refused {t : Transfer} {s : AccountMap} (hex : ∀ a, ¬ t.Executes s a)
    (hch : ∀ a, ¬ t.Charges s a) : s t.from_ = none ∨ ∃ a e, s t.from_ = some a ∧
      Stf.transfer a (s.getOrNew t.to_) t.nonce t.fee t.amount = .error e := by
  cases hs : s t.from_ with
  | none => exact Or.inl rfl
  | some a =>
    rcases t.outcome hs with h | h | ⟨e, he⟩
    · exact absurd h (hex a)
    · exact absurd h (hch a)
    · exact Or.inr ⟨a, e, rfl, he⟩

theorem Transfer.Executes.apply {t : Transfer} {s : AccountMap} {a : Account}
    (h : t.Executes s a) :
    s.applyTransfer t = (s.set t.from_ (debited a t.fee t.amount)).set t.to_
      (credited (s.getOrNew t.to_) t.amount) := by
  rw [applyTransfer, h.found]
  simp only [h.transfer_eq]

theorem Transfer.Charges.apply {t : Transfer} {s : AccountMap} {a : Account}
    (h : t.Charges s a) : s.applyTransfer t = s.set t.from_ (charged a t.fee) := by
  rw [applyTransfer, h.found]
  simp only [h.transfer_eq]

/-- A transfer that neither executes nor charges its sender changes nothing. -/
theorem applyTransfer_of_neither {t : Transfer} {s : AccountMap}
    (hex : ∀ a, ¬ t.Executes s a) (hch : ∀ a, ¬ t.Charges s a) : s.applyTransfer t = s := by
  rcases t.refused hex hch with hs | ⟨a, e, hs, he⟩
  · rw [applyTransfer, hs]
  · rw [applyTransfer, hs]
    simp only [he]

/-- What asks for a transfer: a forced transaction that is no dummy, and a transaction. -/
theorem Op.transfer_eq_some {op : Op} {t : Transfer} (h : op.transfer = some t) :
    (∃ tx : ForcedTx, op = .forced tx ∧ tx.from_ ≠ Hash.default ∧
        t = ⟨tx.from_, tx.to_, tx.nonce, tx.fee, tx.amount⟩) ∨
      ∃ tx : Transaction, op = .transaction tx ∧
        t = ⟨tx.from_, tx.to_, tx.nonce, tx.fee, tx.amount⟩ := by
  cases op with
  | deposit d => exact absurd h (by simp [Op.transfer])
  | forced tx =>
    rw [Op.transfer] at h
    split at h
    · exact absurd h (by simp)
    · rename_i hreal
      exact Or.inl ⟨tx, rfl, hreal, (Option.some_inj.mp h).symm⟩
  | transaction tx => exact Or.inr ⟨tx, rfl, (Option.some_inj.mp h).symm⟩

theorem Op.apply_of_transfer {op : Op} {t : Transfer} (h : op.transfer = some t) (s : AccountMap) :
    op.apply s = s.applyTransfer t := by
  obtain ⟨tx, rfl, -, -⟩ | ⟨tx, rfl, -⟩ := Op.transfer_eq_some h
  · rw [Op.apply, h, Option.elim_some]
  · rw [Op.apply, h, Option.elim_some]

/-! ## The executor -/

/-- Reading returns the stored accounts. -/
def Reads {T : Type} (read : Reader T) (tree : T) (root : Option Hash) (s : AccountMap) : Prop :=
  ∀ k, read tree root k =
    match s k with
    | some a => .ok a
    | none => Run.err (.accountNotFound k)

namespace BlockExecutor

variable {T : Type} {read : Reader T} {ex : BlockExecutor T} {s : AccountMap}

/-- The accounts as the executor has them. -/
def view (ex : BlockExecutor T) (s : AccountMap) : AccountMap := fun k ↦
  (ex.accountCache.lookup k).or (s k)

@[simp] theorem view_new (tree : T) (root : Option Hash) : (new tree root).view s = s := rfl

theorem view_cacheInsert (key : Hash) (a : Account) :
    (ex.cacheInsert key a).view s = (ex.view s).set key a := by
  funext k
  rw [view, lookup_cacheInsert, set_apply, view]
  split <;> rfl

/-- The helper shows the account, and caching what it has read changes nothing of the view. -/
theorem getAccountHelper_refines (h : Reads read ex.tree ex.root s) (address : Hash) :
    ∃ ex', ex'.tree = ex.tree ∧ ex'.root = ex.root ∧ ex'.view s = ex.view s ∧
      ex.getAccountHelper read address =
        (match ex.view s address with
          | some a => .ok a
          | none => Run.err (.accountNotFound address), ex') := by
  rcases getAccountHelper_cases read ex address with
    ⟨a, hcache, hget⟩ | ⟨a, hcache, hread, hget⟩ | ⟨e, hcache, hread, hget⟩
  · refine ⟨ex, rfl, rfl, rfl, ?_⟩
    rw [hget, view, hcache, Option.some_or]
  · have hs : s address = some a := by
      have hr := h address
      rw [hread] at hr
      cases hs : s address with
      | some b =>
        rw [hs] at hr
        exact congrArg some (Except.ok.inj hr).symm
      | none =>
        rw [hs] at hr
        exact absurd hr (by simp [Run.err])
    have hview : ex.view s address = some a := by rw [view, hcache, Option.none_or, hs]
    refine ⟨ex.cacheInsert address a, rfl, rfl, ?_, ?_⟩
    · rw [view_cacheInsert, set_eq_self hview]
    · rw [hget, hview]
  · have hr := h address
    rw [hread] at hr
    cases hs : s address with
    | some b =>
      rw [hs] at hr
      exact absurd hr (by simp)
    | none =>
      rw [hs] at hr
      refine ⟨ex, rfl, rfl, rfl, ?_⟩
      rw [hget, view, hcache, Option.none_or, hs, hr]

theorem applyDeposit_refines (h : Reads read ex.tree ex.root s) (d : Deposit) :
    ∃ ex', ex'.tree = ex.tree ∧ ex'.root = ex.root ∧ ex'.view s = (ex.view s).applyDeposit d ∧
      ex.applyDeposit read d = (.ok (), ex') := by
  obtain ⟨ex', htree, hroot, hview, hget⟩ := getAccountHelper_refines h d.to_
  have hnew : Core.orNew d.to_ (ex.getAccountHelper read d.to_).1
      = .ok ((ex.view s).getOrNew d.to_) := by
    rw [hget, getOrNew]
    cases ex.view s d.to_ <;> rfl
  have hex : (ex.getAccountHelper read d.to_).2 = ex' := by rw [hget]
  rw [applyDeposit]
  simp only [hnew, hex, AccountMap.applyDeposit]
  cases ha : Stf.applyDeposit ((ex.view s).getOrNew d.to_) d with
  | ok a => exact ⟨ex'.cacheInsert d.to_ a, htree, hroot, by rw [view_cacheInsert, hview], rfl⟩
  | error e =>
    obtain ⟨-, rfl⟩ := applyDeposit_eq_error_iff.mp ha
    exact ⟨ex', htree, hroot, hview, rfl⟩

theorem view_updateCacheSuccess (fromKey toKey : Hash) (a b : Account) :
    (ex.updateCacheSuccess fromKey a toKey b).view s = ((ex.view s).set fromKey a).set toKey b := by
  rw [updateCacheSuccess]
  split
  · rename_i h
    rw [view_cacheInsert, h, set_set]
  · rw [view_cacheInsert, view_cacheInsert]

theorem updateCacheSuccess_tree (fromKey toKey : Hash) (a b : Account) :
    (ex.updateCacheSuccess fromKey a toKey b).tree = ex.tree := by
  rw [updateCacheSuccess]
  split <;> rfl

theorem updateCacheSuccess_root (fromKey toKey : Hash) (a b : Account) :
    (ex.updateCacheSuccess fromKey a toKey b).root = ex.root := by
  rw [updateCacheSuccess]
  split <;> rfl

theorem applyTransfer_refines (h : Reads read ex.tree ex.root s) (t : Transfer) :
    ∃ ex', ex'.tree = ex.tree ∧ ex'.root = ex.root ∧ ex'.view s = (ex.view s).applyTransfer t ∧
      ex.applyTransfer read t.from_ t.to_ (fun a b ↦ Stf.transfer a b t.nonce t.fee t.amount)
        = (.ok (), ex') := by
  obtain ⟨ex₁, htree₁, hroot₁, hview₁, hfrom⟩ := getAccountHelper_refines h t.from_
  rw [applyTransfer, AccountMap.applyTransfer, hfrom]
  cases hs : ex.view s t.from_ with
  | none => exact ⟨ex₁, htree₁, hroot₁, hview₁, rfl⟩
  | some a =>
    have h₁ : Reads read ex₁.tree ex₁.root s := by rwa [htree₁, hroot₁]
    obtain ⟨ex₂, htree₂, hroot₂, hview₂, hto⟩ := getAccountHelper_refines h₁ t.to_
    rw [hview₁] at hview₂ hto
    have hnew : Run.unwrapOr (Account.new t.to_) (ex₁.getAccountHelper read t.to_).1
        = .ok ((ex.view s).getOrNew t.to_) := by
      rw [hto, getOrNew]
      cases ex.view s t.to_ <;> rfl
    have hex₂ : (ex₁.getAccountHelper read t.to_).2 = ex₂ := by rw [hto]
    have htree := htree₂.trans htree₁
    have hroot := hroot₂.trans hroot₁
    simp only [hnew, hex₂]
    cases Stf.transfer a ((ex.view s).getOrNew t.to_) t.nonce t.fee t.amount with
    | error e => exact ⟨ex₂, htree, hroot, hview₂, rfl⟩
    | ok r =>
      cases r with
      | success a' b' =>
        refine ⟨ex₂.updateCacheSuccess t.from_ a' t.to_ b', ?_, ?_, ?_, rfl⟩
        · rw [updateCacheSuccess_tree, htree]
        · rw [updateCacheSuccess_root, hroot]
        · rw [view_updateCacheSuccess, hview₂]
      | failure a' =>
        exact ⟨ex₂.cacheInsert t.from_ a', htree, hroot, by rw [view_cacheInsert, hview₂], rfl⟩

/-- **One operation of the executor is one operation of the ledger.** -/
theorem applyOp_refines (h : Reads read ex.tree ex.root s) (op : Op) :
    ∃ ex', ex'.tree = ex.tree ∧ ex'.root = ex.root ∧ ex'.view s = op.apply (ex.view s) ∧
      ex.applyOp read op = (.ok (), ex') := by
  cases op with
  | deposit d => exact applyDeposit_refines h d
  | forced tx =>
    rw [applyOp, applyForcedTx]
    by_cases hdummy : tx.from_ = Hash.default
    · refine ⟨ex, rfl, rfl, ?_, if_pos hdummy⟩
      rw [Op.apply, Op.transfer, if_pos hdummy, Option.elim_none]
    · have htransfer : (Op.forced tx).transfer
          = some ⟨tx.from_, tx.to_, tx.nonce, tx.fee, tx.amount⟩ := if_neg hdummy
      rw [if_neg hdummy, Op.apply_of_transfer htransfer]
      exact applyTransfer_refines h ⟨tx.from_, tx.to_, tx.nonce, tx.fee, tx.amount⟩
  | transaction tx =>
    rw [Op.apply_of_transfer rfl]
    exact applyTransfer_refines h ⟨tx.from_, tx.to_, tx.nonce, tx.fee, tx.amount⟩

end BlockExecutor

/-! ## Runs -/

/-- An operation with the accounts before and after it. -/
structure Applied where
  before : AccountMap
  op : Op
  after : AccountMap

/-- The operations that the executor has applied, over the stored accounts `s`. -/
def BlockExecutor.trace {T : Type} (read : Reader T) (s : AccountMap) (ex : BlockExecutor T) :
    List Op → List Applied
  | [] => []
  | op :: ops =>
    match ex.applyOp read op with
    | (.ok (), ex') => ⟨ex.view s, op, ex'.view s⟩ :: trace read s ex' ops
    | (.error _, _) => []

/-- Steps that lead from one state to another. -/
inductive LedgerRun : AccountMap → List Applied → AccountMap → Prop
  | nil (s : AccountMap) : LedgerRun s [] s
  | cons {s s' : AccountMap} {xs : List Applied} (op : Op) (h : LedgerRun (op.apply s) xs s') :
      LedgerRun s (⟨s, op, op.apply s⟩ :: xs) s'

theorem LedgerRun.append {s t u : AccountMap} {xs ys : List Applied} (hxs : LedgerRun s xs t)
    (hys : LedgerRun t ys u) : LedgerRun s (xs ++ ys) u := by
  induction hxs with
  | nil s => exact hys
  | cons op _ ih => exact LedgerRun.cons op (ih hys)

/-- **A run of the executor is a run of the ledger.** -/
theorem BlockExecutor.applyOps_refines {T : Type} {read : Reader T} {s : AccountMap}
    (ex : BlockExecutor T) (ops : List Op) (h : Reads read ex.tree ex.root s) :
    ∃ ex', ex.applyOps read ops = (.ok (), ex') ∧
      LedgerRun (ex.view s) (ex.trace read s ops) (ex'.view s) := by
  induction ops generalizing ex with
  | nil => exact ⟨ex, rfl, LedgerRun.nil _⟩
  | cons op ops ih =>
    obtain ⟨ex₁, htree, hroot, hview, hop⟩ := applyOp_refines h op
    have h₁ : Reads read ex₁.tree ex₁.root s := by rwa [htree, hroot]
    obtain ⟨ex', hops, hrun⟩ := ih ex₁ h₁
    refine ⟨ex', ?_, ?_⟩
    · rw [applyOps, hop]
      exact hops
    · simp only [trace, hop]
      rw [hview] at hrun ⊢
      exact LedgerRun.cons op hrun

end TinyRollup
