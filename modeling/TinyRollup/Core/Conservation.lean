import TinyRollup.Core.Accounts
import TinyRollup.Core.Monotree

/-!
# The value in a batch

Over a batch the sum of all balances should grow by the deposits that were credited and shrink by
the fees that were charged.  `total_of_run` compares the two sides over a run of the ledger: the sum
is never too small, and it is right unless a transfer with sender and recipient the same account
goes through.  There the executor keeps the recipient, the account before it was debited, so the
amount appears from nothing and the fee is not charged.
-/

set_option autoImplicit false

namespace TinyRollup

open ByteString Stf
open UInt64 (Fits)

/-- The sum of a function over a finite type. -/
@[irreducible] def sumOver {ι : Type} [Fintype ι] (f : ι → ℕ) : ℕ := ∑ i, f i

theorem sumOver_zero {ι : Type} [Fintype ι] : sumOver (fun _ : ι ↦ 0) = 0 := by
  rw [sumOver, Finset.sum_const_zero]

theorem sumOver_update {ι : Type} [Fintype ι] [DecidableEq ι] (f : ι → ℕ) (i : ι) (n : ℕ) :
    sumOver (Function.update f i n) + f i = sumOver f + n := by
  have hold := Finset.add_sum_erase Finset.univ f (Finset.mem_univ i)
  have hnew := Finset.sum_update_of_mem (Finset.mem_univ i) f n
  rw [Finset.sdiff_singleton_eq_erase] at hnew
  rw [sumOver, sumOver, hnew, ← hold]
  omega

namespace AccountMap

def balance (s : AccountMap) (k : Hash) : ℕ := (s k).elim 0 fun a ↦ a.balance.toNat

/-- The sum of all balances. -/
def total (s : AccountMap) : ℕ := sumOver s.balance

theorem balance_of_eq_some {s : AccountMap} {k : Hash} {a : Account} (h : s k = some a) :
    s.balance k = a.balance.toNat := by rw [balance, h, Option.elim_some]

theorem getOrNew_balance (s : AccountMap) (k : Hash) :
    (s.getOrNew k).balance.toNat = s.balance k := by
  rw [getOrNew, balance]
  cases s k <;> rfl

theorem balance_set (s : AccountMap) (k : Hash) (a : Account) :
    (s.set k a).balance = Function.update s.balance k a.balance.toNat := by
  funext k'
  rw [balance, set_apply, Function.update_apply]
  split <;> rfl

/-- Writing an account exchanges its balance in the sum. -/
theorem total_set (s : AccountMap) (k : Hash) (a : Account) :
    (s.set k a).total + s.balance k = s.total + a.balance.toNat := by
  rw [total, total, balance_set, sumOver_update]

end AccountMap

open AccountMap

/-! ## Credits and fees -/

/-- What a deposit adds. -/
def Op.credited (op : Op) (s : AccountMap) : ℕ :=
  match op with
  | .deposit d =>
    match Stf.applyDeposit (s.getOrNew d.to_) d with
    | .ok _ => d.amount.toNat
    | .error _ => 0
  | .forced _ | .transaction _ => 0

/-- The fee of a transfer: all of it if the transfer goes through, what the sender has of it if the
sender cannot pay, and nothing if the transfer is skipped. -/
def Transfer.charge (t : Transfer) (s : AccountMap) : ℕ :=
  match s t.from_ with
  | none => 0
  | some a =>
    match Stf.transfer a (s.getOrNew t.to_) t.nonce t.fee t.amount with
    | .ok (.success _ _) => t.fee.toNat
    | .ok (.failure _) => min t.fee.toNat a.balance.toNat
    | .error _ => 0

def Op.charge (op : Op) (s : AccountMap) : ℕ := op.transfer.elim 0 fun t ↦ t.charge s

/-- A transfer of something from an account to itself that goes through. -/
def Op.Mints (op : Op) (s : AccountMap) : Prop :=
  ∃ t a, op.transfer = some t ∧ t.Executes s a ∧ t.from_ = t.to_ ∧
    0 < t.amount.toNat + t.fee.toNat

def credits (xs : List Applied) : ℕ := (xs.map fun x ↦ x.op.credited x.before).sum

def charges (xs : List Applied) : ℕ := (xs.map fun x ↦ x.op.charge x.before).sum

theorem Transfer.Executes.charge {t : Transfer} {s : AccountMap} {a : Account}
    (h : t.Executes s a) : t.charge s = t.fee.toNat := by
  rw [Transfer.charge, h.found]
  simp only [h.transfer_eq]

theorem Transfer.Charges.charge {t : Transfer} {s : AccountMap} {a : Account}
    (h : t.Charges s a) : t.charge s = min t.fee.toNat a.balance.toNat := by
  rw [Transfer.charge, h.found]
  simp only [h.transfer_eq]

theorem Transfer.charge_of_neither {t : Transfer} {s : AccountMap}
    (hex : ∀ a, ¬ t.Executes s a) (hch : ∀ a, ¬ t.Charges s a) : t.charge s = 0 := by
  rcases t.refused hex hch with hs | ⟨a, e, hs, he⟩
  · rw [Transfer.charge, hs]
  · rw [Transfer.charge, hs]
    simp only [he]

/-! ## One operation -/

theorem total_applyDeposit (s : AccountMap) (d : Deposit) :
    (s.applyDeposit d).total = s.total + (Op.deposit d).credited s := by
  rw [AccountMap.applyDeposit, Op.credited]
  cases ha : Stf.applyDeposit (s.getOrNew d.to_) d with
  | error e => exact (Nat.add_zero _).symm
  | ok a =>
    obtain ⟨hfits, ha'⟩ := applyDeposit_eq_ok_iff.mp ha
    have hbal : a.balance.toNat = s.balance d.to_ + d.amount.toNat := by
      rw [ha', ← getOrNew_balance]
      exact UInt64.toNat_add_of_fits hfits
    have htotal := total_set s d.to_ a
    simp only
    omega

theorem Transfer.Charges.total {t : Transfer} {s : AccountMap} {a : Account} (h : t.Charges s a) :
    (s.applyTransfer t).total + t.charge s = s.total := by
  have htotal := total_set s t.from_ (charged a t.fee)
  rw [charged_balance, balance_of_eq_some h.found] at htotal
  rw [h.apply, h.charge]
  have hle : min t.fee.toNat a.balance.toNat ≤ a.balance.toNat := Nat.min_le_right _ _
  omega

/-- Between two accounts nothing but the fee is lost. -/
theorem Transfer.Executes.total_of_ne {t : Transfer} {s : AccountMap} {a : Account}
    (h : t.Executes s a) (hne : t.from_ ≠ t.to_) :
    (s.applyTransfer t).total + t.charge s = s.total := by
  have hfrom := total_set s t.from_ (debited a t.fee t.amount)
  have hto := total_set (s.set t.from_ (debited a t.fee t.amount)) t.to_
    (credited (s.getOrNew t.to_) t.amount)
  have hkeep : (s.set t.from_ (debited a t.fee t.amount)).balance t.to_ = s.balance t.to_ := by
    rw [balance, set_ne s (Ne.symm hne), balance]
  rw [hkeep, credited_balance h.fits, getOrNew_balance] at hto
  rw [debited_balance h.paid, balance_of_eq_some h.found] at hfrom
  rw [h.apply, h.charge]
  have hpaid : t.amount.toNat + t.fee.toNat ≤ a.balance.toNat := h.paid
  omega

/-- From an account to itself the amount is gained and the fee is not charged. -/
theorem Transfer.Executes.total_of_eq {t : Transfer} {s : AccountMap} {a : Account}
    (h : t.Executes s a) (heq : t.from_ = t.to_) :
    (s.applyTransfer t).total = s.total + t.amount.toNat := by
  have hto := total_set s t.to_ (credited (s.getOrNew t.to_) t.amount)
  rw [credited_balance h.fits, getOrNew_balance] at hto
  rw [h.apply, heq, set_set]
  omega

theorem total_applyTransfer (s : AccountMap) (t : Transfer) :
    s.total ≤ (s.applyTransfer t).total + t.charge s ∧
      ((s.applyTransfer t).total + t.charge s = s.total ↔
        ¬ ∃ a, t.Executes s a ∧ t.from_ = t.to_ ∧ 0 < t.amount.toNat + t.fee.toNat) := by
  by_cases hex : ∃ a, t.Executes s a
  · obtain ⟨a, ha⟩ := hex
    by_cases hself : t.from_ = t.to_
    · have htotal := ha.total_of_eq hself
      have hcharge := ha.charge
      refine ⟨by omega, ?_⟩
      constructor
      · rintro heq ⟨b, -, -, hpos⟩
        omega
      · intro hnone
        have hzero : ¬ 0 < t.amount.toNat + t.fee.toNat := fun h ↦ hnone ⟨a, ha, hself, h⟩
        omega
    · have htotal := ha.total_of_ne hself
      refine ⟨by omega, iff_of_true htotal ?_⟩
      rintro ⟨b, -, heq, -⟩
      exact hself heq
  · have hnone : ¬ ∃ a, t.Executes s a ∧ t.from_ = t.to_ ∧ 0 < t.amount.toNat + t.fee.toNat :=
      fun ⟨a, ha, _⟩ ↦ hex ⟨a, ha⟩
    by_cases hch : ∃ a, t.Charges s a
    · obtain ⟨a, ha⟩ := hch
      have htotal := ha.total
      exact ⟨by omega, iff_of_true htotal hnone⟩
    · have hex' : ∀ a, ¬ t.Executes s a := fun a ha ↦ hex ⟨a, ha⟩
      have hch' : ∀ a, ¬ t.Charges s a := fun a ha ↦ hch ⟨a, ha⟩
      have htotal : (s.applyTransfer t).total + t.charge s = s.total := by
        rw [applyTransfer_of_neither hex' hch', Transfer.charge_of_neither hex' hch', Nat.add_zero]
      exact ⟨by omega, iff_of_true htotal hnone⟩

/-- What one operation does to the sum of all balances. -/
theorem Op.total_apply (op : Op) (s : AccountMap) :
    s.total + op.credited s ≤ (op.apply s).total + op.charge s ∧
      ((op.apply s).total + op.charge s = s.total + op.credited s ↔ ¬ op.Mints s) := by
  cases htransfer : op.transfer with
  | none =>
    have hmints : ¬ op.Mints s := by
      rintro ⟨t, a, ht, -⟩
      rw [htransfer] at ht
      exact absurd ht (by simp)
    have htotal : (op.apply s).total + op.charge s = s.total + op.credited s := by
      rw [Op.charge, htransfer, Option.elim_none, Nat.add_zero]
      cases op with
      | deposit d =>
        rw [Op.apply]
        exact total_applyDeposit s d
      | forced tx => rw [Op.apply, htransfer, Option.elim_none, Op.credited, Nat.add_zero]
      | transaction tx => exact absurd htransfer (by simp [Op.transfer])
    exact ⟨by omega, iff_of_true htotal hmints⟩
  | some t =>
    have hcredited : op.credited s = 0 := by
      obtain ⟨tx, rfl, -, -⟩ | ⟨tx, rfl, -⟩ := Op.transfer_eq_some htransfer
      · rfl
      · rfl
    have hmints : op.Mints s ↔
        ∃ a, t.Executes s a ∧ t.from_ = t.to_ ∧ 0 < t.amount.toNat + t.fee.toNat := by
      constructor
      · rintro ⟨u, a, hu, ha⟩
        rw [htransfer] at hu
        obtain rfl := Option.some_inj.mp hu
        exact ⟨a, ha⟩
      · rintro ⟨a, ha⟩
        exact ⟨t, a, htransfer, ha⟩
    rw [Op.apply_of_transfer htransfer, Op.charge, htransfer, Option.elim_some, hcredited,
      Nat.add_zero, hmints]
    exact total_applyTransfer s t

/-! ## Batches -/

/-- **Run rule**: the sum of all balances over a run of the ledger. -/
theorem total_of_run {s s' : AccountMap} {xs : List Applied} (h : LedgerRun s xs s') :
    s.total + credits xs ≤ s'.total + charges xs ∧
      (s'.total + charges xs = s.total + credits xs ↔ ∀ x ∈ xs, ¬ x.op.Mints x.before) := by
  induction h with
  | nil s => simp [credits, charges]
  | @cons s s' xs op _ ih =>
    obtain ⟨hstep, hstepEq⟩ := op.total_apply s
    obtain ⟨hrun, hrunEq⟩ := ih
    have hcredits : credits (⟨s, op, op.apply s⟩ :: xs) = op.credited s + credits xs := by
      rw [credits, List.map_cons, List.sum_cons, credits]
    have hcharges : charges (⟨s, op, op.apply s⟩ :: xs) = op.charge s + charges xs := by
      rw [charges, List.map_cons, List.sum_cons, charges]
    rw [List.forall_mem_cons, ← hrunEq, ← hstepEq, hcredits, hcharges]
    omega

/-- Over a batch that the executor `ex` has applied to the accounts `s`, the sum of all balances
changes by the deposits credited less the fees charged. -/
def Conserved {T : Type} (s : AccountMap) (ex : BlockExecutor T) (xs : List Applied) : Prop :=
  ((ex.view s).total : ℤ) = s.total + credits xs - charges xs

/-- The early return of an empty batch is what the executor does with it. -/
theorem applyOptimisticBatch_eq {T : Type} (read : Reader T) (m : Monotree T) (c : Crypto)
    (order : IterOrder) (tree : T) (root : Option Hash) (txs : List Transaction)
    (deposits : List Deposit) (forcedTxs : List ForcedTx) :
    applyOptimisticBatch read m c order tree root txs deposits forcedTxs =
      match (BlockExecutor.new tree root).applyOps read (blockOps txs deposits forcedTxs) with
      | (.error e, ex) => (.error e, ex.tree)
      | (.ok (), ex) => ex.commitBlock m c order := by
  rw [applyOptimisticBatch]
  split
  · rename_i h
    obtain ⟨rfl, rfl, rfl⟩ := h
    rfl
  · rfl

/-- **The executor conserves value exactly when no account pays itself.** -/
theorem executor_conserves_iff {T : Type} {read : Reader T} {m : Monotree T} {c : Crypto}
    {order : IterOrder} {tree tree' : T} {root : Option Hash} {r' : Hash} {s : AccountMap}
    {txs : List Transaction} {deposits : List Deposit} {forcedTxs : List ForcedTx}
    (hread : Reads read tree root s)
    (hbatch : applyOptimisticBatch read m c order tree root txs deposits forcedTxs
      = (.ok r', tree')) :
    ∃ ex xs,
      (BlockExecutor.new tree root).applyOps read (blockOps txs deposits forcedTxs) = (.ok (), ex) ∧
      ex.commitBlock m c order = (.ok r', tree') ∧
      (BlockExecutor.new tree root).trace read s (blockOps txs deposits forcedTxs) = xs ∧
      (Conserved s ex xs ↔ ∀ x ∈ xs, ¬ x.op.Mints x.before) := by
  obtain ⟨ex, hops, hrun⟩ :=
    BlockExecutor.applyOps_refines (BlockExecutor.new tree root)
      (blockOps txs deposits forcedTxs) hread
  rw [applyOptimisticBatch_eq, hops] at hbatch
  rw [BlockExecutor.view_new] at hrun
  refine ⟨ex, _, hops, hbatch, rfl, ?_⟩
  rw [← (total_of_run hrun).2, Conserved]
  omega

/-! ## A batch that makes value

Into an empty tree, which has no root, one deposit of 10 and then a transaction of 5 with fee 1 to
its own sender. -/

theorem reads_empty {T : Type} (m : Monotree T) (bincode : Bincode) (tree : T) :
    Reads (Core.getAccount m bincode) tree (some Hash.default) fun _ ↦ none :=
  fun _ ↦ if_pos rfl

theorem MemTree.reads_none (c : Crypto) (bincode : Bincode) (tree : MemTree) :
    Reads (Core.getAccount (monotree c) bincode) tree none fun _ ↦ none :=
  fun _ ↦ rfl

theorem total_none : AccountMap.total (fun _ ↦ none) = 0 := sumOver_zero

namespace SelfPayment

abbrev c : Crypto := Crypto.sha3Crate

abbrev read : Reader MemTree := Core.getAccount (MemTree.monotree c) Bincode.v1

def alice : Hash := Hash.ofByte 1

def deposit : Deposit := { to_ := alice, amount := 10, timestamp := 0 }

def toSelf : Transaction := { from_ := alice, to_ := alice, nonce := 0, fee := 1, amount := 5 }

abbrev start : BlockExecutor MemTree := BlockExecutor.new [] none

/-- Alice once the batch is through. -/
def richAlice : Account := { id := alice, balance := 15, nonce := 0 }

def tree' : MemTree := [(richAlice.hash c, [(alice, richAlice.hash c)])]

theorem applyOps_eq : start.applyOps read (blockOps [toSelf] [deposit] [])
    = (.ok (), start.cacheInsert alice richAlice) := rfl

theorem credits_eq :
    credits (start.trace read (fun _ ↦ none) (blockOps [toSelf] [deposit] [])) = 10 :=
  rfl

theorem charges_eq :
    charges (start.trace read (fun _ ↦ none) (blockOps [toSelf] [deposit] [])) = 1 :=
  rfl

theorem total_eq : ((start.cacheInsert alice richAlice).view fun _ ↦ none).total = 15 := by
  have hold : AccountMap.balance (fun _ ↦ none) alice = 0 := rfl
  have hnew : richAlice.balance.toNat = 15 := rfl
  have h := total_set (fun _ ↦ none) alice richAlice
  rw [total_none, hold, hnew, Nat.add_zero, Nat.zero_add] at h
  rw [BlockExecutor.view_cacheInsert, BlockExecutor.view_new, h]

theorem applyOptimisticBatch_eq :
    applyOptimisticBatch read (MemTree.monotree c) c IterOrder.cached [] none
      [toSelf] [deposit] [] = (.ok (richAlice.hash c), tree') := by
  decide +kernel

theorem mints : ∃ x ∈ start.trace read (fun _ ↦ none) (blockOps [toSelf] [deposit] []),
    x.op.Mints x.before := by
  refine ⟨_, List.mem_cons_of_mem _ (List.mem_cons_self ..), ⟨alice, alice, 0, 1, 5⟩,
    ⟨alice, 10, 0⟩, rfl, ⟨rfl, rfl, ?_, ?_⟩, rfl, ?_⟩
  · decide
  · decide
  · decide

end SelfPayment

open SelfPayment in
/-- Alice has 15 where 10 were deposited and a fee of 1 was due. -/
theorem selfPayment_not_conserved :
    Reads read [] none (fun _ ↦ none) ∧
      applyOptimisticBatch read (MemTree.monotree c) c IterOrder.cached [] none
        [toSelf] [deposit] [] = (.ok (richAlice.hash c), tree') ∧
      start.applyOps read (blockOps [toSelf] [deposit] [])
        = (.ok (), start.cacheInsert alice richAlice) ∧
      ¬ Conserved (fun _ ↦ none) (start.cacheInsert alice richAlice)
        (start.trace read (fun _ ↦ none) (blockOps [toSelf] [deposit] [])) := by
  refine ⟨MemTree.reads_none _ _ _, SelfPayment.applyOptimisticBatch_eq, applyOps_eq, ?_⟩
  rw [Conserved, total_eq, total_none, credits_eq, charges_eq]
  decide

open SelfPayment in
theorem executor_conserves_iff_selfPayment : ∃ ex xs,
    start.applyOps read (blockOps [toSelf] [deposit] []) = (.ok (), ex) ∧
    start.trace read (fun _ ↦ none) (blockOps [toSelf] [deposit] []) = xs ∧
    ¬ Conserved (fun _ ↦ none) ex xs := by
  obtain ⟨ex, xs, hops, -, htrace, hiff⟩ :=
    executor_conserves_iff (MemTree.reads_none c Bincode.v1 []) SelfPayment.applyOptimisticBatch_eq
  refine ⟨ex, xs, hops, htrace, fun h ↦ ?_⟩
  obtain ⟨x, hx, hmints⟩ := mints
  exact hiff.mp h x (htrace ▸ hx) hmints

end TinyRollup
