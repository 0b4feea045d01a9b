import TinyRollup.Stf.Named

/-!
# The guest and the reference ledger

The reference ledger is what the operations are for: it works on the accounts of the tree with
exact numbers, a deposit and a paid transfer add to the balance that is stored, and a recipient
keeps its nonce.

The guest credits `Account::new(tx.to)` instead of the stored account, and its nonce wraps.
`computes_ledger_iff` says exactly when this makes no difference: when every recipient that is
credited was empty before, and no nonce is the largest `u64`.

* `Item.step_exact_iff` — one operation of the guest is the operation of the ledger if and only if
  it is `Fresh`.
* `run_exact_iff` — so is every prefix of a run, if and only if all its operations are.
-/

set_option autoImplicit false

namespace TinyRollup

open ByteString Stf HashTree

open UInt64 (Fits)

/-! ## The reference ledger -/

/-- An account with exact numbers. -/
@[ext] structure LedgerAccount where
  id : Hash
  balance : ℕ
  nonce : ℕ
  deriving DecidableEq

abbrev LedgerTree := Tree LedgerAccount Hash

namespace LedgerAccount

def credit (amount : ℕ) (a : LedgerAccount) : LedgerAccount :=
  { a with balance := a.balance + amount }

def debit (fee amount : ℕ) (a : LedgerAccount) : LedgerAccount :=
  { a with balance := a.balance - (amount + fee), nonce := a.nonce + 1 }

def charge (fee : ℕ) (a : LedgerAccount) : LedgerAccount :=
  { a with balance := a.balance - min fee a.balance, nonce := a.nonce + 1 }

end LedgerAccount

/-- An operation of the ledger. -/
inductive LedgerOp
  | deposit (to_ : Hash) (amount : ℕ)
  | transfer (from_ to_ : Hash) (fee amount : ℕ)

namespace Ledger

def apply (t : LedgerTree) : LedgerOp → LedgerTree
  | .deposit to_ amount => t.adjust LedgerAccount.id to_ (.credit amount)
  | .transfer from_ to_ fee amount =>
    match t.find? LedgerAccount.id from_ with
    | none => t
    | some a =>
      if amount + fee ≤ a.balance then
        (t.adjust LedgerAccount.id from_ (.debit fee amount)).adjust LedgerAccount.id to_
          (.credit amount)
      else t.adjust LedgerAccount.id from_ (.charge fee)

def run (t : LedgerTree) (ops : List LedgerOp) : LedgerTree := ops.foldl apply t

theorem run_append (t : LedgerTree) (ops ops' : List LedgerOp) :
    run t (ops ++ ops') = run (run t ops) ops' := List.foldl_append ..

end Ledger

/-- What an iteration of the guest is for; a dummy is for nothing. -/
def Item.ops : Item → List LedgerOp
  | deposit d _ => [.deposit d.to_ d.amount.toNat]
  | forced tx _ =>
    if tx.from_ = Hash.default then []
    else [.transfer tx.from_ tx.to_ tx.fee.toNat tx.amount.toNat]
  | transaction tx _ => [.transfer tx.from_ tx.to_ tx.fee.toNat tx.amount.toNat]

/-- The operations of an input, in the order of the guest. -/
def ledgerOps (inp : TransitionInputs) : List LedgerOp := (items inp).flatMap Item.ops

/-! ## Accounts of the guest as accounts of the ledger -/

def Account.exact (a : Account) : LedgerAccount :=
  { id := a.id, balance := a.balance.toNat, nonce := a.nonce.toNat }

theorem Account.exact_injective : Function.Injective Account.exact := by
  intro a b h
  cases a; cases b
  simp only [exact, LedgerAccount.mk.injEq, UInt64.toNat_inj] at h
  simpa using h

def exactTree (t : StateTree) : LedgerTree := t.map Account.exact

/-- The first `k` operations of an input. -/
def TransitionInputs.upTo (inp : TransitionInputs) (k : ℕ) : TransitionInputs :=
  { inp with
    deposits := inp.deposits.take k
    forcedTxs := inp.forcedTxs.take (k - inp.deposits.length)
    txs := inp.txs.take (k - inp.deposits.length - inp.forcedTxs.length) }

/-- The guest arrives at the root of the tree that the reference ledger makes of `t`. -/
def ComputesLedger (c : Crypto) (t : StateTree) (inp : TransitionInputs) : Prop :=
  ∃ root depositsHash forcedTxsHash t',
    executeTransition c inp = .ok (root, depositsHash, forcedTxsHash) ∧
      exactTree t' = Ledger.run (exactTree t) (ledgerOps inp) ∧ t'.root (stateDigest c) = root

/-- The transfer does not exhaust the sender's nonce, and if it is paid, the recipient that the
guest overwrites was empty. -/
def TransferFresh (proofsFrom proofsTo : List MerkleProof) (i : ℕ) (nonce fee amount : UInt64) :
    Prop :=
  Fits (nonce.toNat + 1) ∧ ∀ p, proofsFrom[i]? = some p → Paid p.account fee amount →
    ∀ q, proofsTo[i]? = some q → q.account.balance = 0 ∧ q.account.nonce = 0

def Item.Fresh (inp : TransitionInputs) : Item → Prop
  | deposit _ _ => True
  | forced tx i => tx.from_ ≠ Hash.default →
    TransferFresh inp.proofsForcedFrom inp.proofsForcedTo i tx.nonce tx.fee tx.amount
  | transaction tx i =>
    TransferFresh inp.proofsTxsFrom inp.proofsTxsTo i tx.nonce tx.fee tx.amount

/-- Every transfer is fresh. -/
structure RecipientsFresh (inp : TransitionInputs) : Prop where
  forcedTxs : ∀ (i : ℕ) (tx : ForcedTx), inp.forcedTxs[i]? = some tx → tx.from_ ≠ Hash.default →
    TransferFresh inp.proofsForcedFrom inp.proofsForcedTo i tx.nonce tx.fee tx.amount
  txs : ∀ (i : ℕ) (tx : Transaction), inp.txs[i]? = some tx →
    TransferFresh inp.proofsTxsFrom inp.proofsTxsTo i tx.nonce tx.fee tx.amount

theorem forall_fresh_iff {inp : TransitionInputs} :
    (∀ x ∈ items inp, x.Fresh inp) ↔ RecipientsFresh inp := by
  rw [forall_mem_items]
  exact ⟨fun h ↦ ⟨h.2.1, h.2.2⟩, fun h ↦ ⟨fun _ _ _ ↦ trivial, h.forcedTxs, h.txs⟩⟩

/-! ## One account -/

theorem exact_credited {a : Account} {amount : UInt64}
    (h : Fits (a.balance.toNat + amount.toNat)) :
    (credited a amount).exact = a.exact.credit amount.toNat := by
  simp only [Account.exact, LedgerAccount.credit, credited_id, credited_nonce, credited_balance h]

theorem exact_debited_iff {a : Account} {fee amount : UInt64} (h : Paid a fee amount) :
    (debited a fee amount).exact = a.exact.debit fee.toNat amount.toNat ↔
      Fits (a.nonce.toNat + 1) := by
  simp only [Account.exact, LedgerAccount.debit, debited_id, debited_nonce, debited_balance h,
    LedgerAccount.mk.injEq, true_and, UInt64.toNat_add_one_iff]

theorem exact_charged_iff {a : Account} {fee : UInt64} :
    (charged a fee).exact = a.exact.charge fee.toNat ↔ Fits (a.nonce.toNat + 1) := by
  simp only [Account.exact, LedgerAccount.charge, charged_id, charged_nonce, charged_balance,
    LedgerAccount.mk.injEq, true_and, UInt64.toNat_add_one_iff]

/-- A new account with the amount is the stored account with the amount added if and only if the
stored account was empty. -/
theorem exact_credited_new_iff (b : Account) (amount : UInt64) :
    (credited (Account.new b.id) amount).exact = b.exact.credit amount.toNat ↔
      b.balance = 0 ∧ b.nonce = 0 := by
  have hnew : (credited (Account.new b.id) amount).exact = ⟨b.id, amount.toNat, 0⟩ := by
    simp [Account.exact, credited, Account.new]
  rw [hnew]
  simp only [Account.exact, LedgerAccount.credit, LedgerAccount.mk.injEq, true_and]
  rw [← UInt64.toNat_inj, ← UInt64.toNat_inj, UInt64.toNat_zero]
  omega

/-! ## One operation -/

section Step

variable {g : StateTree} (hnd : (g.leaves.map Account.id).Nodup)

theorem exactTree_set (g : StateTree) (ds : List Bool) (a : Account) :
    exactTree (g.set ds a) = (exactTree g).set ds a.exact := Tree.map_set _ _ _ _

theorem exactTree_get? {ds : List Bool} {a : Account} (h : g.get? ds = some a) :
    (exactTree g).get? ds = some a.exact := by
  rw [exactTree, Tree.get?_map, h]
  rfl

theorem exactTree_keys (g : StateTree) :
    (exactTree g).leaves.map LedgerAccount.id = g.leaves.map Account.id := by
  rw [exactTree, Tree.leaves_map, List.map_map]
  rfl

include hnd

/-- Where the guest sets a leaf, the ledger adjusts the account with its id. -/
theorem exactTree_adjust {ds : List Bool} {a : Account} {k : Hash}
    (h : g.get? ds = some a) (hk : a.id = k) (f : LedgerAccount → LedgerAccount) :
    (exactTree g).adjust LedgerAccount.id k f = (exactTree g).set ds (f a.exact) := by
  rw [← exactTree_keys] at hnd
  rw [Tree.set_eq_adjust LedgerAccount.id f hnd (exactTree_get? h), ← hk]
  rfl

theorem exactTree_find? {ds : List Bool} {a : Account} {k : Hash} (h : g.get? ds = some a)
    (hk : a.id = k) : (exactTree g).find? LedgerAccount.id k = some a.exact := by
  rw [← exactTree_keys] at hnd
  rw [← hk]
  exact Tree.find?_eq_some LedgerAccount.id hnd (exactTree_get? h)

theorem deposit_exact {p : MerkleProof} {ds : List Bool} {to_ : Hash} {amount : UInt64}
    (h : g.get? ds = some p.account) (hid : p.account.id = to_)
    (hfits : Fits (p.account.balance.toNat + amount.toNat)) :
    exactTree (g.set ds (credited p.account amount))
      = Ledger.apply (exactTree g) (.deposit to_ amount.toNat) := by
  rw [Ledger.apply, exactTree_adjust hnd h hid, exactTree_set, exact_credited hfits]

theorem failure_exact_iff {a : Account} {ds : List Bool} {from_ to_ : Hash} {fee amount : UInt64}
    (h : g.get? ds = some a) (hid : a.id = from_) (hunpaid : ¬ Paid a fee amount) :
    exactTree (g.set ds (charged a fee))
        = Ledger.apply (exactTree g) (.transfer from_ to_ fee.toNat amount.toNat) ↔
      Fits (a.nonce.toNat + 1) := by
  have hcond : ¬ amount.toNat + fee.toNat ≤ a.exact.balance := hunpaid
  simp only [Ledger.apply, exactTree_find? hnd h hid]
  rw [if_neg hcond, exactTree_adjust hnd h hid, exactTree_set,
    Tree.set_inj (exactTree_get? h), exact_charged_iff]

theorem success_exact_iff {a b : Account} {ds ds' : List Bool} {from_ to_ : Hash}
    {fee amount : UInt64} (h : g.get? ds = some a) (hid : a.id = from_)
    (h' : (g.set ds (debited a fee amount)).get? ds' = some b) (hid' : b.id = to_)
    (hpaid : Paid a fee amount) :
    exactTree ((g.set ds (debited a fee amount)).set ds' (credited (Account.new to_) amount))
        = Ledger.apply (exactTree g) (.transfer from_ to_ fee.toNat amount.toNat) ↔
      Fits (a.nonce.toNat + 1) ∧ b.balance = 0 ∧ b.nonce = 0 := by
  have hcond : amount.toNat + fee.toNat ≤ a.exact.balance := hpaid
  have hexact := exactTree_get? h
  have hdebit : (exactTree g).adjust LedgerAccount.id from_ (.debit fee.toNat amount.toNat)
      = (exactTree g).set ds (a.exact.debit fee.toNat amount.toNat) := exactTree_adjust hnd h hid _
  -- The ledger's tree between debit and credit has the same keys.
  have hkeys : ((exactTree g).set ds (a.exact.debit fee.toNat amount.toNat)).leaves.map
      LedgerAccount.id = g.leaves.map Account.id :=
    (Tree.leaves_set_key LedgerAccount.id hexact (show (a.exact.debit _ _).id = _ from rfl)).trans
      (exactTree_keys g)
  have hcredit : ∀ x : LedgerAccount,
      ((exactTree g).set ds (a.exact.debit fee.toNat amount.toNat)).get? ds' = some x → x.id = to_ →
      ((exactTree g).set ds (a.exact.debit fee.toNat amount.toNat)).adjust LedgerAccount.id to_
        (.credit amount.toNat) = ((exactTree g).set ds (a.exact.debit fee.toNat amount.toNat)).set
          ds' (x.credit amount.toNat) := by
    intro x hx hxid
    rw [Tree.set_eq_adjust LedgerAccount.id _ (hkeys ▸ hnd) hx, hxid]
  simp only [Ledger.apply, exactTree_find? hnd h hid]
  rw [if_pos hcond, hdebit, exactTree_set, exactTree_set]
  by_cases hds : ds' = ds
  · -- A self-transfer: the guest resets the nonce that the ledger has just incremented.
    subst hds
    have hmid := Tree.get?_set_self (a.exact.debit fee.toNat amount.toNat) hexact
    obtain rfl : debited a fee amount = b :=
      Option.some_inj.mp ((Tree.get?_set_self _ h).symm.trans h')
    rw [hcredit _ hmid hid']
    refine iff_of_false ?_ ?_
    · intro heq
      have hleaf := congrArg (Tree.get? · ds') heq
      simp only [Tree.get?_set_self _ (Tree.get?_set_self _ hexact)] at hleaf
      have hn := congrArg LedgerAccount.nonce (Option.some_inj.mp hleaf)
      exact absurd hn (by simp [Account.exact, LedgerAccount.credit, LedgerAccount.debit,
        Account.new])
    · rintro ⟨hfits, -, hnonce⟩
      have hn := UInt64.toNat_add_one hfits
      rw [debited_nonce] at hnonce
      rw [hnonce] at hn
      exact absurd hn (by simp)
  · have hb : g.get? ds' = some b := by rwa [Tree.get?_set_ne _ h hds] at h'
    have hmid : ((exactTree g).set ds (a.exact.debit fee.toNat amount.toNat)).get? ds'
        = some b.exact := by rw [Tree.get?_set_ne _ hexact hds, exactTree_get? hb]
    rw [hcredit _ hmid hid', ← hid', ← exact_debited_iff hpaid, ← exact_credited_new_iff b amount]
    constructor
    · intro heq
      have hset : ((exactTree g).set ds (debited a fee amount).exact).get? ds' = some b.exact := by
        rw [Tree.get?_set_ne _ hexact hds, exactTree_get? hb]
      have hto := congrArg (Tree.get? · ds') heq
      have hfrom := congrArg (Tree.get? · ds) heq
      simp only [Tree.get?_set_self _ hset, Tree.get?_set_self _ hmid] at hto
      simp only [Tree.get?_set_ne _ hset (Ne.symm hds), Tree.get?_set_ne _ hmid (Ne.symm hds),
        Tree.get?_set_self _ hexact] at hfrom
      exact ⟨Option.some_inj.mp hfrom, Option.some_inj.mp hto⟩
    · rintro ⟨hd, hc⟩
      rw [hd, hc]

end Step

/-- A write puts an account under the id it found, or under the id the operation names. -/
theorem Item.writes_id {inp : TransitionInputs} {x : Item} :
    ∀ w ∈ x.writes inp, w.account.id = w.proof.account.id ∨ w.account.id = w.named := by
  have hcredit : ∀ (proofs : List MerkleProof) (i : ℕ) (to_ : Hash) (amount : UInt64),
      ∀ w ∈ creditWrites proofs i to_ amount,
        w.account.id = w.proof.account.id ∨ w.account.id = w.named := by
    intro proofs i to_ amount w hw
    rw [creditWrites] at hw
    split at hw
    · rw [List.mem_singleton.mp hw]
      exact Or.inr rfl
    · exact absurd hw (by simp)
  have htransfer : ∀ (proofsFrom proofsTo : List MerkleProof) (i : ℕ) (from_ to_ : Hash)
      (fee amount : UInt64), ∀ w ∈ transferWrites proofsFrom proofsTo i from_ to_ fee amount,
        w.account.id = w.proof.account.id ∨ w.account.id = w.named := by
    intro proofsFrom proofsTo i from_ to_ fee amount w hw
    rw [transferWrites] at hw
    split at hw
    · split at hw
      · rcases List.mem_cons.mp hw with rfl | hw
        · exact Or.inl rfl
        · exact hcredit _ _ _ _ w hw
      · rw [List.mem_singleton.mp hw]
        exact Or.inl rfl
    · exact absurd hw (by simp)
  cases x with
  | deposit d i =>
    intro w hw
    rw [Item.writes, depositWrites] at hw
    split at hw
    · rw [List.mem_singleton.mp hw]
      exact Or.inl rfl
    · exact absurd hw (by simp)
  | forced tx i =>
    intro w hw
    rw [Item.writes, forcedWrites] at hw
    split at hw
    · exact absurd hw (by simp)
    · exact htransfer _ _ _ _ _ _ _ w hw
  | transaction tx i => exact htransfer _ _ _ _ _ _ _

theorem Rewrites.keys {t t' : StateTree} {ws : List LeafWrite} (h : Rewrites t ws t')
    (hid : ∀ w ∈ ws, w.account.id = w.proof.account.id) :
    t'.leaves.map Account.id = t.leaves.map Account.id := by
  induction h with
  | nil => rfl
  | @cons w ws t t' found _ ih =>
    rw [ih fun w' hw' ↦ hid w' (List.mem_cons_of_mem _ hw'),
      Tree.leaves_set_key Account.id found (hid w (by simp))]

theorem Item.writes_keeps_id {inp : TransitionInputs} {x : Item}
    (hnamed : ∀ w ∈ x.writes inp, w.Named) :
    ∀ w ∈ x.writes inp, w.account.id = w.proof.account.id := fun w hw ↦
  (Item.writes_id w hw).elim id fun h ↦ h.trans (hnamed w hw).symm

/-! ## One iteration and one run -/

theorem transfer_exact_iff {c : Crypto} {proofsFrom proofsTo : List MerkleProof} {i : ℕ}
    {from_ to_ : Hash} {nonce fee amount : UInt64} {root root' : Hash} {g g' : StateTree}
    (hnd : (g.leaves.map Account.id).Nodup)
    (hstep : transferStep c proofsFrom proofsTo i to_ (fun a b ↦ transfer a b nonce fee amount)
      root = .ok root')
    (hws : Rewrites g (transferWrites proofsFrom proofsTo i from_ to_ fee amount) g')
    (hnamed : TransferNamed proofsFrom proofsTo i from_ to_ fee amount) :
    exactTree g' = Ledger.apply (exactTree g) (.transfer from_ to_ fee.toNat amount.toNat) ↔
      TransferFresh proofsFrom proofsTo i nonce fee amount := by
  obtain ⟨p, hp, -, hres⟩ := transferStep_eq_ok.mp hstep
  have hid := (hnamed p hp).1
  simp only [transferWrites, hp] at hws
  obtain ⟨a, ha, -⟩ | ⟨a, b, q, hab, hq, -, -⟩ := hres
  · obtain ⟨hnonce, -, ⟨hunpaid, -⟩ | ⟨-, -, hr⟩⟩ := transfer_eq_ok_iff.mp ha
    swap
    · exact absurd hr (by simp)
    rw [if_neg hunpaid] at hws
    obtain _ | ⟨found, _ | _⟩ := hws
    rw [failure_exact_iff hnd found hid hunpaid, TransferFresh, hnonce]
    exact ⟨fun h ↦ ⟨h, fun p' hp' hpaid ↦ absurd hpaid
      (Option.some_inj.mp (hp.symm.trans hp') ▸ hunpaid)⟩, And.left⟩
  · obtain ⟨hnonce, -, ⟨-, hr⟩ | ⟨hpaid, -, -⟩⟩ := transfer_eq_ok_iff.mp hab
    · exact absurd hr (by simp)
    have hid' := (hnamed p hp).2 hpaid q hq
    simp only [if_pos hpaid, creditWrites, hq] at hws
    obtain _ | ⟨found, _ | ⟨found', _ | _⟩⟩ := hws
    rw [success_exact_iff hnd found hid found' hid' hpaid, TransferFresh, hnonce]
    refine and_congr_right fun _ ↦ ⟨fun h p' _ _ q' hq' ↦ ?_, fun h ↦ h p hp hpaid q hq⟩
    rwa [← Option.some_inj.mp (hq.symm.trans hq')]

/-- **One operation** of the guest is the operation of the ledger if and only if it is fresh. -/
theorem Item.step_exact_iff {c : Crypto} {inp : TransitionInputs} {x : Item} {root root' : Hash}
    {g g' : StateTree} (hnd : (g.leaves.map Account.id).Nodup)
    (hstep : x.step c inp root = .ok root') (hws : Rewrites g (x.writes inp) g')
    (hnamed : ∀ w ∈ x.writes inp, w.Named) :
    exactTree g' = Ledger.run (exactTree g) x.ops ↔ x.Fresh inp := by
  cases x with
  | deposit d i =>
    obtain ⟨p, a, hp, -, ha, -⟩ := depositStep_eq_ok.mp hstep
    obtain ⟨hfits, -⟩ := applyDeposit_eq_ok_iff.mp ha
    have hid := depositWrites_named.mp hnamed p hp
    simp only [Item.writes, depositWrites, hp] at hws
    obtain _ | ⟨found, _ | _⟩ := hws
    exact iff_of_true (deposit_exact hnd found hid hfits) trivial
  | forced tx i =>
    obtain ⟨hdummy, -⟩ | ⟨hdummy, htransfer⟩ := forcedStep_eq_ok.mp hstep
    · rw [Item.writes, forcedWrites, if_pos hdummy] at hws
      obtain _ | _ := hws
      rw [Item.ops, if_pos hdummy]
      exact iff_of_true rfl fun h ↦ absurd hdummy h
    · rw [Item.writes, forcedWrites, if_neg hdummy] at hws
      have htransferNamed := forcedWrites_named.mp hnamed hdummy
      rw [Item.ops, if_neg hdummy, Item.Fresh]
      exact (transfer_exact_iff hnd htransfer hws htransferNamed).trans
        ⟨fun h _ ↦ h, fun h ↦ h hdummy⟩
  | transaction tx i =>
    exact transfer_exact_iff hnd hstep hws (transferWrites_named.mp hnamed)

/-- **A run**: every prefix of it is the run of the ledger if and only if all its operations are
fresh. -/
theorem run_exact_iff {c : Crypto} {inp : TransitionInputs} {xs : List Item} :
    ∀ {g g' : StateTree} {root root' : Hash}, (g.leaves.map Account.id).Nodup →
      xs.foldlM (fun root x ↦ x.step c inp root) root = .ok root' →
      Rewrites g (xs.flatMap (Item.writes inp)) g' →
      (∀ w ∈ xs.flatMap (Item.writes inp), w.Named) →
      ((∀ k, exactTree (rewrite g ((xs.take k).flatMap (Item.writes inp)))
          = Ledger.run (exactTree g) ((xs.take k).flatMap Item.ops)) ↔
        ∀ x ∈ xs, x.Fresh inp) := by
  induction xs with
  | nil => exact fun _ _ _ _ ↦ iff_of_true (fun k ↦ by simp [rewrite, Ledger.run]) (by simp)
  | cons x xs ih =>
    intro g g' root root' hnd hrun hws hnamed
    obtain ⟨mid, hstep, hrest⟩ := Run.foldlM_cons_eq_ok.mp hrun
    rw [List.flatMap_cons] at hws hnamed
    rw [List.forall_mem_append] at hnamed
    obtain ⟨u, hu, hws'⟩ := Rewrites.append_iff.mp hws
    have hkeys := hu.keys (Item.writes_keeps_id hnamed.1)
    have hone := Item.step_exact_iff hnd hstep hu hnamed.1
    have hmany := ih (hkeys ▸ hnd) hrest hws' hnamed.2
    obtain rfl := hu.eq_rewrite
    have hcons : ∀ k, exactTree (rewrite g (((x :: xs).take (k + 1)).flatMap (Item.writes inp)))
          = Ledger.run (exactTree g) (((x :: xs).take (k + 1)).flatMap Item.ops) ↔
        exactTree (rewrite (rewrite g (x.writes inp)) ((xs.take k).flatMap (Item.writes inp)))
          = Ledger.run (Ledger.run (exactTree g) x.ops) ((xs.take k).flatMap Item.ops) := by
      intro k
      rw [List.take_succ_cons, List.flatMap_cons, List.flatMap_cons, Ledger.run_append]
      simp only [rewrite, List.foldl_append]
    rw [List.forall_mem_cons, ← hone]
    constructor
    · intro h
      have hx : exactTree (rewrite g (x.writes inp)) = Ledger.run (exactTree g) x.ops :=
        (hcons 0).mp (h 1)
      exact ⟨hx, hmany.mp fun k ↦ by rw [(hcons k).mp (h (k + 1)), hx]⟩
    · rintro ⟨hx, hxs⟩ k
      cases k with
      | zero => rfl
      | succ k => rw [hcons, ← hx, hmany.mpr hxs k]

/-! ## Prefixes of an input -/

theorem zipIdx_take {α : Type} (l : List α) (k : ℕ) : (l.take k).zipIdx = l.zipIdx.take k := by
  refine List.ext_getElem? fun i ↦ ?_
  rw [List.getElem?_zipIdx, List.getElem?_take, List.getElem?_take, List.getElem?_zipIdx]
  split <;> rfl

theorem items_upTo (inp : TransitionInputs) (k : ℕ) : items (inp.upTo k) = (items inp).take k := by
  simp only [items, TransitionInputs.upTo, zipIdx_take, List.map_take, List.take_append,
    List.length_map, List.length_zipIdx]

theorem Item.step_upTo (c : Crypto) (inp : TransitionInputs) (k : ℕ) (root : Hash) (x : Item) :
    x.step c (inp.upTo k) root = x.step c inp root := by
  cases x <;> rfl

theorem writes_upTo (inp : TransitionInputs) (k : ℕ) :
    writes (inp.upTo k) = ((items inp).take k).flatMap (Item.writes inp) := by
  have hx : Item.writes (inp.upTo k) = Item.writes inp := by
    funext x
    cases x <;> rfl
  rw [writes, items_upTo, hx]

theorem ledgerOps_upTo (inp : TransitionInputs) (k : ℕ) :
    ledgerOps (inp.upTo k) = ((items inp).take k).flatMap Item.ops := by
  rw [ledgerOps, items_upTo]

theorem writes_upTo_subset (inp : TransitionInputs) (k : ℕ) :
    ∀ w ∈ writes (inp.upTo k), w ∈ writes inp := by
  rw [writes_upTo, writes]
  intro w hw
  obtain ⟨x, hx, hw⟩ := List.mem_flatMap.mp hw
  exact List.mem_flatMap.mpr ⟨x, List.mem_of_mem_take hx, hw⟩

/-- A prefix of a run that returns returns. -/
theorem executeTransition_upTo {c : Crypto} {inp : TransitionInputs} {out : Hash × Hash × Hash}
    (h : executeTransition c inp = .ok out) (k : ℕ) :
    ∃ root dh fh, executeTransition c (inp.upTo k) = .ok (root, dh, fh) := by
  obtain ⟨root, dh, fh⟩ := out
  have hrun := (executeTransition_eq_ok_items.mp h).2.2
  rw [← List.take_append_drop k (items inp)] at hrun
  obtain ⟨mid, hmid, -⟩ := Run.foldlM_append_eq_ok.mp hrun
  refine ⟨mid, _, _, executeTransition_eq_ok_items.mpr ⟨rfl, rfl, ?_⟩⟩
  simp only [items_upTo, Item.step_upTo]
  exact hmid

/-! ## The theorem -/

theorem Ledger.empties_run (t : LedgerTree) (ops : List LedgerOp) :
    (Ledger.run t ops).empties = t.empties := by
  have hadjust : ∀ (t : LedgerTree) (k : Hash) (f : LedgerAccount → LedgerAccount),
      (t.adjust LedgerAccount.id k f).empties = t.empties := fun t k f ↦ Tree.empties_map _ t
  induction ops generalizing t with
  | nil => rfl
  | cons op ops ih =>
    refine (ih (Ledger.apply t op)).trans ?_
    cases op with
    | deposit to_ amount => exact hadjust _ _ _
    | transfer from_ to_ fee amount =>
      rw [Ledger.apply]
      split
      · rfl
      · split
        · rw [hadjust, hadjust]
        · exact hadjust _ _ _

/-- What the run hashes, and what the roots of the reference ledger's trees hash. -/
def ledgerHashed (c : Crypto) (t : StateTree) (inp : TransitionInputs) :
    Set (Preimage Account Hash) :=
  hashedBy c t (writes inp) ∪ {p | ∃ k t', exactTree t'
    = Ledger.run (exactTree t) (ledgerOps (inp.upTo k)) ∧ p ∈ t'.preimages (stateDigest c)}

theorem computesLedger_upTo_iff {c : Crypto} {t : StateTree} {inp : TransitionInputs}
    {out : Hash × Hash × Hash} (hroot : inp.preStateRoot = t.root (stateDigest c))
    (hcf : CollisionFree c (ledgerHashed c t inp) t) (hrun : executeTransition c inp = .ok out)
    (k : ℕ) :
    ComputesLedger c t (inp.upTo k) ↔
      exactTree (rewrite t (((items inp).take k).flatMap (Item.writes inp)))
        = Ledger.run (exactTree t) (((items inp).take k).flatMap Item.ops) := by
  obtain ⟨root, dh, fh, hk⟩ := executeTransition_upTo hrun k
  have hreplay : Replay c (t.root (stateDigest c)) (writes (inp.upTo k)) root :=
    hroot ▸ executeTransition_replay hk
  obtain ⟨-, hfinal, hcf'⟩ := Replay.rewrites
    (fun w hw p hp ↦ Or.inl (Or.inr ⟨w, writes_upTo_subset inp k w hw, hp⟩)) hcf hreplay
  rw [← writes_upTo, ← ledgerOps_upTo]
  constructor
  · rintro ⟨root', _, _, t', hk', hledger, ht'⟩
    rw [hk, Except.ok.injEq, Prod.mk.injEq] at hk'
    have hempties : t'.empties = t.empties := by
      rw [← Tree.empties_map Account.exact t', ← Tree.empties_map Account.exact t]
      exact (congrArg Tree.empties hledger).trans (Ledger.empties_run _ _)
    have hwithin : t'.Within (stateDigest c) (ledgerHashed c t inp) :=
      ⟨fun p hp ↦ Or.inr ⟨k, t', hledger, hp⟩, fun e he ↦ hcf.within.empties e (hempties ▸ he)⟩
    have heq : rewrite t (writes (inp.upTo k)) = t' :=
      eq_of_root_eq _ (stateDigest_injOn hcf.injOn) hcf'.within hwithin
        (hfinal.trans (hk'.1.trans ht'.symm))
    rw [heq, hledger]
  · exact fun h ↦ ⟨root, dh, fh, _, hk, h, hfinal⟩

/-- **The guest and the ledger**: a run that returns arrives at the root of the reference ledger if
every transfer is fresh, and only then it does so after each of its operations. -/
theorem computes_ledger_iff (c : Crypto) (t : StateTree) (inp : TransitionInputs)
    (out : Hash × Hash × Hash) (hnd : (t.leaves.map Account.id).Nodup)
    (hroot : inp.preStateRoot = t.root (stateDigest c)) (hnamed : ProofsNamed inp)
    (hrun : executeTransition c inp = .ok out) (hcf : CollisionFree c (ledgerHashed c t inp) t) :
    (RecipientsFresh inp → ComputesLedger c t inp) ∧
      ((∀ k, ComputesLedger c t (inp.upTo k)) ↔ RecipientsFresh inp) := by
  obtain ⟨root, dh, fh⟩ := out
  have hreplay : Replay c (t.root (stateDigest c)) (writes inp) root :=
    hroot ▸ executeTransition_replay hrun
  obtain ⟨hws, -, -⟩ := Replay.rewrites (fun w hw p hp ↦ Or.inl (Or.inr ⟨w, hw, hp⟩)) hcf hreplay
  have hiff : (∀ k, ComputesLedger c t (inp.upTo k)) ↔ RecipientsFresh inp := by
    rw [← forall_fresh_iff, ← run_exact_iff hnd (executeTransition_eq_ok_items.mp hrun).2.2 hws
      (writes_named_iff.mpr hnamed)]
    exact forall_congr' fun k ↦ computesLedger_upTo_iff hroot hcf hrun k
  have hall : inp.upTo (items inp).length = inp := by
    have hlen : (items inp).length
        = inp.deposits.length + (inp.forcedTxs.length + inp.txs.length) := by
      simp [items]
    rw [TransitionInputs.upTo, List.take_of_length_le (by omega),
      List.take_of_length_le (by omega), List.take_of_length_le (by omega)]
  exact ⟨fun hfresh ↦ hall ▸ hiff.mpr hfresh (items inp).length, hiff⟩

/-! ## A transfer to oneself -/

namespace SelfTransfer

def alice : Account := { id := Hash.ofByte 1, balance := 10, nonce := 0 }

/-- Alice is the only account. -/
def tree : StateTree := .leaf alice

def tx : Transaction := { from_ := alice.id, to_ := alice.id, nonce := 0, fee := 1, amount := 5 }

def paid : Account := debited alice 1 5

/-- What the guest leaves of Alice. -/
def reset : Account := credited (Account.new alice.id) 5

/-- What the reference ledger makes of Alice. -/
def expected : Account := { id := Hash.ofByte 1, balance := 9, nonce := 1 }

def input (c : Crypto) : TransitionInputs where
  preStateRoot := tree.root (stateDigest c)
  txs := [tx]
  deposits := []
  forcedTxs := []
  proofsDeposits := []
  proofsForcedFrom := []
  proofsForcedTo := []
  proofsTxsFrom := [{ account := alice, siblings := [] }]
  proofsTxsTo := [{ account := paid, siblings := [] }]

theorem executeTransition_input (c : Crypto) :
    executeTransition c (input c) = .ok (reset.hash c, hashDeposits c [], hashForcedTxs c []) := by
  have hfrom : MerkleProof.verify c ⟨alice, []⟩ (tree.root (stateDigest c)) = true :=
    (verify_iff _ _ _).mpr rfl
  have hto : MerkleProof.verify c ⟨paid, []⟩ (computeNewRoot c ⟨alice, []⟩ (paid.hash c)) = true :=
    (verify_iff _ _ _).mpr rfl
  have happly : applyTransaction alice (Account.new alice.id) tx = .ok (.success paid reset) :=
    transfer_eq_ok_iff.mpr ⟨rfl, by decide, Or.inr ⟨by decide, by decide, rfl⟩⟩
  have hstep : txStep c (input c).proofsTxsFrom (input c).proofsTxsTo (input c).preStateRoot (tx, 0)
      = .ok (reset.hash c) :=
    transferStep_eq_ok.mpr ⟨⟨alice, []⟩, rfl, hfrom,
      Or.inr ⟨paid, reset, ⟨paid, []⟩, happly, rfl, hto, rfl⟩⟩
  exact executeTransition_eq_ok.mpr
    ⟨rfl, rfl, _, _, rfl, rfl, Run.foldlM_cons_eq_ok.mpr ⟨_, hstep, rfl⟩⟩

theorem ledger_tx : Ledger.run (exactTree tree) [.transfer alice.id alice.id 1 5]
    = exactTree (.leaf expected) := by decide

theorem exactTree_injective : Function.Injective exactTree :=
  Tree.map_injective Account.exact_injective

theorem proofsNamed (c : Crypto) : ProofsNamed (input c) := by
  rw [← writes_named_iff]
  intro w hw
  have hw' : w ∈ [⟨alice.id, ⟨alice, []⟩, paid⟩, ⟨alice.id, ⟨paid, []⟩, reset⟩] := hw
  simp only [List.mem_cons, List.not_mem_nil, or_false] at hw'
  rcases hw' with rfl | rfl <;> rfl

/-- The preimages are four leaves. -/
theorem mem_ledgerHashed (c : Crypto) : ∀ p ∈ ledgerHashed c tree (input c),
    ∃ a ∈ [alice, paid, reset, expected], p = .leaf a := by
  rintro p ((hp | ⟨w, hw, hp⟩) | ⟨k, t', hledger, hp⟩)
  · exact ⟨alice, by simp, hp⟩
  · have hw' : w ∈ [⟨alice.id, ⟨alice, []⟩, paid⟩, ⟨alice.id, ⟨paid, []⟩, reset⟩] := hw
    simp only [List.mem_cons, List.not_mem_nil, or_false] at hw'
    rcases hw' with rfl | rfl
    · simp only [LeafWrite.preimages, pathPreimages, Set.union_self, Set.mem_insert_iff,
        Set.mem_empty_iff_false, or_false] at hp
      rcases hp with rfl | rfl
      · exact ⟨alice, by simp, rfl⟩
      · exact ⟨paid, by simp, rfl⟩
    · simp only [LeafWrite.preimages, pathPreimages, Set.union_self, Set.mem_insert_iff,
        Set.mem_empty_iff_false, or_false] at hp
      rcases hp with rfl | rfl
      · exact ⟨paid, by simp, rfl⟩
      · exact ⟨reset, by simp, rfl⟩
  · cases k with
    | zero =>
      obtain rfl : t' = tree := exactTree_injective hledger
      exact ⟨alice, by simp, hp⟩
    | succ k =>
      have hops : ledgerOps ((input c).upTo (k + 1)) = [.transfer alice.id alice.id 1 5] := by
        rw [ledgerOps_upTo, List.take_of_length_le (Nat.le_add_left 1 k)]
        rfl
      rw [hops, ledger_tx] at hledger
      rw [exactTree_injective hledger] at hp
      exact ⟨expected, by simp, hp⟩

set_option maxRecDepth 10000 in
theorem hashes_nodup : ([alice, paid, reset, expected].map (Account.hash .sha3Crate)).Nodup := by
  decide +kernel

theorem collisionFree :
    CollisionFree .sha3Crate (ledgerHashed .sha3Crate tree (input .sha3Crate)) tree :=
  collisionFree_leaves (mem_ledgerHashed _) hashes_nodup (Or.inl (Or.inl rfl))

end SelfTransfer

open SelfTransfer in
/-- A transfer to oneself leaves an account that no ledger leaves. -/
theorem selfTransfer_not_computesLedger :
    (tree.leaves.map Account.id).Nodup ∧
      (input .sha3Crate).preStateRoot = tree.root (stateDigest .sha3Crate) ∧
      ProofsNamed (input .sha3Crate) ∧
      executeTransition .sha3Crate (input .sha3Crate)
        = .ok (reset.hash .sha3Crate, hashDeposits .sha3Crate [], hashForcedTxs .sha3Crate []) ∧
      CollisionFree .sha3Crate (ledgerHashed .sha3Crate tree (input .sha3Crate)) tree ∧
      ¬ ComputesLedger .sha3Crate tree (input .sha3Crate) := by
  refine ⟨by decide, rfl, proofsNamed _, executeTransition_input _, collisionFree, ?_⟩
  rintro ⟨root, _, _, t', hrun, hledger, ht'⟩
  rw [executeTransition_input, Except.ok.injEq, Prod.mk.injEq] at hrun
  have hexp : t' = .leaf expected := exactTree_injective (hledger.trans ledger_tx)
  have hhash : expected.hash .sha3Crate = reset.hash .sha3Crate := by
    rw [hrun.1, ← ht', hexp]
    rfl
  have hinj := List.inj_on_of_nodup_map hashes_nodup
  exact absurd (hinj (by simp) (by simp) hhash) (by decide)

open SelfTransfer in
theorem computes_ledger_iff_selfTransfer :
    (RecipientsFresh (input .sha3Crate) → ComputesLedger .sha3Crate tree (input .sha3Crate)) ∧
      ((∀ k, ComputesLedger .sha3Crate tree ((input .sha3Crate).upTo k)) ↔
        RecipientsFresh (input .sha3Crate)) :=
  computes_ledger_iff .sha3Crate tree _ _ (by decide) rfl (proofsNamed _)
    (executeTransition_input _) collisionFree

end TinyRollup
