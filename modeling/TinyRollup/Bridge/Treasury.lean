import TinyRollup.Bridge.History
import TinyRollup.Bridge.Withdrawals

/-!
# The ether of the contract

`deposit` and `forceTransaction` are payable, `withdraw` sends ether, and a transfer of more ether
than the contract has fails.  `Treasury` is the contract with its payments, its ether, and the fees
it has taken; `transact` and `transactAll` are `pay` and `payAll` with these kept, so a call that
reverts gives back the ether that came with it and takes back what was sent inside of it.

However the calls are nested, the ether in the contract and the payments are the ether it was
created with, the deposits and the fees (`Accounted`).  With the deposits that back the supply this
accounts for every wei of L1 by the balances behind the state root (`ether_accounted`): what the
contract lacks to pay out the supply is what it has paid.
-/

set_option autoImplicit false

namespace TinyRollup

open ByteString Word Stf HashTree

/-- The contract and its ether.  `fees` is history: the ether that came with forced transactions. -/
structure Treasury where
  vault : Vault
  balance : ℕ
  fees : ℕ

theorem Vault.totalPaid_concat (v : Vault) (bridge : Bridge) (p : Payment) :
    totalPaid ⟨bridge, v.paid ++ [p]⟩ = v.totalPaid + p.amount.toNat := by
  rw [totalPaid, List.map_append, List.sum_append]
  rfl

namespace Treasury

/-- The ether may have been there before the contract was. -/
def init (initialStateRoot : Hash) (balance : ℕ) : Treasury :=
  ⟨Vault.init initialStateRoot, balance, 0⟩

mutual

/-- One call, with the ether that comes with it and leaves. -/
def transact (env : Deployment) : Call → Treasury → Option Treasury
  | .deposit msg, v =>
    (v.vault.bridge.deposit msg).map fun bridge ↦
      ⟨{ v.vault with bridge }, v.balance + msg.value.toNat, v.fees⟩
  | .forceTransaction msg l2TxData, v =>
    (v.vault.bridge.forceTransaction msg l2TxData).map fun bridge ↦
      ⟨{ v.vault with bridge }, v.balance + msg.value.toNat, v.fees + msg.value.toNat⟩
  | .updateState publicValues proofBytes, v =>
    (v.vault.bridge.updateState env publicValues proofBytes).map fun bridge ↦
      ⟨{ v.vault with bridge }, v.balance, v.fees⟩
  | .withdraw msg amount nonce merkleProof receiver success, v =>
    match v.vault.bridge.beginWithdraw env msg amount nonce merkleProof with
    | none => none
    | some bridge =>
      -- The transfer fails if the contract has less ether, whatever the receiver does.
      if success ∧ amount.toNat ≤ v.balance then
        some (transactAll env receiver ⟨⟨bridge, v.vault.paid ++ [⟨msg.sender, amount, nonce⟩]⟩,
          v.balance - amount.toNat, v.fees⟩)
      else none

/-- Calls one after the other; the ones that revert leave everything as it is. -/
def transactAll (env : Deployment) : List Call → Treasury → Treasury
  | [], v => v
  | call :: calls, v => transactAll env calls ((transact env call v).getD v)

end

/-! ## Steps -/

/-- One change of the state, at any depth of the calls. -/
inductive Step (env : Deployment) : Treasury → Treasury → Prop
  | deposit {v : Treasury} {bridge : Bridge} {msg : Msg}
      (h : v.vault.bridge.deposit msg = some bridge) :
      Step env v ⟨{ v.vault with bridge }, v.balance + msg.value.toNat, v.fees⟩
  | forceTransaction {v : Treasury} {bridge : Bridge} {msg : Msg} {l2TxData : Bytes}
      (h : v.vault.bridge.forceTransaction msg l2TxData = some bridge) :
      Step env v
        ⟨{ v.vault with bridge }, v.balance + msg.value.toNat, v.fees + msg.value.toNat⟩
  | updateState {v : Treasury} {bridge : Bridge} {publicValues proofBytes : Bytes}
      (h : v.vault.bridge.updateState env publicValues proofBytes = some bridge) :
      Step env v ⟨{ v.vault with bridge }, v.balance, v.fees⟩
  | withdraw {v : Treasury} {bridge : Bridge} {msg : Msg} {amount : U256} {nonce : UInt64}
      {merkleProof : List Hash}
      (h : v.vault.bridge.beginWithdraw env msg amount nonce merkleProof = some bridge)
      (hfunds : amount.toNat ≤ v.balance) :
      Step env v ⟨⟨bridge, v.vault.paid ++ [⟨msg.sender, amount, nonce⟩]⟩,
        v.balance - amount.toNat, v.fees⟩

abbrev Steps (env : Deployment) : Treasury → Treasury → Prop := Relation.ReflTransGen (Step env)

mutual

theorem transact_steps (env : Deployment) : ∀ (call : Call) (v v' : Treasury),
    transact env call v = some v' → Steps env v v'
  | .deposit msg, v, v', h => by
    rw [transact] at h
    obtain ⟨bridge, hbridge, rfl⟩ := Option.map_eq_some_iff.mp h
    exact .single (.deposit hbridge)
  | .forceTransaction msg l2TxData, v, v', h => by
    rw [transact] at h
    obtain ⟨bridge, hbridge, rfl⟩ := Option.map_eq_some_iff.mp h
    exact .single (.forceTransaction hbridge)
  | .updateState publicValues proofBytes, v, v', h => by
    rw [transact] at h
    obtain ⟨bridge, hbridge, rfl⟩ := Option.map_eq_some_iff.mp h
    exact .single (.updateState hbridge)
  | .withdraw msg amount nonce merkleProof receiver success, v, v', h => by
    rw [transact] at h
    split at h
    · exact absurd h (by simp)
    · rename_i bridge hbegin
      split at h
      · rename_i hfunds
        rw [← Option.some_inj.mp h]
        exact .head (.withdraw hbegin hfunds.2) (transactAll_steps env receiver _)
      · exact absurd h (by simp)

theorem transactAll_steps (env : Deployment) : ∀ (calls : List Call) (v : Treasury),
    Steps env v (transactAll env calls v)
  | [], _ => .refl
  | call :: calls, v => by
    rw [transactAll]
    have hfirst : Steps env v ((transact env call v).getD v) := by
      cases h : transact env call v with
      | none => exact .refl
      | some v' => exact transact_steps env call v v' h
    exact hfirst.trans (transactAll_steps env calls _)

end

section

variable {env : Deployment} {v v' : Treasury} {balance : ℕ}

/-- A change of the treasury is a change of the vault. -/
theorem Step.vault (h : Step env v v') : Vault.Step env v.vault v'.vault := by
  cases h with
  | deposit h =>
    refine .other (.deposit h) ?_
    obtain ⟨-, rfl⟩ := Bridge.deposit_eq_some.mp h
    rfl
  | forceTransaction h =>
    refine .other (.forceTransaction h) ?_
    obtain ⟨-, rfl⟩ := Bridge.forceTransaction_eq_some.mp h
    rfl
  | updateState h =>
    refine .other (.updateState h) ?_
    obtain ⟨_, _, _, -, -, -, -, -, -, -, _, _, -, -, rfl⟩ := Bridge.updateState_eq_some h
    rfl
  | withdraw h _ => exact .withdraw h

theorem Steps.vault (h : Steps env v v') : Vault.Steps env v.vault v'.vault :=
  h.lift Treasury.vault fun _ _ hstep ↦ hstep.vault

theorem Steps.bridge (h : Steps env v v') : Bridge.Steps env v.vault.bridge v'.vault.bridge := by
  refine h.lift (fun w : Treasury ↦ w.vault.bridge) fun w w' hstep ↦ ?_
  cases hstep with
  | deposit h => exact .deposit h
  | forceTransaction h => exact .forceTransaction h
  | updateState h => exact .updateState h
  | withdraw h _ => exact .beginWithdraw h

/-! ## The invariant -/

/-- The ether that came in is in the contract or was paid. -/
structure Accounted (balance : ℕ) (v : Treasury) : Prop where
  ether : v.balance + v.vault.totalPaid
    = balance + Bridge.totalAmount v.vault.bridge.pendingDeposits + v.fees
  fees : Bridge.forcedTxFee * v.vault.bridge.forcedTransactions.length ≤ v.fees

theorem accounted_init (root : Hash) (balance : ℕ) : (init root balance).Accounted balance where
  ether := rfl
  fees := Nat.le_refl 0

theorem Step.accounted (h : Step env v v') (hv : v.Accounted balance) : v'.Accounted balance := by
  obtain ⟨hether, hfees⟩ := hv
  cases h with
  | @deposit bridge msg h =>
    obtain ⟨-, rfl⟩ := Bridge.deposit_eq_some.mp h
    refine ⟨?_, hfees⟩
    show v.balance + msg.value.toNat + v.vault.totalPaid = balance
      + Bridge.totalAmount (v.vault.bridge.pendingDeposits ++ [_]) + v.fees
    have hone : Bridge.totalAmount [⟨msg.sender, msg.value, msg.timestamp⟩] = msg.value.toNat :=
      Nat.add_zero _
    rw [Bridge.totalAmount_append, hone]
    omega
  | @forceTransaction bridge msg l2TxData h =>
    obtain ⟨⟨hfee, -⟩, rfl⟩ := Bridge.forceTransaction_eq_some.mp h
    refine ⟨?_, ?_⟩
    · show v.balance + msg.value.toNat + v.vault.totalPaid = balance
        + Bridge.totalAmount v.vault.bridge.pendingDeposits + (v.fees + msg.value.toNat)
      omega
    · show Bridge.forcedTxFee * (v.vault.bridge.forcedTransactions ++ [_]).length
        ≤ v.fees + msg.value.toNat
      rw [List.length_append, List.length_singleton, Nat.mul_add, Nat.mul_one]
      exact Nat.add_le_add hfees hfee
  | updateState h =>
    obtain ⟨_, _, _, -, -, -, -, -, -, -, _, _, -, -, rfl⟩ := Bridge.updateState_eq_some h
    exact ⟨hether, hfees⟩
  | @withdraw bridge msg amount nonce merkleProof h hfunds =>
    obtain ⟨nullifiers, rfl⟩ := Bridge.beginWithdraw_eq_some h
    refine ⟨?_, hfees⟩
    have hpaid := v.vault.totalPaid_concat { v.vault.bridge with nullifiers }
      ⟨msg.sender, amount, nonce⟩
    dsimp only at hpaid ⊢
    rw [hpaid]
    omega

theorem Steps.accounted (h : Steps env v v') (hv : v.Accounted balance) : v'.Accounted balance := by
  induction h with
  | refl => exact hv
  | tail _ hstep ih => exact hstep.accounted ih

end

/-- **Every wei is accounted for.**  Whoever calls the contract, however the calls are nested and
whoever makes the proofs, behind its root there is a tree of accounts such that the balances of the
tree, what the guest runs burned, the deposits that wait and the fees are together, but for what was
there at the start, the ether of the contract and its payments; every forced transaction has paid
its fee, and no payment was made twice. -/
theorem ether_accounted (env : Deployment) (runOf : Bytes → TransitionInputs)
    (hsound : ∀ publicValues proofBytes,
      env.verifyProof env.rollupProgramVKey publicValues proofBytes = true →
        guestMain env.crypto (runOf publicValues) = .ok publicValues)
    (t₀ : StateTree) (balance : ℕ) (calls : List Call) {v : Treasury}
    (hv : transactAll env calls (init (t₀.root (stateDigest env.crypto)) balance) = v)
    (hsha : CollisionFree env.crypto
      (hashedBy env.crypto t₀ (Bridge.committedWrites runOf v.vault.bridge)) t₀)
    (hkeccak : Set.InjOn (Bridge.first28 ∘ env.crypto.keccak256)
      (Bridge.hashed env runOf v.vault.bridge)) :
    ∃ t : StateTree, t.root (stateDigest env.crypto) = v.vault.bridge.stateRoot ∧
      balance + (t.supply + Bridge.totalBurned runOf v.vault.bridge
          + Bridge.totalAmount (v.vault.bridge.pendingDeposits.drop
            v.vault.bridge.processedDepositCount.toNat) + v.fees)
        = t₀.supply + (v.balance + v.vault.totalPaid) ∧
      Bridge.forcedTxFee * v.vault.bridge.forcedTransactions.length ≤ v.fees ∧
      v.vault.paid.Nodup := by
  have hsteps : Steps env (init (t₀.root (stateDigest env.crypto)) balance) v :=
    hv ▸ transactAll_steps env calls _
  obtain ⟨t, hroot, -, hsupply⟩ := hsteps.bridge.backed hsound hsha hkeccak
  obtain ⟨hether, hfees⟩ := hsteps.accounted (accounted_init _ balance)
  have hsettled := hsteps.vault.settled (Vault.settled_init _)
  refine ⟨t, hroot, ?_, hfees, hsettled.nodup⟩
  rw [← List.take_append_drop v.vault.bridge.processedDepositCount.toNat
    v.vault.bridge.pendingDeposits, Bridge.totalAmount_append] at hether
  omega

end Treasury

/-! ## A withdrawal that leaves too little -/

section

variable {env : Deployment} {s : Bridge} {p : Payment} {msg : Msg} {merkleProof : List Hash}

/-- The contract with the nullifier of a payment set. -/
def Bridge.claimed (env : Deployment) (p : Payment) (s : Bridge) : Bridge :=
  { s with nullifiers := Function.update s.nullifiers (p.nullifier env) true }

theorem Bridge.beginWithdraw_eq_claimed (hsender : msg.sender = p.sender)
    (hunused : s.nullifiers (p.nullifier env) = false)
    (hproof : env.merkleVerify merkleProof s.stateRoot (p.nullifier env) = true) :
    s.beginWithdraw env msg p.amount p.nonce merkleProof = some (s.claimed env p) := by
  rw [beginWithdraw, hsender]
  exact if_pos ⟨hunused, hproof⟩

/-- A payment that was made cannot be claimed again. -/
theorem Bridge.beginWithdraw_claimed (hsender : msg.sender = p.sender) :
    (s.claimed env p).beginWithdraw env msg p.amount p.nonce merkleProof = none := by
  have hset : (s.claimed env p).nullifiers (p.nullifier env) = true := Function.update_self _ _ _
  rw [beginWithdraw, hsender]
  exact if_neg fun h ↦ absurd (hset.symm.trans h.1) (by simp)

end

namespace Withdrawn

open Bridge OneDeposit

/-- The contract accepts every Merkle proof, and the one batch. -/
def env : Deployment :=
  { OneDeposit.env .sha3Crate (.new sample.to_) sample with merkleVerify := fun _ _ _ ↦ true }

def alice : Msg := depositMsg sample

/-- Three of the five wei that were deposited are withdrawn; the receiver tries it once more, and
then for more than there is. -/
def withdrawal : Call :=
  .withdraw alice 3 0 [] [.withdraw alice 3 0 [] [] true, .withdraw alice 3 1 [] [] true] true

def calls : List Call := OneDeposit.calls .sha3Crate (.new sample.to_) sample ++ [withdrawal]

def claim : Payment := ⟨alice.sender, 3, 0⟩

/-- What the receiver tries changes nothing. -/
theorem transactAll_receiver (s : Bridge) :
    Treasury.transactAll env [.withdraw alice 3 0 [] [] true, .withdraw alice 3 1 [] [] true]
      ⟨⟨s.claimed env claim, [claim]⟩, 2, 0⟩ = ⟨⟨s.claimed env claim, [claim]⟩, 2, 0⟩ := by
  have hagain : Treasury.transact env (.withdraw alice 3 0 [] [] true)
      ⟨⟨s.claimed env claim, [claim]⟩, 2, 0⟩ = none := by
    rw [Treasury.transact, show (s.claimed env claim).beginWithdraw env alice 3 0 [] = none from
      beginWithdraw_claimed (p := claim) rfl]
  have hmore : Treasury.transact env (.withdraw alice 3 1 [] [] true)
      ⟨⟨s.claimed env claim, [claim]⟩, 2, 0⟩ = none := by
    rw [Treasury.transact]
    split
    · rfl
    · exact if_neg fun h ↦ absurd h.2 (by simp)
  rw [Treasury.transactAll, hagain, Option.getD_none, Treasury.transactAll, hmore, Option.getD_none,
    Treasury.transactAll]

theorem transactAll_calls : ∃ v,
    Treasury.transactAll env calls
        (Treasury.init ((Account.new sample.to_).hash .sha3Crate) 0) = v ∧
      v.balance = 2 ∧ v.fees = 0 ∧ v.vault.paid = [claim] ∧
      v.vault.bridge.accepted = [publicValues .sha3Crate (.new sample.to_) sample] ∧
      v.vault.bridge.pendingDeposits = [depositEntry sample] ∧
      v.vault.bridge.forcedTransactions = [] := by
  obtain ⟨s, -, hupdate, haccepted, hpending, hforced⟩ :=
    execAll_calls .sha3Crate (a := .new sample.to_) (d := sample) (by decide) (by decide)
  have hnullifiers : s.nullifiers (claim.nullifier env) = false := by
    obtain ⟨_, _, _, -, -, -, -, -, -, -, _, _, -, -, rfl⟩ := updateState_eq_some hupdate
    rfl
  have hdeposit : Treasury.transact env (.deposit (depositMsg sample))
      (Treasury.init ((Account.new sample.to_).hash .sha3Crate) 0)
      = some ⟨⟨deposited .sha3Crate (.new sample.to_) sample, []⟩, 5, 0⟩ := by
    have h : (init ((Account.new sample.to_).hash .sha3Crate)).deposit (depositMsg sample)
        = some (deposited .sha3Crate (.new sample.to_) sample) :=
      exec_deposit .sha3Crate (by decide)
    rw [Treasury.transact]
    exact congrArg (Option.map _) h
  have haccept : Treasury.transact env
      (.updateState (publicValues .sha3Crate (.new sample.to_) sample) [])
      ⟨⟨deposited .sha3Crate (.new sample.to_) sample, []⟩, 5, 0⟩ = some ⟨⟨s, []⟩, 5, 0⟩ := by
    rw [Treasury.transact]
    exact congrArg (Option.map _) hupdate
  have hwithdraw : Treasury.transact env withdrawal ⟨⟨s, []⟩, 5, 0⟩
      = some ⟨⟨s.claimed env claim, [claim]⟩, 2, 0⟩ := by
    have hbegin : s.beginWithdraw env alice 3 0 [] = some (s.claimed env claim) :=
      beginWithdraw_eq_claimed (p := claim) rfl hnullifiers rfl
    rw [withdrawal, Treasury.transact, hbegin]
    refine (if_pos ⟨rfl, ?_⟩).trans (congrArg some (transactAll_receiver s))
    simp
  refine ⟨_, rfl, ?_⟩
  rw [calls, OneDeposit.calls, List.cons_append, List.cons_append, List.nil_append,
    Treasury.transactAll, hdeposit, Option.getD_some, Treasury.transactAll, haccept,
    Option.getD_some, Treasury.transactAll, hwithdraw, Option.getD_some, Treasury.transactAll]
  exact ⟨rfl, rfl, rfl, haccepted, hpending, hforced⟩

end Withdrawn

open Bridge OneDeposit in
open Withdrawn (env calls claim) in
/-- Of the five wei of the supply, the contract still has two. -/
theorem ether_accounted_withdrawn : ∃ (v : Treasury) (t : StateTree),
    Treasury.transactAll env calls
        (Treasury.init ((Account.new sample.to_).hash .sha3Crate) 0) = v ∧
      v.vault.paid = [claim] ∧ v.balance = 2 ∧
      t.root (stateDigest env.crypto) = v.vault.bridge.stateRoot ∧
      0 + (t.supply + totalBurned (fun _ ↦ input .sha3Crate (.new sample.to_) sample) v.vault.bridge
          + totalAmount (v.vault.bridge.pendingDeposits.drop
            v.vault.bridge.processedDepositCount.toNat) + v.fees)
        = 0 + (v.balance + v.vault.totalPaid) := by
  have hfits : UInt64.Fits ((Account.new sample.to_).balance.toNat + sample.amount.toNat) := by
    decide
  obtain ⟨v, hv, hbalance, -, hpaid, haccepted, hpending, hforced⟩ := Withdrawn.transactAll_calls
  have hsound : ∀ pv proofBytes, env.verifyProof env.rollupProgramVKey pv proofBytes = true →
      guestMain env.crypto (input .sha3Crate (.new sample.to_) sample) = .ok pv := by
    intro pv _ h
    rw [eq_of_beq h]
    exact guestMain_input _ hfits
  have hsha : CollisionFree env.crypto (hashedBy env.crypto (.leaf (.new sample.to_))
      (committedWrites (fun _ ↦ input .sha3Crate (.new sample.to_) sample) v.vault.bridge))
      (.leaf (.new sample.to_)) := by
    rw [committedWrites, haccepted, List.flatMap_singleton]
    exact collisionFree_leaf leaves_nodup
  have hkeccak : Set.InjOn (first28 ∘ env.crypto.keccak256)
      (hashed env (fun _ ↦ input .sha3Crate (.new sample.to_) sample) v.vault.bridge) := by
    refine (injOn .sha3Crate (a := .new sample.to_) digests_nodup hpending hforced).mono ?_
    rintro b ⟨_, _, hb⟩
    exact hb
  obtain ⟨t, hroot, hether, -, -⟩ :=
    Treasury.ether_accounted env (fun _ ↦ input .sha3Crate (.new sample.to_) sample) hsound
      (.leaf (.new sample.to_)) 0 calls hv hsha hkeccak
  exact ⟨v, t, hv, hpaid, hbalance, hroot, hether⟩

end TinyRollup
