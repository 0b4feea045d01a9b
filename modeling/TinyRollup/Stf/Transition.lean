import TinyRollup.Lib.Run
import TinyRollup.Stf.Commitment

/-!
# The guest program

`StateTransitioner::execute_transition` and the `main` of the guest.  The guest receives three
lists of operations and five lists of Merkle proofs from the host, and walks through the
operations with `current_root` as its only state.

The loops index the proof lists with the position of the operation, so the loops run over
`List.zipIdx`, and a proof that is missing is a panic.  The recipient of a transfer is the account
`Account::new(tx.to)` whatever the proof of the recipient carries; that proof is only looked at
after the transfer went through.

`executeTransition_eq_ok` takes a run that returned apart.
-/

set_option autoImplicit false

namespace TinyRollup

open ByteString

/-- What the guest reads from its input stream, in this order. -/
structure TransitionInputs where
  preStateRoot : Hash
  txs : List Transaction
  deposits : List Deposit
  forcedTxs : List ForcedTx
  proofsDeposits : List MerkleProof
  proofsForcedFrom : List MerkleProof
  proofsForcedTo : List MerkleProof
  proofsTxsFrom : List MerkleProof
  proofsTxsTo : List MerkleProof

namespace Stf

/-- `if !proof.verify(current_root) { return Err(..) }`. -/
def checkProof (c : Crypto) (proof : MerkleProof) (currentRoot : Hash) : Run StfError Unit :=
  if proof.verify c currentRoot then .ok () else Run.err .merkleProofVerificationFailed

/-- The body of the deposit loop. -/
def depositStep (c : Crypto) (proofsDeposits : List MerkleProof) (currentRoot : Hash)
    (item : Deposit × ℕ) : Run StfError Hash := do
  let proofTo ← Run.index proofsDeposits item.2
  checkProof c proofTo currentRoot
  let updatedAccount ← Run.ofExcept (applyDeposit proofTo.account item.1)
  return computeNewRoot c proofTo (updatedAccount.hash c)

/-- The common body of the two transfer loops; `apply` is the transfer on the two accounts. -/
def transferStep (c : Crypto) (proofsFrom proofsTo : List MerkleProof) (i : ℕ) (to_ : Hash)
    (apply : Account → Account → Except StfError TransactionResult) (currentRoot : Hash) :
    Run StfError Hash := do
  let proofFrom ← Run.index proofsFrom i
  checkProof c proofFrom currentRoot
  match ← Run.ofExcept (apply proofFrom.account (Account.new to_)) with
  | .success updatedFrom updatedTo =>
    let currentRoot := computeNewRoot c proofFrom (updatedFrom.hash c)
    let proofTo ← Run.index proofsTo i
    checkProof c proofTo currentRoot
    return computeNewRoot c proofTo (updatedTo.hash c)
  | .failure updatedFrom => return computeNewRoot c proofFrom (updatedFrom.hash c)

def forcedStep (c : Crypto) (proofsForcedFrom proofsForcedTo : List MerkleProof)
    (currentRoot : Hash) (item : ForcedTx × ℕ) : Run StfError Hash :=
  if item.1.from_ = Hash.default then
    return currentRoot
  else
    transferStep c proofsForcedFrom proofsForcedTo item.2 item.1.to_
      (fun from_ to_ ↦ applyForcedTx from_ to_ item.1) currentRoot

def txStep (c : Crypto) (proofsTxsFrom proofsTxsTo : List MerkleProof) (currentRoot : Hash)
    (item : Transaction × ℕ) : Run StfError Hash :=
  transferStep c proofsTxsFrom proofsTxsTo item.2 item.1.to_
    (fun from_ to_ ↦ applyTransaction from_ to_ item.1) currentRoot

def executeTransition (c : Crypto) (inp : TransitionInputs) :
    Run StfError (Hash × Hash × Hash) := do
  let depositsHash := hashDeposits c inp.deposits
  let forcedTxsHash := hashForcedTxs c inp.forcedTxs
  let currentRoot ←
    inp.deposits.zipIdx.foldlM (depositStep c inp.proofsDeposits) inp.preStateRoot
  let currentRoot ← inp.forcedTxs.zipIdx.foldlM
    (forcedStep c inp.proofsForcedFrom inp.proofsForcedTo) currentRoot
  let currentRoot ←
    inp.txs.zipIdx.foldlM (txStep c inp.proofsTxsFrom inp.proofsTxsTo) currentRoot
  return (currentRoot, depositsHash, forcedTxsHash)

end Stf

open Stf

/-- The `main` of the guest: the bytes it commits. -/
def guestMain (c : Crypto) (inp : TransitionInputs) : Run StfError Bytes :=
  let depositsLen := UInt32.ofNat inp.deposits.length
  let forcedTxsLen := UInt32.ofNat inp.forcedTxs.length
  match executeTransition c inp with
  | .error _ => Run.panic "main post_state_root err"
  | .ok (postStateRoot, depositsHash, forcedTxsHash) =>
    .ok <| PublicValues.abiEncode
      { preStateRoot := inp.preStateRoot
        postStateRoot := postStateRoot
        depositsCommitment := buildCommitment depositsHash depositsLen
        forcedTxsCommitment := buildCommitment forcedTxsHash forcedTxsLen }

/-! ## Runs that return -/

namespace Stf

theorem checkProof_eq_ok {c : Crypto} {proof : MerkleProof} {root : Hash} {u : Unit} :
    checkProof c proof root = .ok u ↔ proof.verify c root = true := by
  rw [checkProof]
  split
  · rename_i h
    exact iff_of_true rfl h
  · rename_i h
    exact iff_of_false (by simp [Run.err]) h

theorem depositStep_eq_ok {c : Crypto} {proofs : List MerkleProof} {root root' : Hash}
    {d : Deposit} {i : ℕ} :
    depositStep c proofs root (d, i) = .ok root' ↔
      ∃ p a, proofs[i]? = some p ∧ p.verify c root = true ∧ applyDeposit p.account d = .ok a ∧
        root' = computeNewRoot c p (a.hash c) := by
  simp only [depositStep, Run.bind_eq_ok, Run.index_eq_ok, checkProof_eq_ok, Run.ofExcept_eq_ok,
    Run.pure_eq_ok]
  constructor
  · rintro ⟨p, hp, -, hv, a, ha, hr⟩
    exact ⟨p, a, hp, hv, ha, hr.symm⟩
  · rintro ⟨p, a, hp, hv, ha, hr⟩
    exact ⟨p, hp, (), hv, a, ha, hr.symm⟩

theorem transferStep_eq_ok {c : Crypto} {proofsFrom proofsTo : List MerkleProof} {i : ℕ}
    {to_ : Hash} {apply : Account → Account → Except StfError TransactionResult}
    {root root' : Hash} :
    transferStep c proofsFrom proofsTo i to_ apply root = .ok root' ↔
      ∃ p, proofsFrom[i]? = some p ∧ p.verify c root = true ∧
        ((∃ a, apply p.account (Account.new to_) = .ok (.failure a) ∧
            root' = computeNewRoot c p (a.hash c)) ∨
          (∃ a b q, apply p.account (Account.new to_) = .ok (.success a b) ∧
            proofsTo[i]? = some q ∧ q.verify c (computeNewRoot c p (a.hash c)) = true ∧
            root' = computeNewRoot c q (b.hash c))) := by
  simp only [transferStep, Run.bind_eq_ok, Run.index_eq_ok, checkProof_eq_ok, Run.ofExcept_eq_ok]
  constructor
  · rintro ⟨p, hp, -, hv, r, hr, h⟩
    refine ⟨p, hp, hv, ?_⟩
    cases r with
    | success a b =>
      simp only [Run.bind_eq_ok, Run.index_eq_ok, checkProof_eq_ok, Run.pure_eq_ok] at h
      obtain ⟨q, hq, -, hvq, h⟩ := h
      exact Or.inr ⟨a, b, q, hr, hq, hvq, h.symm⟩
    | failure a => exact Or.inl ⟨a, hr, (Run.pure_eq_ok.mp h).symm⟩
  · rintro ⟨p, hp, hv, ⟨a, hr, h⟩ | ⟨a, b, q, hr, hq, hvq, h⟩⟩
    · exact ⟨p, hp, (), hv, _, hr, Run.pure_eq_ok.mpr h.symm⟩
    · refine ⟨p, hp, (), hv, _, hr, ?_⟩
      simp only [Run.bind_eq_ok, Run.index_eq_ok, checkProof_eq_ok, Run.pure_eq_ok]
      exact ⟨q, hq, (), hvq, h.symm⟩

theorem forcedStep_eq_ok {c : Crypto} {proofsFrom proofsTo : List MerkleProof} {root root' : Hash}
    {tx : ForcedTx} {i : ℕ} :
    forcedStep c proofsFrom proofsTo root (tx, i) = .ok root' ↔
      (tx.from_ = Hash.default ∧ root' = root) ∨
        (tx.from_ ≠ Hash.default ∧ transferStep c proofsFrom proofsTo i tx.to_
          (fun a b ↦ applyForcedTx a b tx) root = .ok root') := by
  by_cases h : tx.from_ = Hash.default
  · rw [forcedStep, if_pos h, Run.pure_eq_ok]
    simp [h, eq_comm]
  · simp [forcedStep, h]

theorem executeTransition_eq_ok {c : Crypto} {inp : TransitionInputs} {root dh fh : Hash} :
    executeTransition c inp = .ok (root, dh, fh) ↔
      dh = hashDeposits c inp.deposits ∧ fh = hashForcedTxs c inp.forcedTxs ∧
        ∃ r₁ r₂,
          inp.deposits.zipIdx.foldlM (depositStep c inp.proofsDeposits) inp.preStateRoot
            = .ok r₁ ∧
          inp.forcedTxs.zipIdx.foldlM (forcedStep c inp.proofsForcedFrom inp.proofsForcedTo) r₁
            = .ok r₂ ∧
          inp.txs.zipIdx.foldlM (txStep c inp.proofsTxsFrom inp.proofsTxsTo) r₂ = .ok root := by
  simp only [executeTransition, Run.bind_eq_ok, Run.pure_eq_ok, Prod.mk.injEq]
  constructor
  · rintro ⟨r₁, h₁, r₂, h₂, r₃, h₃, rfl, rfl, rfl⟩
    exact ⟨rfl, rfl, r₁, r₂, h₁, h₂, h₃⟩
  · rintro ⟨rfl, rfl, r₁, r₂, h₁, h₂, h₃⟩
    exact ⟨r₁, h₁, r₂, h₂, root, h₃, rfl, rfl, rfl⟩

end Stf

/-- What the guest commits when it returns. -/
theorem guestMain_eq_ok {c : Crypto} {inp : TransitionInputs} {b : Bytes} :
    guestMain c inp = .ok b ↔
      ∃ root, executeTransition c inp
          = .ok (root, hashDeposits c inp.deposits, hashForcedTxs c inp.forcedTxs) ∧
        b = PublicValues.abiEncode
          { preStateRoot := inp.preStateRoot
            postStateRoot := root
            depositsCommitment :=
              buildCommitment (hashDeposits c inp.deposits) (UInt32.ofNat inp.deposits.length)
            forcedTxsCommitment :=
              buildCommitment (hashForcedTxs c inp.forcedTxs)
                (UInt32.ofNat inp.forcedTxs.length) } := by
  rw [guestMain]
  cases hrun : executeTransition c inp with
  | error e => simp [Run.panic]
  | ok out =>
    obtain ⟨root, dh, fh⟩ := out
    obtain ⟨rfl, rfl, -⟩ := executeTransition_eq_ok.mp hrun
    simp [eq_comm]

end TinyRollup
