import TinyRollup.Core.Bincode
import TinyRollup.Stf.Transition

/-!
# Accounts and proofs from the state tree

`get_account`, `get_proof`, `build_stf_proof` and `generate_proofs_for_block` of the core.

The state tree is a `Monotree` over a database, a crate outside of the repository: three operations
on a tree of type `T`, of which only `inserts` changes it (what the reads change is a cache in front
of the database).  An error of the crate is the text of its `{:?}`.  A leaf is 32 bytes.

`generate_proofs_for_block` replays a block on roots alone.  The tree it reads from is the one
before the block, so a root it has computed need not be one that the tree knows.
-/

set_option autoImplicit false

namespace TinyRollup

open ByteString Stf

/-- `monotree::Monotree`. -/
structure Monotree (T : Type) where
  get : T → Option Hash → Hash → Run String (Option Hash)
  getMerkleProof : T → Option Hash → Hash → Run String (Option (List (Bool × Bytes)))
  inserts : T → Option Hash → List Hash → List Hash → Run String (Option Hash) × T

inductive CoreError
  | databaseError (msg : String)
  | accountNotFound (key : Hash)
  | accountDataCorrupted (key : Hash)
  | proofNotFound (key : Hash)
  | stfError (msg : String)
  deriving DecidableEq

/-- `format!("{:?}", e)`. -/
def StfError.debug : StfError → String
  | insufficientBalance => "InsufficientBalance"
  | balanceOverflow => "BalanceOverflow"
  | merkleProofVerificationFailed => "MerkleProofVerificationFailed"
  | invalidNonce expected got =>
    "InvalidNonce \x7b expected: " ++ toString expected.toNat ++ ", got: " ++ toString got.toNat
      ++ " \x7d"
  | invalidTransaction msg => "InvalidTransaction(" ++ msg.quote ++ ")"

structure PendingBlock where
  blockNumber : UInt64
  txs : List Transaction
  deposits : List Deposit
  forcedTxs : List ForcedTx
  preStateRoot : Hash
  postStateRoot : Hash

structure ProofBundle where
  proofsDeposits : List MerkleProof
  proofsForcedFrom : List MerkleProof
  proofsForcedTo : List MerkleProof
  proofsTxsFrom : List MerkleProof
  proofsTxsTo : List MerkleProof

namespace Core

variable {T : Type} (m : Monotree T) (bincode : Bincode) (c : Crypto)

def getProof (tree : T) (root key : Hash) : Run CoreError (List (Bool × Bytes)) :=
  if root = Hash.default then
    Run.err (.proofNotFound key)
  else do
    let proof ← Run.mapErr
      (fun e ↦ CoreError.databaseError ("get_proof get_merkle_proof err: " ++ e))
      (m.getMerkleProof tree (some root) key)
    Run.okOr proof (.proofNotFound key)

def getAccount (tree : T) (root : Option Hash) (key : Hash) : Run CoreError Account :=
  if root = some Hash.default then
    Run.err (.accountNotFound key)
  else do
    let leaf ← Run.mapErr
      (fun e ↦ CoreError.databaseError ("get_account get_leaf err: " ++ e)) (m.get tree root key)
    let leaf ← Run.okOr leaf (.accountNotFound key)
    Run.okOr (bincode.account leaf.toList) (.accountDataCorrupted key)

/-- `bytes.try_into().expect(..)`. -/
def siblingHash (bytes : Bytes) : Run CoreError Hash :=
  if h : bytes.length = 32 then .ok ⟨bytes, h⟩
  else Run.panic "monotree sibling must be 32 bytes"

/-- An account that is not found is a new one. -/
def orNew (key : Hash) : Run CoreError Account → Run CoreError Account
  | .error (.err (.accountNotFound _)) => .ok (Account.new key)
  | x => x

/-- A proof that is not found has no siblings. -/
def orEmpty : Run CoreError (List (Bool × Bytes)) → Run CoreError (List (Bool × Bytes))
  | .error (.err (.proofNotFound _)) => .ok []
  | x => x

def buildStfProof (tree : T) (root key : Hash) : Run CoreError MerkleProof := do
  let account ← orNew key (getAccount m bincode tree (some root) key)
  let proof ← orEmpty (getProof m tree root key)
  let siblings ← proof.mapM fun s ↦ do return (s.1, ← siblingHash s.2)
  return { account, siblings }

/-- What a loop of `generate_proofs_for_block` carries along. -/
structure ProofState where
  currentRoot : Hash
  proofsFrom : List MerkleProof
  proofsTo : List MerkleProof

def ProofState.push (s : ProofState) (currentRoot : Hash) (proofFrom proofTo : MerkleProof) :
    ProofState where
  currentRoot := currentRoot
  proofsFrom := s.proofsFrom ++ [proofFrom]
  proofsTo := s.proofsTo ++ [proofTo]

/-- The proof of an account that does not take part. -/
def dummyProof (key : Hash) : MerkleProof := { account := Account.new key, siblings := [] }

/-- The body of the deposit loop; the loop has only one list of proofs. -/
def generateDeposit (tree : T) (s : Hash × List MerkleProof) (dep : Deposit) :
    Run CoreError (Hash × List MerkleProof) := do
  let proof ← buildStfProof m bincode tree s.1 dep.to_
  match applyDeposit proof.account dep with
  | .ok updatedAccount =>
    return (computeNewRoot c proof (updatedAccount.hash c), s.2 ++ [proof])
  | .error .balanceOverflow => return (s.1, s.2 ++ [proof])
  | .error _ => Run.panic "internal error: entered unreachable code"

/-- The common end of the two transfer loops. -/
def generateTransfer (tree : T) (s : ProofState) (from_ to_ : Hash)
    (apply : Account → Account → Except StfError TransactionResult) : Run CoreError ProofState := do
  let proofFrom ← buildStfProof m bincode tree s.currentRoot from_
  let proofTo ← buildStfProof m bincode tree s.currentRoot to_
  match ← Run.mapErr (fun e ↦ CoreError.stfError e.debug)
      (Run.ofExcept (apply proofFrom.account proofTo.account)) with
  | .success updatedFrom updatedTo =>
    let currentRoot := computeNewRoot c proofFrom (updatedFrom.hash c)
    let proofToAfterFrom ← buildStfProof m bincode tree currentRoot to_
    return s.push (computeNewRoot c proofToAfterFrom (updatedTo.hash c)) proofFrom proofToAfterFrom
  | .failure updatedFrom =>
    return s.push (computeNewRoot c proofFrom (updatedFrom.hash c)) proofFrom proofTo

def generateForced (tree : T) (s : ProofState) (tx : ForcedTx) : Run CoreError ProofState :=
  if tx.from_ = Hash.default then
    return s.push s.currentRoot (dummyProof tx.from_) (dummyProof tx.to_)
  else
    generateTransfer m bincode c tree s tx.from_ tx.to_ fun from_ to_ ↦ applyForcedTx from_ to_ tx

def generateTx (tree : T) (s : ProofState) (tx : Transaction) : Run CoreError ProofState :=
  match getAccount m bincode tree (some s.currentRoot) tx.from_ with
  | .error (.panic msg) => Run.panic msg
  | .error (.err _) => return s.push s.currentRoot (dummyProof tx.from_) (dummyProof tx.to_)
  | .ok _ =>
    generateTransfer m bincode c tree s tx.from_ tx.to_ fun from_ to_ ↦
      applyTransaction from_ to_ tx

def generateProofsForBlock (tree : T) (block : PendingBlock) : Run CoreError ProofBundle := do
  let (currentRoot, proofsDeposits) ←
    block.deposits.foldlM (generateDeposit m bincode c tree) (block.preStateRoot, [])
  let forced ← block.forcedTxs.foldlM (generateForced m bincode c tree) ⟨currentRoot, [], []⟩
  let txs ← block.txs.foldlM (generateTx m bincode c tree) ⟨forced.currentRoot, [], []⟩
  if txs.currentRoot = block.postStateRoot then
    return { proofsDeposits
             proofsForcedFrom := forced.proofsFrom
             proofsForcedTo := forced.proofsTo
             proofsTxsFrom := txs.proofsFrom
             proofsTxsTo := txs.proofsTo }
  else Run.panic "fatal: root mismatch after proof generation simulation"

end Core

end TinyRollup
