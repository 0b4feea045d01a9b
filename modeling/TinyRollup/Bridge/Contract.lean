import TinyRollup.Lib.Word
import TinyRollup.Stf.Transition

/-!
# The bridge contract

`TinyRollupBridge`: two append-only queues, of deposits and of forced transactions, each with a
counter of its processed entries, and `updateState`, which moves the state root and the counters on
for a batch that was proved.

A call either returns a new state or reverts (`none`).  The only call that gives up control is
`withdraw`, to the receiver of the ether; what the receiver then calls, and whether the transfer
goes through in the end, are arguments of the `Call`.  Counters and amounts are checked
`uint256`s.

What lies outside of the repository is a parameter of the model, `Deployment`: the SP1 verifier
and the Merkle proof check of the contract library.
-/

set_option autoImplicit false

namespace TinyRollup

open ByteString Word

/-- `address`. -/
abbrev Address := FixedBytes 20

/-- An entry of `pendingDeposits`. -/
structure L1Deposit where
  user : Address
  amount : U256
  timestamp : U256
  deriving DecidableEq

/-- An entry of `forcedTransactions`. -/
structure ForcedTransaction where
  data : Bytes
  timestamp : U256
  deriving DecidableEq

/-- The storage of the contract.  `accepted` is not storage but history: the public values of the
calls of `updateState` that went through, in order. -/
structure Bridge where
  stateRoot : Hash
  depositCount : U256
  processedDepositCount : U256
  forcedTransactions : List ForcedTransaction
  forcedTxCount : U256
  processedForcedTxCount : U256
  pendingDeposits : List L1Deposit
  nullifiers : Hash → Bool
  accepted : List Bytes

/-- The immutables of the contract and the code it calls. -/
structure Deployment where
  crypto : Crypto
  /-- `sp1VerifierGateway.verifyProof` does not revert. -/
  verifyProof : Hash → Bytes → Bytes → Bool
  rollupProgramVKey : Hash
  /-- `MerkleProof.verify`. -/
  merkleVerify : List Hash → Hash → Hash → Bool

/-- `msg` and `block`. -/
structure Msg where
  sender : Address
  value : U256
  timestamp : U256

namespace Bridge

/-- The constructor. -/
def init (initialStateRoot : Hash) : Bridge where
  stateRoot := initialStateRoot
  depositCount := 0
  processedDepositCount := 0
  forcedTransactions := []
  forcedTxCount := 0
  processedForcedTxCount := 0
  pendingDeposits := []
  nullifiers := fun _ ↦ false
  accepted := []

/-- `FORCED_TX_FEE`, 0.001 ether. -/
def forcedTxFee : ℕ := 10 ^ 15

/-- `push` on a storage array panics at this length. -/
def maxArrayLength : ℕ := 2 ^ 64

def deposit (s : Bridge) (msg : Msg) : Option Bridge :=
  if 0 < msg.value.toNat ∧ s.pendingDeposits.length < maxArrayLength then
    let pendingDeposits := s.pendingDeposits ++
      [{ user := msg.sender, amount := msg.value, timestamp := msg.timestamp }]
    some { s with
      pendingDeposits
      depositCount := BitVec.ofNat 256 pendingDeposits.length }
  else none

def forceTransaction (s : Bridge) (msg : Msg) (l2TxData : Bytes) : Option Bridge :=
  if forcedTxFee ≤ msg.value.toNat ∧ s.forcedTransactions.length < maxArrayLength then
    let forcedTransactions := s.forcedTransactions ++
      [{ data := l2TxData, timestamp := msg.timestamp }]
    some { s with
      forcedTransactions
      forcedTxCount := BitVec.ofNat 256 forcedTransactions.length }
  else none

/-! ## Reading the queues -/

/-- The loop `for (i = 0; i < count; i++) { .. queue[start + i] .. }`. -/
def readSlice {α : Type} (queue : List α) (start count : U256) : Option (List α) :=
  (List.range count.toNat).mapM fun i ↦ queue[start.toNat + i]?

def getDeposits (s : Bridge) (start count : U256) : Option (List L1Deposit) := do
  let last ← checkedAdd start count
  if last.toNat ≤ s.depositCount.toNat then readSlice s.pendingDeposits start count else none

def getForcedTransactions (s : Bridge) (start count : U256) : Option (List ForcedTransaction) := do
  let last ← checkedAdd start count
  if last.toNat ≤ s.forcedTxCount.toNat then readSlice s.forcedTransactions start count else none

/-- `abi.encode(pending[start + i])`. -/
def encodeDeposit (d : L1Deposit) : Bytes :=
  Abi.encodeStruct
    [.word (Abi.address d.user), .word (Abi.uint d.amount.toNat),
      .word (Abi.uint d.timestamp.toNat)]

/-- `abi.encode(forced[start + i])`. -/
def encodeForced (f : ForcedTransaction) : Bytes :=
  Abi.encodeStruct [.bytes f.data, .word (Abi.uint f.timestamp.toNat)]

/-- The common body of `calculateDepositHash` and `calculateForcedTxHash`. -/
def calculateHash {α : Type} (env : Deployment) (queue : List α) (queueCount : U256)
    (encode : α → Bytes) (start count : U256) : Option Hash :=
  if count = 0 then
    some (env.crypto.keccak256 [])
  else do
    let last ← checkedAdd start count
    if last.toNat ≤ queueCount.toNat then
      let items ← readSlice queue start count
      let hashes := items.map fun item ↦ env.crypto.keccak256 (encode item)
      return env.crypto.keccak256 (hashes.map List.Vector.toList).flatten
    else none

def calculateDepositHash (env : Deployment) (s : Bridge) (start count : U256) : Option Hash :=
  calculateHash env s.pendingDeposits s.depositCount encodeDeposit start count

def calculateForcedTxHash (env : Deployment) (s : Bridge) (start count : U256) : Option Hash :=
  calculateHash env s.forcedTransactions s.forcedTxCount encodeForced start count

/-! ## `updateState` -/

/-- The `i`-th word of some calldata. -/
def readWord (b : Bytes) (i : ℕ) : Option Hash :=
  if h : ((b.drop (32 * i)).take 32).length = 32 then some ⟨(b.drop (32 * i)).take 32, h⟩ else none

/-- `abi.decode(publicValues, (bytes32, bytes32, bytes32, bytes32))`; it ignores further bytes. -/
def abiDecode (publicValues : Bytes) : Option PublicValues := do
  let preStateRoot ← readWord publicValues 0
  let postStateRoot ← readWord publicValues 1
  let depositsCommitment ← readWord publicValues 2
  let forcedTxsCommitment ← readWord publicValues 3
  return { preStateRoot, postStateRoot, depositsCommitment, forcedTxsCommitment }

/-- The `uint32` count and the `bytes28` hash. -/
def decodeCommitment (commitment : Hash) : U256 × U256 :=
  (Word.ofBytes commitment &&& lowMask, Word.ofBytes commitment &&& highMask)

def truncate (fullHash : Hash) : U256 := Word.ofBytes fullHash &&& highMask

def updateState (env : Deployment) (s : Bridge) (publicValues proofBytes : Bytes) :
    Option Bridge := do
  let pv ← abiDecode publicValues
  if pv.preStateRoot = s.stateRoot then
    let (depositsInBatch, depositsHash) := decodeCommitment pv.depositsCommitment
    let (forcedTxsInBatch, forcedTxsHash) := decodeCommitment pv.forcedTxsCommitment
    let dh ← calculateDepositHash env s s.processedDepositCount depositsInBatch
    let fh ← calculateForcedTxHash env s s.processedForcedTxCount forcedTxsInBatch
    if truncate dh = depositsHash ∧ truncate fh = forcedTxsHash ∧
        env.verifyProof env.rollupProgramVKey publicValues proofBytes = true then
      let processedDepositCount ← checkedAdd s.processedDepositCount depositsInBatch
      let processedForcedTxCount ← checkedAdd s.processedForcedTxCount forcedTxsInBatch
      return { s with
        processedDepositCount
        processedForcedTxCount
        stateRoot := pv.postStateRoot
        accepted := s.accepted ++ [publicValues] }
    else none
  else none

/-! ## `withdraw` -/

/-- `withdraw` up to the transfer of the ether. -/
def beginWithdraw (env : Deployment) (s : Bridge) (msg : Msg) (amount : U256) (nonce : UInt64)
    (merkleProof : List Hash) : Option Bridge :=
  let leaf := env.crypto.keccak256
    (msg.sender.toList ++ (beBytes 32 amount.toNat ++ beBytes 8 nonce.toNat))
  let nullifier := leaf
  if s.nullifiers nullifier = false ∧ env.merkleVerify merkleProof s.stateRoot leaf = true then
    some { s with nullifiers := Function.update s.nullifiers nullifier true }
  else none

end Bridge

/-- A call of the contract by anyone. -/
inductive Call
  | deposit (msg : Msg)
  | forceTransaction (msg : Msg) (l2TxData : Bytes)
  | updateState (publicValues proofBytes : Bytes)
  /-- `receiver` are the calls made by the receiver of the ether before it returns, `success` says
  whether the transfer goes through. -/
  | withdraw (msg : Msg) (amount : U256) (nonce : UInt64) (merkleProof : List Hash)
      (receiver : List Call) (success : Bool)

namespace Bridge

mutual

/-- One call. -/
def exec (env : Deployment) : Call → Bridge → Option Bridge
  | .deposit msg, s => s.deposit msg
  | .forceTransaction msg l2TxData, s => s.forceTransaction msg l2TxData
  | .updateState publicValues proofBytes, s => s.updateState env publicValues proofBytes
  | .withdraw msg amount nonce merkleProof receiver success, s =>
    match s.beginWithdraw env msg amount nonce merkleProof with
    | none => none
    | some s => if success then some (execAll env receiver s) else none

/-- Calls one after the other; the ones that revert leave the state as it is. -/
def execAll (env : Deployment) : List Call → Bridge → Bridge
  | [], s => s
  | call :: calls, s => execAll env calls ((exec env call s).getD s)

end

end Bridge

end TinyRollup
