import TinyRollup.Stf.Writes

/-!
# Which accounts a guest run touches

The guest checks that a proof carries an account of the tree.  It does not check that it is the
account the operation names, so a run touches only the accounts its operations name exactly when
the host supplied the proofs of these accounts (`touchesOnlyNamed_iff`).
-/

set_option autoImplicit false

namespace TinyRollup

open ByteString Stf HashTree

/-- The leaves that some writes replace in a tree, each with the id of the account that the
operation names. -/
def replacedLeaves : StateTree → List LeafWrite → List (Option Account × Hash)
  | _, [] => []
  | t, w :: ws =>
    (t.get? w.position, w.named) :: replacedLeaves (t.set w.position w.account) ws

/-- Every leaf that is replaced is the leaf of the account the operation names. -/
def TouchesOnlyNamed (t : StateTree) (ws : List LeafWrite) : Prop :=
  ∀ x ∈ replacedLeaves t ws, ∃ a, x.1 = some a ∧ a.id = x.2

/-- The host supplied the proofs of the sender and, if it is credited, of the recipient. -/
def TransferNamed (proofsFrom proofsTo : List MerkleProof) (i : ℕ) (from_ to_ : Hash)
    (fee amount : UInt64) : Prop :=
  ∀ p, proofsFrom[i]? = some p → p.account.id = from_ ∧
    (Paid p.account fee amount → ∀ q, proofsTo[i]? = some q → q.account.id = to_)

/-- The host supplied, wherever the guest looks, the proof of the account the operation names. -/
structure ProofsNamed (inp : TransitionInputs) : Prop where
  deposits : ∀ (i : ℕ) (d : Deposit) (p : MerkleProof), inp.deposits[i]? = some d →
    inp.proofsDeposits[i]? = some p → p.account.id = d.to_
  forcedTxs : ∀ (i : ℕ) (tx : ForcedTx), inp.forcedTxs[i]? = some tx → tx.from_ ≠ Hash.default →
    TransferNamed inp.proofsForcedFrom inp.proofsForcedTo i tx.from_ tx.to_ tx.fee tx.amount
  txs : ∀ (i : ℕ) (tx : Transaction), inp.txs[i]? = some tx →
    TransferNamed inp.proofsTxsFrom inp.proofsTxsTo i tx.from_ tx.to_ tx.fee tx.amount

/-- The proof a write uses is the proof of the account the operation names. -/
def LeafWrite.Named (w : LeafWrite) : Prop := w.proof.account.id = w.named

theorem Rewrites.touches_iff_named {t t' : StateTree} {ws : List LeafWrite}
    (h : Rewrites t ws t') : TouchesOnlyNamed t ws ↔ ∀ w ∈ ws, w.Named := by
  induction h with
  | nil => simp [TouchesOnlyNamed, replacedLeaves]
  | cons found _ ih =>
    rw [TouchesOnlyNamed, replacedLeaves, List.forall_mem_cons, List.forall_mem_cons, found]
    refine and_congr ⟨fun ⟨a, ha, hid⟩ ↦ ?_, fun hid ↦ ⟨_, rfl, hid⟩⟩ ih
    obtain rfl := Option.some_inj.mp ha
    exact hid

/-! ## The named writes of a run -/

theorem depositWrites_named {proofs : List MerkleProof} {d : Deposit} {i : ℕ} :
    (∀ w ∈ depositWrites proofs (d, i), w.Named) ↔
      ∀ p, proofs[i]? = some p → p.account.id = d.to_ := by
  rw [depositWrites]
  cases hp : proofs[i]? with
  | none => simp
  | some p => simp [LeafWrite.Named]

theorem creditWrites_named {proofs : List MerkleProof} {i : ℕ} {to_ : Hash} {amount : UInt64} :
    (∀ w ∈ creditWrites proofs i to_ amount, w.Named) ↔
      ∀ q, proofs[i]? = some q → q.account.id = to_ := by
  rw [creditWrites]
  cases hq : proofs[i]? with
  | none => simp
  | some q => simp [LeafWrite.Named]

theorem transferWrites_named {proofsFrom proofsTo : List MerkleProof} {i : ℕ} {from_ to_ : Hash}
    {fee amount : UInt64} :
    (∀ w ∈ transferWrites proofsFrom proofsTo i from_ to_ fee amount, w.Named) ↔
      TransferNamed proofsFrom proofsTo i from_ to_ fee amount := by
  rw [transferWrites, TransferNamed]
  cases hp : proofsFrom[i]? with
  | none => simp
  | some p =>
    by_cases hpaid : Paid p.account fee amount
    · simp only [if_pos hpaid, List.forall_mem_cons, creditWrites_named]
      simp [hpaid, LeafWrite.Named]
    · simp [hpaid, LeafWrite.Named]

theorem forcedWrites_named {proofsFrom proofsTo : List MerkleProof} {tx : ForcedTx} {i : ℕ} :
    (∀ w ∈ forcedWrites proofsFrom proofsTo (tx, i), w.Named) ↔
      (tx.from_ ≠ Hash.default →
        TransferNamed proofsFrom proofsTo i tx.from_ tx.to_ tx.fee tx.amount) := by
  rw [forcedWrites]
  by_cases h : tx.from_ = Hash.default
  · simp [h]
  · simp [h, transferWrites_named]

theorem writes_named_iff {inp : TransitionInputs} :
    (∀ w ∈ writes inp, w.Named) ↔ ProofsNamed inp := by
  rw [writes, List.forall_mem_flatMap, forall_mem_items]
  simp only [Item.writes, depositWrites_named, forcedWrites_named, txWrites, transferWrites_named]
  exact ⟨fun ⟨hd, hf, ht⟩ ↦ ⟨fun i d p hi hp ↦ hd i d hi p hp, hf, ht⟩,
    fun ⟨hd, hf, ht⟩ ↦ ⟨fun i d hi p hp ↦ hd i d p hi hp, hf, ht⟩⟩

/-- **Which accounts a run touches**: the run turns the tree into the one with the leaves of
`writes inp` replaced, and these are the leaves of the accounts that the operations name if and only
if the host supplied the proofs of these accounts. -/
theorem touchesOnlyNamed_iff (c : Crypto) (t : StateTree) (inp : TransitionInputs)
    (root depositsHash forcedTxsHash : Hash) (hroot : inp.preStateRoot = t.root (stateDigest c))
    (hcf : CollisionFree c (hashedBy c t (writes inp)) t)
    (hrun : executeTransition c inp = .ok (root, depositsHash, forcedTxsHash)) :
    (rewrite t (writes inp)).root (stateDigest c) = root ∧
      (TouchesOnlyNamed t (writes inp) ↔ ProofsNamed inp) := by
  have hreplay := executeTransition_replay hrun
  rw [hroot] at hreplay
  obtain ⟨hrewrites, hfinal, -⟩ :=
    Replay.rewrites (fun w hw p hp ↦ Or.inr ⟨w, hw, hp⟩) hcf hreplay
  exact ⟨hfinal, hrewrites.touches_iff_named.trans writes_named_iff⟩

/-! ## A deposit to one account that credits another -/

namespace Misdirected

def alice : Account := Account.new (Hash.ofByte 1)

def bob : Account := { id := Hash.ofByte 2, balance := 10, nonce := 0 }

/-- Bob is the only account. -/
def tree : StateTree := .leaf bob

/-- A deposit to Alice, with the proof of Bob. -/
def input (c : Crypto) : TransitionInputs where
  preStateRoot := tree.root (stateDigest c)
  txs := []
  deposits := [{ to_ := alice.id, amount := 5, timestamp := 0 }]
  forcedTxs := []
  proofsDeposits := [{ account := bob, siblings := [] }]
  proofsForcedFrom := []
  proofsForcedTo := []
  proofsTxsFrom := []
  proofsTxsTo := []

theorem executeTransition_input (c : Crypto) :
    executeTransition c (input c) = .ok ((credited bob 5).hash c,
      hashDeposits c (input c).deposits, hashForcedTxs c []) := by
  have hv : MerkleProof.verify c ⟨bob, []⟩ (tree.root (stateDigest c)) = true :=
    (verify_iff _ _ _).mpr rfl
  have hd : applyDeposit bob { to_ := alice.id, amount := 5, timestamp := 0 }
      = .ok (credited bob 5) := applyDeposit_eq_ok_iff.mpr ⟨by decide, rfl⟩
  have hstep : depositStep c (input c).proofsDeposits (input c).preStateRoot
      ({ to_ := alice.id, amount := 5, timestamp := 0 }, 0) = .ok ((credited bob 5).hash c) :=
    depositStep_eq_ok.mpr ⟨⟨bob, []⟩, credited bob 5, rfl, hv, hd, rfl⟩
  exact executeTransition_eq_ok.mpr
    ⟨rfl, rfl, _, _, Run.foldlM_cons_eq_ok.mpr ⟨_, hstep, rfl⟩, rfl, rfl⟩

set_option maxRecDepth 10000 in
theorem hashes_nodup : ([bob, credited bob 5].map (Account.hash .sha3Crate)).Nodup := by
  decide +kernel

theorem collisionFree : CollisionFree .sha3Crate
    (hashedBy .sha3Crate tree (writes (input .sha3Crate))) tree := by
  refine collisionFree_leaves ?_ hashes_nodup (Or.inl rfl)
  rintro p (hp | ⟨w, hw, hp⟩)
  · exact ⟨bob, by simp, hp⟩
  · obtain rfl : w = ⟨alice.id, ⟨bob, []⟩, credited bob 5⟩ := List.mem_singleton.mp hw
    simp only [LeafWrite.preimages, pathPreimages, Set.union_self, Set.mem_insert_iff,
      Set.mem_empty_iff_false, or_false] at hp
    rcases hp with rfl | rfl
    · exact ⟨bob, by simp, rfl⟩
    · exact ⟨credited bob 5, by simp, rfl⟩

end Misdirected

open Misdirected in
/-- The guest credits Bob for a deposit to Alice. -/
theorem misdirected_deposit :
    (input .sha3Crate).preStateRoot = tree.root (stateDigest .sha3Crate) ∧
      CollisionFree .sha3Crate (hashedBy .sha3Crate tree (writes (input .sha3Crate))) tree ∧
      executeTransition .sha3Crate (input .sha3Crate)
        = .ok ((credited bob 5).hash .sha3Crate,
            hashDeposits .sha3Crate (input .sha3Crate).deposits, hashForcedTxs .sha3Crate []) ∧
      ¬ TouchesOnlyNamed tree (writes (input .sha3Crate)) := by
  refine ⟨rfl, collisionFree, executeTransition_input _, fun h ↦ ?_⟩
  obtain ⟨a, ha, hid⟩ := h (some bob, alice.id) (List.mem_singleton_self _)
  rw [← Option.some_inj.mp ha] at hid
  exact absurd hid (by decide)

open Misdirected in
theorem touchesOnlyNamed_iff_misdirected :
    (rewrite tree (writes (input .sha3Crate))).root (stateDigest .sha3Crate)
        = (credited bob 5).hash .sha3Crate ∧
      (TouchesOnlyNamed tree (writes (input .sha3Crate)) ↔ ProofsNamed (input .sha3Crate)) :=
  touchesOnlyNamed_iff .sha3Crate tree _ _ _ _ rfl collisionFree (executeTransition_input _)

end TinyRollup
