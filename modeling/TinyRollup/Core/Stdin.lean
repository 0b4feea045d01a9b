import TinyRollup.Core.Provable
import TinyRollup.Core.Serialize

/-!
# From the host to the guest

The host hands the guest a block and its proofs as nine items of bytes, and the guest reads nine
values from its input, one from each item.  The two sides agree on the order and on the formats, and
nothing else does: `stdin_faithful` says that the guest runs on what the host has written, and that
every input on which it commits holds nine values in this order.
-/

set_option autoImplicit false

namespace TinyRollup

open ByteString Codec Stf

/-- `SP1Stdin`: the items that were written. -/
abbrev Stdin := List Bytes

namespace Stdin

/-- `stdin.write`. -/
def write {α : Type} (stdin : Stdin) (c : Codec α) (x : α) : Stdin := stdin ++ [c.encode x]

/-- `sp1_zkvm::io::read`. -/
def read {α : Type} (c : Codec α) : Stdin → Run StfError (α × Stdin)
  | [] => Run.panic "no item left"
  | item :: rest =>
    match c.read item with
    | some x => .ok (x, rest)
    | none => Run.panic "deserialization failed"

/-- What the host writes for a block. -/
def ofBlock (block : PendingBlock) (proofs : ProofBundle) : Stdin :=
  let stdin : Stdin := []
  let stdin := stdin.write (fixed 32) block.preStateRoot
  let stdin := stdin.write Transaction.codec.list block.txs
  let stdin := stdin.write Deposit.codec.list block.deposits
  let stdin := stdin.write ForcedTx.codec.list block.forcedTxs
  let stdin := stdin.write MerkleProof.codec.list proofs.proofsDeposits
  let stdin := stdin.write MerkleProof.codec.list proofs.proofsForcedFrom
  let stdin := stdin.write MerkleProof.codec.list proofs.proofsForcedTo
  let stdin := stdin.write MerkleProof.codec.list proofs.proofsTxsFrom
  stdin.write MerkleProof.codec.list proofs.proofsTxsTo

/-- The nine reads of the guest. -/
def inputs (stdin : Stdin) : Run StfError TransitionInputs := do
  let (preStateRoot, stdin) ← read (fixed 32) stdin
  let (txs, stdin) ← read Transaction.codec.list stdin
  let (deposits, stdin) ← read Deposit.codec.list stdin
  let (forcedTxs, stdin) ← read ForcedTx.codec.list stdin
  let (proofsDeposits, stdin) ← read MerkleProof.codec.list stdin
  let (proofsForcedFrom, stdin) ← read MerkleProof.codec.list stdin
  let (proofsForcedTo, stdin) ← read MerkleProof.codec.list stdin
  let (proofsTxsFrom, stdin) ← read MerkleProof.codec.list stdin
  let (proofsTxsTo, _) ← read MerkleProof.codec.list stdin
  return { preStateRoot, txs, deposits, forcedTxs, proofsDeposits, proofsForcedFrom,
           proofsForcedTo, proofsTxsFrom, proofsTxsTo }

end Stdin

/-- The `main` of the guest, from its input on. -/
def guestProgram (c : Crypto) (stdin : Stdin) : Run StfError Bytes := do
  let inp ← stdin.inputs
  guestMain c inp

/-! ## What the guest reads -/

/-- The nine values as the host writes them. -/
def TransitionInputs.written (inp : TransitionInputs) : List Bytes :=
  [(fixed 32).encode inp.preStateRoot, Transaction.codec.list.encode inp.txs,
    Deposit.codec.list.encode inp.deposits, ForcedTx.codec.list.encode inp.forcedTxs,
    MerkleProof.codec.list.encode inp.proofsDeposits,
    MerkleProof.codec.list.encode inp.proofsForcedFrom,
    MerkleProof.codec.list.encode inp.proofsForcedTo,
    MerkleProof.codec.list.encode inp.proofsTxsFrom,
    MerkleProof.codec.list.encode inp.proofsTxsTo]

/-- A list of proofs has a length, and so has each of them. -/
def ProofsSized (proofs : List MerkleProof) : Prop :=
  proofs.length < 2 ^ 64 ∧ ∀ p ∈ proofs, p.siblings.length < 2 ^ 64

/-- Every list in the inputs has a length. -/
structure TransitionInputs.Sized (inp : TransitionInputs) : Prop where
  txs : inp.txs.length < 2 ^ 64
  deposits : inp.deposits.length < 2 ^ 64
  forcedTxs : inp.forcedTxs.length < 2 ^ 64
  calldata : ∀ tx ∈ inp.forcedTxs, tx.l2Calldata.length < 2 ^ 64
  proofsDeposits : ProofsSized inp.proofsDeposits
  proofsForcedFrom : ProofsSized inp.proofsForcedFrom
  proofsForcedTo : ProofsSized inp.proofsForcedTo
  proofsTxsFrom : ProofsSized inp.proofsTxsFrom
  proofsTxsTo : ProofsSized inp.proofsTxsTo

theorem proofs_valid_iff {proofs : List MerkleProof} :
    MerkleProof.codec.list.Valid proofs ↔ ProofsSized proofs :=
  and_congr_right fun _ ↦ forall₂_congr fun _ _ ↦ MerkleProof.codec_valid_iff

theorem forcedTxs_valid_iff {txs : List ForcedTx} :
    ForcedTx.codec.list.Valid txs ↔
      txs.length < 2 ^ 64 ∧ ∀ tx ∈ txs, tx.l2Calldata.length < 2 ^ 64 :=
  and_congr_right fun _ ↦ forall₂_congr fun _ _ ↦ ForcedTx.codec_valid_iff

theorem txs_valid_iff {txs : List Transaction} :
    Transaction.codec.list.Valid txs ↔ txs.length < 2 ^ 64 :=
  and_iff_left fun tx _ ↦ tx.codec_valid

theorem deposits_valid_iff {deposits : List Deposit} :
    Deposit.codec.list.Valid deposits ↔ deposits.length < 2 ^ 64 :=
  and_iff_left fun d _ ↦ d.codec_valid

namespace Stdin

theorem read_eq_ok {α : Type} {c : Codec α} {stdin rest : Stdin} {x : α} :
    read c stdin = .ok (x, rest) ↔
      ∃ item, stdin = item :: rest ∧ c.Valid x ∧ c.encode x <+: item := by
  cases stdin with
  | nil => simp [read, Run.panic]
  | cons item rest' =>
    rw [read]
    cases hread : c.read item with
    | none =>
      refine iff_of_false (by simp [Run.panic]) ?_
      rintro ⟨item', heq, h⟩
      obtain ⟨rfl, -⟩ := List.cons.inj heq
      rw [Codec.read_eq_some.mpr h] at hread
      exact absurd hread (by simp)
    | some y =>
      have hy := Codec.read_eq_some.mp hread
      rw [Except.ok.injEq, Prod.mk.injEq]
      constructor
      · rintro ⟨rfl, rfl⟩
        exact ⟨item, rfl, hy⟩
      · rintro ⟨item', heq, h⟩
        obtain ⟨rfl, rfl⟩ := List.cons.inj heq
        rw [Codec.read_eq_some.mpr h] at hread
        exact ⟨(Option.some_inj.mp hread).symm, rfl⟩

/-- What the guest reads: nine values, each at the beginning of its item. -/
theorem inputs_eq_ok {stdin : Stdin} {inp : TransitionInputs} :
    stdin.inputs = .ok inp ↔
      inp.Sized ∧
        ∃ first rest, stdin = first ++ rest ∧ List.Forall₂ (· <+: ·) inp.written first := by
  simp only [inputs, Run.bind_eq_ok, Prod.exists, read_eq_ok, Run.pure_eq_ok]
  constructor
  · rintro ⟨_, _, ⟨i₁, rfl, -, h₁⟩, _, _, ⟨i₂, rfl, v₂, h₂⟩, _, _, ⟨i₃, rfl, v₃, h₃⟩,
      _, _, ⟨i₄, rfl, v₄, h₄⟩, _, _, ⟨i₅, rfl, v₅, h₅⟩, _, _, ⟨i₆, rfl, v₆, h₆⟩,
      _, _, ⟨i₇, rfl, v₇, h₇⟩, _, _, ⟨i₈, rfl, v₈, h₈⟩, _, rest, ⟨i₉, rfl, v₉, h₉⟩, rfl⟩
    obtain ⟨v₄, v₄'⟩ := forcedTxs_valid_iff.mp v₄
    refine ⟨⟨txs_valid_iff.mp v₂, deposits_valid_iff.mp v₃, v₄, v₄', proofs_valid_iff.mp v₅,
      proofs_valid_iff.mp v₆, proofs_valid_iff.mp v₇, proofs_valid_iff.mp v₈,
      proofs_valid_iff.mp v₉⟩, [i₁, i₂, i₃, i₄, i₅, i₆, i₇, i₈, i₉], rest, rfl, ?_⟩
    exact .cons h₁ (.cons h₂ (.cons h₃ (.cons h₄ (.cons h₅ (.cons h₆ (.cons h₇ (.cons h₈
      (.cons h₉ .nil))))))))
  · rintro ⟨hsized, first, rest, rfl, hitems⟩
    obtain _ | ⟨h₁, _ | ⟨h₂, _ | ⟨h₃, _ | ⟨h₄, _ | ⟨h₅, _ | ⟨h₆, _ | ⟨h₇, _ | ⟨h₈,
      _ | ⟨h₉, _ | _⟩⟩⟩⟩⟩⟩⟩⟩⟩ := hitems
    exact ⟨_, _, ⟨_, rfl, trivial, h₁⟩, _, _, ⟨_, rfl, txs_valid_iff.mpr hsized.txs, h₂⟩,
      _, _, ⟨_, rfl, deposits_valid_iff.mpr hsized.deposits, h₃⟩,
      _, _, ⟨_, rfl, forcedTxs_valid_iff.mpr ⟨hsized.forcedTxs, hsized.calldata⟩, h₄⟩,
      _, _, ⟨_, rfl, proofs_valid_iff.mpr hsized.proofsDeposits, h₅⟩,
      _, _, ⟨_, rfl, proofs_valid_iff.mpr hsized.proofsForcedFrom, h₆⟩,
      _, _, ⟨_, rfl, proofs_valid_iff.mpr hsized.proofsForcedTo, h₇⟩,
      _, _, ⟨_, rfl, proofs_valid_iff.mpr hsized.proofsTxsFrom, h₈⟩,
      _, _, ⟨_, rfl, proofs_valid_iff.mpr hsized.proofsTxsTo, h₉⟩, rfl⟩

theorem ofBlock_eq (block : PendingBlock) (bundle : ProofBundle) :
    ofBlock block bundle = (block.inputs bundle).written := rfl

/-- The guest reads what the host has written, and does not mind what comes after it. -/
theorem inputs_ofBlock {block : PendingBlock} {bundle : ProofBundle}
    (h : (block.inputs bundle).Sized) (more : Stdin) :
    Stdin.inputs (ofBlock block bundle ++ more) = .ok (block.inputs bundle) := by
  refine inputs_eq_ok.mpr ⟨h, _, more, rfl, ?_⟩
  rw [ofBlock_eq]
  exact List.forall₂_same.mpr fun _ _ ↦ List.prefix_refl _

end Stdin

/-- **Host and guest agree on the input.**  On what the host writes for a block and its proofs the
guest runs on these; an input on which the guest commits holds nine values in the order of the host,
and the guest commits what it commits for these; on fewer than nine items, such as the two of the
`evm` binary, it never commits. -/
theorem stdin_faithful (c : Crypto) :
    (∀ block bundle more, (block.inputs bundle).Sized →
        guestProgram c (Stdin.ofBlock block bundle ++ more) = guestMain c (block.inputs bundle)) ∧
      (∀ stdin b, guestProgram c stdin = .ok b ↔
        ∃ inp first rest, inp.Sized ∧ stdin = first ++ rest ∧
          List.Forall₂ (· <+: ·) inp.written first ∧ guestMain c inp = .ok b) ∧
      ∀ stdin b, stdin.length < 9 → guestProgram c stdin ≠ .ok b := by
  have hcommits : ∀ stdin b, guestProgram c stdin = .ok b ↔
      ∃ inp first rest, inp.Sized ∧ stdin = first ++ rest ∧
        List.Forall₂ (· <+: ·) inp.written first ∧ guestMain c inp = .ok b := by
    intro stdin b
    rw [guestProgram, Run.bind_eq_ok]
    constructor
    · rintro ⟨inp, hinp, hmain⟩
      obtain ⟨hsized, first, rest, hstdin, hitems⟩ := Stdin.inputs_eq_ok.mp hinp
      exact ⟨inp, first, rest, hsized, hstdin, hitems, hmain⟩
    · rintro ⟨inp, first, rest, hsized, hstdin, hitems, hmain⟩
      exact ⟨inp, Stdin.inputs_eq_ok.mpr ⟨hsized, first, rest, hstdin, hitems⟩, hmain⟩
  refine ⟨fun block bundle more h ↦ ?_, hcommits, fun stdin b hshort hb ↦ ?_⟩
  · rw [guestProgram, Stdin.inputs_ofBlock h, Run.ok_bind]
  · obtain ⟨inp, first, rest, -, rfl, hitems, -⟩ := (hcommits stdin b).mp hb
    have hlen : first.length = 9 := hitems.length_eq.symm
    rw [List.length_append] at hshort
    omega

/-- The block of one deposit. -/
def FirstDeposit.block : PendingBlock where
  blockNumber := 0
  txs := []
  deposits := [deposit]
  forcedTxs := []
  preStateRoot := Hash.default
  postStateRoot := account.hash c

open FirstDeposit in
theorem stdin_faithful_firstDeposit :
    guestProgram c (Stdin.ofBlock block ⟨[Core.dummyProof alice], [], [], [], []⟩ ++ [])
      = guestMain c (block.inputs ⟨[Core.dummyProof alice], [], [], [], []⟩) := by
  refine (stdin_faithful c).1 _ _ [] ⟨by decide, by decide, by decide, by decide, ⟨by decide, ?_⟩,
    ⟨by decide, by decide⟩, ⟨by decide, by decide⟩, ⟨by decide, by decide⟩, ⟨by decide, by decide⟩⟩
  exact List.forall_mem_singleton.mpr (by decide)

end TinyRollup
