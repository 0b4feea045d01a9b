import TinyRollup.Bridge.History
import TinyRollup.Stf.Nonces

/-!
# No replay over the life of the contract

The guest checks the nonce of a transfer against the account in the proof of its sender.  Over all
the batches that the contract has accepted this rules a replay out at one place of the tree, as long
as nobody pays the account there: a payment puts a new account with nonce zero in its place.
-/

set_option autoImplicit false

namespace TinyRollup

open ByteString Stf HashTree

namespace Bridge

/-- The iterations of the guest runs behind the accepted batches. -/
def history (runOf : Bytes → TransitionInputs) (s : Bridge) : List Iteration :=
  s.accepted.flatMap fun publicValues ↦ (runOf publicValues).iterations

theorem flatMap_writes_history (runOf : Bytes → TransitionInputs) (s : Bridge) :
    (history runOf s).flatMap Iteration.writes = committedWrites runOf s := by
  simp only [history, List.flatMap_assoc, TransitionInputs.iterations, List.flatMap_map]
  rfl

theorem Committed.returns {c : Crypto} {runOf : Bytes → TransitionInputs} {root : Hash}
    {s : Bridge} (h : Committed c runOf root s) : ∀ y ∈ history runOf s, y.Returns c := by
  intro y hy
  obtain ⟨publicValues, hmem, hy⟩ := List.mem_flatMap.mp hy
  obtain ⟨x, hx, rfl⟩ := List.mem_map.mp hy
  obtain ⟨out, hrun⟩ := h.ran publicValues hmem
  exact Run.foldlM_forall (executeTransition_eq_ok_items.mp hrun).2.2 x hx

/-- **No replay on L1.**  Of two transfers that the accepted batches took from one place of the
tree, the later one has the next nonce after all those used there before it, so the same nonce is
not used twice before all others were, or else the account there was overwritten by a payment to
it. -/
theorem settled_nonces (env : Deployment) (runOf : Bytes → TransitionInputs)
    (hsound : ∀ publicValues proofBytes,
      env.verifyProof env.rollupProgramVKey publicValues proofBytes = true →
        guestMain env.crypto (runOf publicValues) = .ok publicValues)
    (t₀ : StateTree) (calls : List Call) {s : Bridge}
    (hs : execAll env calls (init (t₀.root (stateDigest env.crypto))) = s)
    (hsha : CollisionFree env.crypto (hashedBy env.crypto t₀ (committedWrites runOf s)) t₀)
    {ds : List Bool} {y z : Iteration} {before between after : List Iteration}
    (hhistory : history runOf s = before ++ y :: between ++ z :: after)
    (hy : y.spent = some ds) (hz : z.spent = some ds) :
    (∃ x ∈ y :: between, x.overwritten = some ds) ∨
      (z.nonce = y.nonce.map (· + UInt64.ofNat (spends ds (y :: between))) ∧
        (z.nonce = y.nonce → 2 ^ 64 ≤ spends ds (y :: between))) := by
  by_cases hkept : ∃ x ∈ y :: between, x.overwritten = some ds
  · exact Or.inl hkept
  have hcommitted : Committed env.crypto runOf (t₀.root (stateDigest env.crypto)) s :=
    Steps.committed hsound (hs ▸ execAll_steps env calls _)
  have hreturns := hcommitted.returns
  obtain ⟨hrewrites, -, -⟩ :=
    Replay.rewrites (fun w hw p hp ↦ Or.inr ⟨w, hw, hp⟩) hsha hcommitted.replay
  rw [← flatMap_writes_history] at hrewrites
  rw [hhistory] at hreturns hrewrites
  obtain ⟨n, hn, hnext⟩ := nonces_count_up hreturns hrewrites hy hz
    fun x hx hover ↦ hkept ⟨x, hx, hover⟩
  refine Or.inr ⟨by rw [hnext, hn]; rfl, fun hsame ↦ ?_⟩
  rw [hnext, hn, Option.some_inj] at hsame
  have hmod := congrArg UInt64.toNat hsame
  rw [UInt64.toNat_add, UInt64.toNat_ofNat'] at hmod
  have hpos : 0 < spends ds (y :: between) := by
    rw [spends_cons, if_pos hy]
    exact Nat.succ_pos _
  have hlt := n.toNat_lt
  omega

/-! ## Two transfers that cannot be paid -/

namespace Overdrawn

/-- Alice is the only account. -/
def alice : Account := { id := Hash.ofByte 1, balance := 10, nonce := 0 }

/-- Alice asks for more than she has, and pays the fee. -/
def tx (nonce : UInt64) : Transaction where
  from_ := alice.id
  to_ := Hash.ofByte 2
  nonce := nonce
  fee := 1
  amount := 20

def once : Account := charged alice 1

def twice : Account := charged once 1

def input (c : Crypto) : TransitionInputs where
  preStateRoot := alice.hash c
  txs := [tx 0, tx 1]
  deposits := []
  forcedTxs := []
  proofsDeposits := []
  proofsForcedFrom := []
  proofsForcedTo := []
  proofsTxsFrom := [⟨alice, []⟩, ⟨once, []⟩]
  proofsTxsTo := []

variable (c : Crypto)

def publicValues : Bytes :=
  PublicValues.abiEncode
    { preStateRoot := alice.hash c
      postStateRoot := twice.hash c
      depositsCommitment := buildCommitment (hashDeposits c []) 0
      forcedTxsCommitment := buildCommitment (hashForcedTxs c []) 0 }

/-- A verifier that accepts the public values of this run and no others. -/
def env : Deployment where
  crypto := c
  verifyProof := fun _ pv _ ↦ pv == publicValues c
  rollupProgramVKey := Hash.default
  merkleVerify := fun _ _ _ ↦ false

theorem executeTransition_input : executeTransition c (input c)
    = .ok (twice.hash c, hashDeposits c [], hashForcedTxs c []) := by
  have hverify : ∀ a : Account, MerkleProof.verify c ⟨a, []⟩ (a.hash c) = true :=
    fun a ↦ (verify_iff _ _ _).mpr rfl
  have hfirst : applyTransaction alice (.new (tx 0).to_) (tx 0) = .ok (.failure once) :=
    transfer_eq_ok_iff.mpr ⟨rfl, by decide, Or.inl ⟨by decide, rfl⟩⟩
  have hsecond : applyTransaction once (.new (tx 1).to_) (tx 1) = .ok (.failure twice) :=
    transfer_eq_ok_iff.mpr ⟨by decide, by decide, Or.inl ⟨by decide, rfl⟩⟩
  refine executeTransition_eq_ok.mpr ⟨rfl, rfl, _, _, rfl, rfl, Run.foldlM_cons_eq_ok.mpr
    ⟨once.hash c, transferStep_eq_ok.mpr ⟨⟨alice, []⟩, rfl, hverify _, Or.inl ⟨_, hfirst, rfl⟩⟩,
      Run.foldlM_cons_eq_ok.mpr ⟨twice.hash c, transferStep_eq_ok.mpr
        ⟨⟨once, []⟩, rfl, hverify _, Or.inl ⟨_, hsecond, rfl⟩⟩, rfl⟩⟩⟩

theorem guestMain_input : guestMain c (input c) = .ok (publicValues c) :=
  guestMain_eq_ok.mpr ⟨_, executeTransition_input c, rfl⟩

theorem execAll_updateState : ∃ s,
    execAll (env c) [.updateState (publicValues c) []] (init (alice.hash c)) = s ∧
      s.accepted = [publicValues c] := by
  obtain ⟨s, hs, haccepted, -⟩ := updateState_of_slices (env c) (init (alice.hash c)) []
    (counted_init _) (executeTransition_input c) (guestMain_input c) (beq_self_eq_true _) rfl
    (show 0 < 2 ^ 32 by decide) (show 0 < 2 ^ 32 by decide) rfl rfl
  have hexec : exec (env c) (.updateState (publicValues c) []) (init (alice.hash c)) = some s := hs
  refine ⟨s, ?_, haccepted⟩
  rw [execAll, hexec, Option.getD_some, execAll]

set_option maxRecDepth 10000 in
theorem hashes_nodup : ([alice, once, twice].map (Account.hash .sha3Crate)).Nodup := by
  decide +kernel

theorem collisionFree : CollisionFree .sha3Crate
    (hashedBy .sha3Crate (.leaf alice) (writes (input .sha3Crate))) (.leaf alice) := by
  have hwrites : writes (input .sha3Crate)
      = [⟨alice.id, ⟨alice, []⟩, once⟩, ⟨alice.id, ⟨once, []⟩, twice⟩] := rfl
  rw [hwrites]
  refine collisionFree_leaves ?_ hashes_nodup (Or.inl rfl)
  rintro p (hp | ⟨w, hw, hp⟩)
  · exact ⟨alice, by simp, hp⟩
  · rcases List.mem_pair.mp hw with rfl | rfl
    all_goals
      simp only [LeafWrite.preimages, pathPreimages, Set.union_self, Set.mem_insert_iff,
        Set.mem_empty_iff_false, or_false] at hp
      rcases hp with rfl | rfl
    · exact ⟨alice, by simp, rfl⟩
    · exact ⟨once, by simp, rfl⟩
    · exact ⟨once, by simp, rfl⟩
    · exact ⟨twice, by simp, rfl⟩

end Overdrawn

open Overdrawn in
theorem settled_nonces_overdrawn :
    ∃ s, execAll (env .sha3Crate) [.updateState (publicValues .sha3Crate) []]
        (init (alice.hash .sha3Crate)) = s ∧
      ∃ y z, history (fun _ ↦ input .sha3Crate) s = [y, z] ∧ y.nonce = some 0 ∧
        y.overwritten = none ∧
        ((∃ x ∈ [y], x.overwritten = some []) ∨
          (z.nonce = y.nonce.map (· + UInt64.ofNat (spends [] [y])) ∧
            (z.nonce = y.nonce → 2 ^ 64 ≤ spends [] [y]))) := by
  obtain ⟨s, hs, haccepted⟩ := execAll_updateState .sha3Crate
  have hsound : ∀ pv proofBytes,
      (env .sha3Crate).verifyProof (env .sha3Crate).rollupProgramVKey pv proofBytes = true →
        guestMain (env .sha3Crate).crypto (input .sha3Crate) = .ok pv := by
    intro pv _ h
    rw [eq_of_beq h]
    exact guestMain_input _
  have hsha : CollisionFree .sha3Crate (hashedBy .sha3Crate (.leaf alice)
      (committedWrites (fun _ ↦ input .sha3Crate) s)) (.leaf alice) := by
    rw [committedWrites, haccepted, List.flatMap_singleton]
    exact collisionFree
  have hhistory : history (fun _ ↦ input .sha3Crate) s
      = [] ++ ⟨input .sha3Crate, .transaction (tx 0) 0⟩ :: []
        ++ ⟨input .sha3Crate, .transaction (tx 1) 1⟩ :: [] := by
    rw [history, haccepted, List.flatMap_singleton]
    rfl
  exact ⟨s, hs, _, _, hhistory, rfl, by decide, settled_nonces (env .sha3Crate)
    (fun _ ↦ input .sha3Crate) hsound (.leaf alice) _ hs hsha hhistory rfl rfl⟩

end Bridge

end TinyRollup
