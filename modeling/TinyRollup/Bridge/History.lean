import TinyRollup.Bridge.Forced
import TinyRollup.Stf.Supply

/-!
# The state root as a history of guest runs

The contract keeps a root and no tree.  The root that it has arrived at is the one that the guest
runs behind the accepted batches lead to, each from where the one before it ended
(`Steps.committed`).  So there is a tree of accounts with this root: the tree of the first root,
with all the writes of these runs.

* `supply_backed` — the balances of that tree and all that the runs burned are the balances of the
  first tree and the processed deposits, and the accounts are as many as they were in the first
  tree.
* `empty_genesis_stuck` — a contract that starts from the root of an empty tree stays there: it
  processes no deposit, and only batches of skipped transactions.
-/

set_option autoImplicit false

namespace TinyRollup

open ByteString Word Stf HashTree

namespace Bridge

/-- The writes of the guest runs behind the accepted batches. -/
def committedWrites (runOf : Bytes → TransitionInputs) (s : Bridge) : List LeafWrite :=
  s.accepted.flatMap fun publicValues ↦ writes (runOf publicValues)

/-- What the guest runs behind the accepted batches burned. -/
def totalBurned (runOf : Bytes → TransitionInputs) (s : Bridge) : ℕ :=
  (s.accepted.map fun publicValues ↦ (runOf publicValues).burned).sum

/-- The amounts of some entries of the queue of deposits. -/
def totalAmount (ds : List L1Deposit) : ℕ := (ds.map fun d ↦ d.amount.toNat).sum

theorem totalAmount_append (ds es : List L1Deposit) :
    totalAmount (ds ++ es) = totalAmount ds + totalAmount es := by
  rw [totalAmount, List.map_append, List.sum_append]
  rfl

/-- The accepted batches lead from the first root to the root of the contract. -/
structure Committed (c : Crypto) (runOf : Bytes → TransitionInputs) (root : Hash) (s : Bridge) :
    Prop where
  ran : ∀ publicValues ∈ s.accepted, ∃ out, executeTransition c (runOf publicValues) = .ok out
  replay : Replay c root (committedWrites runOf s) s.stateRoot
  deposits : s.processedDepositCount.toNat
    = (s.accepted.map fun publicValues ↦
      (UInt32.ofNat (runOf publicValues).deposits.length).toNat).sum

section

variable {env : Deployment} {runOf : Bytes → TransitionInputs} {root : Hash} {s s' : Bridge}

theorem committed_init (c : Crypto) (runOf : Bytes → TransitionInputs) (root : Hash) :
    Committed c runOf root (init root) where
  ran _ h := absurd h List.not_mem_nil
  replay := .nil root
  deposits := rfl

/-- What an accepted batch says of the run behind it. -/
theorem run_of_updateState {publicValues proofBytes : Bytes} {inp : TransitionInputs}
    (h : s.updateState env publicValues proofBytes = some s')
    (hguest : guestMain env.crypto inp = .ok publicValues) :
    inp.preStateRoot = s.stateRoot ∧ s'.accepted = s.accepted ++ [publicValues] ∧
      s'.processedDepositCount.toNat
        = s.processedDepositCount.toNat + (UInt32.ofNat inp.deposits.length).toNat ∧
      s'.processedForcedTxCount.toNat
        = s.processedForcedTxCount.toNat + (UInt32.ofNat inp.forcedTxs.length).toNat ∧
      executeTransition env.crypto inp = .ok (s'.stateRoot, hashDeposits env.crypto inp.deposits,
        hashForcedTxs env.crypto inp.forcedTxs) := by
  obtain ⟨root, hrun, rfl⟩ := guestMain_eq_ok.mp hguest
  obtain ⟨pv, dh, fh, hpv, hroot, -, -, -, -, -, p, q, hp, hq, rfl⟩ := updateState_eq_some h
  rw [abiDecode_abiEncode, Option.some_inj] at hpv
  subst hpv
  refine ⟨hroot, rfl, ?_, ?_, hrun⟩
  · rw [← toNat_count_buildCommitment (hashDeposits env.crypto inp.deposits)]
    exact toNat_of_checkedAdd hp
  · rw [← toNat_count_buildCommitment (hashForcedTxs env.crypto inp.forcedTxs)]
    exact toNat_of_checkedAdd hq

theorem Committed.of_same (h : Committed env.crypto runOf root s)
    (haccepted : s'.accepted = s.accepted) (hroot : s'.stateRoot = s.stateRoot)
    (hcount : s'.processedDepositCount = s.processedDepositCount) :
    Committed env.crypto runOf root s' where
  ran := haccepted ▸ h.ran
  replay := by
    rw [committedWrites, haccepted, hroot]
    exact h.replay
  deposits := by rw [hcount, haccepted, h.deposits]

theorem Step.committed
    (hsound : ∀ publicValues proofBytes,
      env.verifyProof env.rollupProgramVKey publicValues proofBytes = true →
        guestMain env.crypto (runOf publicValues) = .ok publicValues)
    (hstep : Step env s s') (h : Committed env.crypto runOf root s) :
    Committed env.crypto runOf root s' := by
  cases hstep with
  | deposit hdeposit =>
    obtain ⟨-, rfl⟩ := deposit_eq_some.mp hdeposit
    exact h.of_same rfl rfl rfl
  | forceTransaction hforce =>
    obtain ⟨-, rfl⟩ := forceTransaction_eq_some.mp hforce
    exact h.of_same rfl rfl rfl
  | beginWithdraw hwithdraw =>
    obtain ⟨_, rfl⟩ := beginWithdraw_eq_some hwithdraw
    exact h.of_same rfl rfl rfl
  | @updateState publicValues proofBytes hupdate =>
    obtain ⟨_, _, _, _, _, _, _, _, _, hproof, _⟩ := updateState_eq_some hupdate
    obtain ⟨hpre, haccepted, hcount, -, hrun⟩ := run_of_updateState hupdate (hsound _ _ hproof)
    have hreplay := executeTransition_replay hrun
    rw [hpre] at hreplay
    constructor
    · rw [haccepted, List.forall_mem_append, List.forall_mem_singleton]
      exact ⟨h.ran, _, hrun⟩
    · rw [committedWrites, haccepted, List.flatMap_append, List.flatMap_singleton]
      exact h.replay.append hreplay
    · rw [hcount, haccepted, List.map_append, List.sum_append, h.deposits, List.map_singleton,
        List.sum_singleton]

/-- **The root of the contract is the end of the runs behind its batches.** -/
theorem Steps.committed
    (hsound : ∀ publicValues proofBytes,
      env.verifyProof env.rollupProgramVKey publicValues proofBytes = true →
        guestMain env.crypto (runOf publicValues) = .ok publicValues)
    (h : Steps env (init root) s) : Committed env.crypto runOf root s := by
  induction h with
  | refl => exact committed_init env.crypto runOf root
  | tail _ hstep ih => exact hstep.committed hsound ih

/-! ## The balances behind the root -/

theorem totalAmount_map_depositEntry (ds : List Deposit) :
    totalAmount (ds.map depositEntry) = (ds.map fun d ↦ d.amount.toNat).sum := by
  simp only [totalAmount, List.map_map, Function.comp_def, depositEntry, toNat_ofNat_uint64]

/-- Runs account for all that they add and burn. -/
theorem balances_of_runs {c : Crypto} {runOf : Bytes → TransitionInputs} :
    ∀ {accepted : List Bytes},
    (∀ publicValues ∈ accepted, ∃ out, executeTransition c (runOf publicValues) = .ok out) →
      newBalances (accepted.flatMap fun publicValues ↦ writes (runOf publicValues))
          + (accepted.map fun publicValues ↦ (runOf publicValues).burned).sum
        = oldBalances (accepted.flatMap fun publicValues ↦ writes (runOf publicValues))
          + totalAmount
            (accepted.flatMap fun publicValues ↦ (runOf publicValues).deposits.map depositEntry)
  | [], _ => rfl
  | publicValues :: accepted, hran => by
    rw [List.forall_mem_cons] at hran
    obtain ⟨⟨out, hrun⟩, hrest⟩ := hran
    have hfirst := executeTransition_balances hrun
    have hdeposited := totalAmount_map_depositEntry (runOf publicValues).deposits
    have htail := balances_of_runs hrest
    rw [TransitionInputs.deposited, ← hdeposited] at hfirst
    simp only [newBalances, oldBalances, totalAmount, List.flatMap_cons, List.map_append,
      List.sum_append, List.map_cons, List.sum_cons] at hfirst htail ⊢
    omega

theorem length_leaves_of_shape_eq {t t' : StateTree} (h : t'.shape = t.shape) :
    t'.leaves.length = t.leaves.length := by
  have hleaves := congrArg Tree.leaves h
  rw [Tree.shape, Tree.shape, Tree.leaves_map, Tree.leaves_map] at hleaves
  have hlength := congrArg List.length hleaves
  rwa [List.length_map, List.length_map] at hlength

end

theorem Steps.backed {env : Deployment} {runOf : Bytes → TransitionInputs}
    (hsound : ∀ publicValues proofBytes,
      env.verifyProof env.rollupProgramVKey publicValues proofBytes = true →
        guestMain env.crypto (runOf publicValues) = .ok publicValues)
    {t₀ : StateTree} {s : Bridge}
    (hsteps : Steps env (init (t₀.root (stateDigest env.crypto))) s)
    (hsha : CollisionFree env.crypto (hashedBy env.crypto t₀ (committedWrites runOf s)) t₀)
    (hkeccak : Set.InjOn (first28 ∘ env.crypto.keccak256) (hashed env runOf s)) :
    ∃ t : StateTree, t.root (stateDigest env.crypto) = s.stateRoot ∧
      t.leaves.length = t₀.leaves.length ∧
      t.supply + totalBurned runOf s
        = t₀.supply + totalAmount (s.pendingDeposits.take s.processedDepositCount.toNat) := by
  have hcommitted := hsteps.committed hsound
  obtain ⟨hrewrites, hroot, -⟩ :=
    Replay.rewrites (fun w hw p hp ↦ Or.inr ⟨w, hw, hp⟩) hsha hcommitted.replay
  have hconsumed : Consumed runOf s :=
    Steps.consumed hsound hsteps (counted_init _) ⟨rfl, rfl⟩ hkeccak
  refine ⟨_, hroot, length_leaves_of_shape_eq hrewrites.frame.1, ?_⟩
  have hsupply := hrewrites.supply
  have hbalances : newBalances (committedWrites runOf s) + totalBurned runOf s
      = oldBalances (committedWrites runOf s) + totalAmount (hashedDeposits runOf s) :=
    balances_of_runs hcommitted.ran
  rw [hconsumed.deposits] at hbalances
  omega

/-- **The supply on L1 is backed by deposits.**  Whoever calls the contract and whoever makes the
proofs, behind its root there is a tree of accounts, as many as in the first tree, and the balances
of this tree and what the guest runs burned are the balances of the first tree and the deposits that
the contract counts as processed. -/
theorem supply_backed (env : Deployment) (runOf : Bytes → TransitionInputs)
    (hsound : ∀ publicValues proofBytes,
      env.verifyProof env.rollupProgramVKey publicValues proofBytes = true →
        guestMain env.crypto (runOf publicValues) = .ok publicValues)
    (t₀ : StateTree) (calls : List Call) {s : Bridge}
    (hs : execAll env calls (init (t₀.root (stateDigest env.crypto))) = s)
    (hsha : CollisionFree env.crypto (hashedBy env.crypto t₀ (committedWrites runOf s)) t₀)
    (hkeccak : Set.InjOn (first28 ∘ env.crypto.keccak256) (hashed env runOf s)) :
    ∃ t : StateTree, t.root (stateDigest env.crypto) = s.stateRoot ∧
      t.leaves.length = t₀.leaves.length ∧
      t.supply + totalBurned runOf s
        = t₀.supply + totalAmount (s.pendingDeposits.take s.processedDepositCount.toNat) := by
  have hsteps : Steps env (init (t₀.root (stateDigest env.crypto))) s :=
    hs ▸ execAll_steps env calls _
  exact hsteps.backed hsound hsha hkeccak

namespace OneDeposit

set_option maxRecDepth 10000 in
theorem leaves_nodup : ([Account.new sample.to_, credited (.new sample.to_) sample.amount].map
    (Account.hash .sha3Crate)).Nodup := by
  decide +kernel

end OneDeposit

open OneDeposit in
theorem supply_backed_one_deposit :
    ∃ (s : Bridge) (t : StateTree),
      execAll (env .sha3Crate (.new sample.to_) sample)
        (calls .sha3Crate (.new sample.to_) sample)
        (init ((Account.new sample.to_).hash .sha3Crate)) = s ∧
      t.root (stateDigest .sha3Crate) = s.stateRoot ∧
      t.supply + totalBurned (fun _ ↦ input .sha3Crate (.new sample.to_) sample) s
        = 0 + totalAmount (s.pendingDeposits.take s.processedDepositCount.toNat) := by
  have hfits : UInt64.Fits ((Account.new sample.to_).balance.toNat + sample.amount.toNat) := by
    decide
  obtain ⟨s, hs, -, haccepted, hpending, hforced⟩ :=
    execAll_calls .sha3Crate hfits (by decide)
  have hsound : ∀ pv proofBytes, (env .sha3Crate (.new sample.to_) sample).verifyProof
      (env .sha3Crate (.new sample.to_) sample).rollupProgramVKey pv proofBytes = true →
      guestMain (env .sha3Crate (.new sample.to_) sample).crypto
        (input .sha3Crate (.new sample.to_) sample) = .ok pv := by
    intro pv _ h
    rw [eq_of_beq h]
    exact guestMain_input _ hfits
  have hwrites : committedWrites (fun _ ↦ input .sha3Crate (.new sample.to_) sample) s
      = writes (input .sha3Crate (.new sample.to_) sample) := by
    rw [committedWrites, haccepted, List.flatMap_singleton]
  have hsha : CollisionFree .sha3Crate (hashedBy .sha3Crate (.leaf (.new sample.to_))
      (committedWrites (fun _ ↦ input .sha3Crate (.new sample.to_) sample) s))
      (.leaf (.new sample.to_)) := by
    rw [hwrites]
    exact collisionFree_leaf leaves_nodup
  have hkeccak : Set.InjOn (first28 ∘ (env .sha3Crate (.new sample.to_) sample).crypto.keccak256)
      (hashed (env .sha3Crate (.new sample.to_) sample)
        (fun _ ↦ input .sha3Crate (.new sample.to_) sample) s) :=
    (injOn _ digests_nodup hpending hforced).mono fun b ⟨_, _, hb⟩ ↦ hb
  obtain ⟨t, hroot, -, hsupply⟩ :=
    supply_backed (env .sha3Crate (.new sample.to_) sample)
      (fun _ ↦ input .sha3Crate (.new sample.to_) sample) hsound (.leaf (.new sample.to_)) _ hs hsha
      hkeccak
  exact ⟨s, t, hs, hroot, hsupply⟩

/-! ## A contract that starts from nothing -/

/-- **A contract that starts from the root of an empty tree stays there.**  No guest run can open
this root, so every accepted batch is empty but for transactions that the guest skips: the root
never moves, and no deposit is ever processed. -/
theorem empty_genesis_stuck (env : Deployment) (runOf : Bytes → TransitionInputs)
    (hsound : ∀ publicValues proofBytes,
      env.verifyProof env.rollupProgramVKey publicValues proofBytes = true →
        guestMain env.crypto (runOf publicValues) = .ok publicValues)
    (calls : List Call) {s : Bridge} (hs : execAll env calls (init Hash.default) = s)
    (hzero : ∀ w ∈ committedWrites runOf s, ∀ p ∈ w.preimages env.crypto,
      stateDigest env.crypto p ≠ Hash.default) :
    s.stateRoot = Hash.default ∧ s.processedDepositCount = 0 ∧
      ∀ publicValues ∈ s.accepted, (runOf publicValues).deposits = [] ∧
        (runOf publicValues).txs = [] ∧
        ∀ tx ∈ (runOf publicValues).forcedTxs, tx.from_ = Hash.default := by
  have hcommitted : Committed env.crypto runOf Hash.default s :=
    Steps.committed hsound (hs ▸ execAll_steps env calls _)
  obtain ⟨hwrites, hroot⟩ := hcommitted.replay.eq_nil hzero
  have hskips : ∀ publicValues ∈ s.accepted, (runOf publicValues).deposits = [] ∧
      (runOf publicValues).txs = [] ∧
      ∀ tx ∈ (runOf publicValues).forcedTxs, tx.from_ = Hash.default := by
    intro publicValues hmem
    obtain ⟨out, hrun⟩ := hcommitted.ran publicValues hmem
    exact skips_of_writes_eq_nil hrun (List.flatMap_eq_nil_iff.mp hwrites publicValues hmem)
  refine ⟨hroot, BitVec.eq_of_toNat_eq ?_, hskips⟩
  have hcounts : s.accepted.map (fun publicValues ↦
      (UInt32.ofNat (runOf publicValues).deposits.length).toNat) = s.accepted.map fun _ ↦ 0 :=
    List.map_congr_left fun publicValues hmem ↦ by rw [(hskips publicValues hmem).1]; rfl
  rw [hcommitted.deposits, hcounts, List.map_const', List.sum_replicate, smul_zero]
  rfl

open Censored in
theorem empty_genesis_stuck_deposit :
    let s := execAll (env .sha3Crate Hash.default)
      [.deposit (OneDeposit.depositMsg OneDeposit.sample), .forceTransaction msg calldata,
        .updateState (publicValues .sha3Crate Hash.default) []] (init Hash.default)
    s.stateRoot = Hash.default ∧ s.processedDepositCount = 0 := by
  intro s
  have hsound : ∀ pv proofBytes, (env .sha3Crate Hash.default).verifyProof
      (env .sha3Crate Hash.default).rollupProgramVKey pv proofBytes = true →
      guestMain (env .sha3Crate Hash.default).crypto (input Hash.default) = .ok pv := by
    intro pv _ h
    rw [eq_of_beq h]
    exact guestMain_input _ _
  have hzero : ∀ w ∈ committedWrites (fun _ ↦ input Hash.default) s,
      ∀ p ∈ w.preimages .sha3Crate, stateDigest .sha3Crate p ≠ Hash.default := by
    intro w hw
    obtain ⟨_, -, hmem⟩ := List.mem_flatMap.mp hw
    exact absurd (show w ∈ ([] : List LeafWrite) from hmem) List.not_mem_nil
  obtain ⟨hroot, hcount, -⟩ :=
    empty_genesis_stuck (env .sha3Crate Hash.default) (fun _ ↦ input Hash.default) hsound _ rfl
      hzero
  exact ⟨hroot, hcount⟩

end Bridge

end TinyRollup
