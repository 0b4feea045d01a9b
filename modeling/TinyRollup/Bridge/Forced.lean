import TinyRollup.Bridge.Queues
import TinyRollup.Sequencer.Fetch

/-!
# Forced transactions and the bytes they were posted with

`hash_forced_txs` commits to the calldata and the timestamp of a forced transaction; the guest
executes five other fields, which it never compares with the calldata.

So a batch that L1 accepts executes the forced transactions as they were posted if and only if each
forced transaction that the host supplied is consistent with the calldata it carries
(`forced_as_posted_iff`).  Between lists that are consistent, the hash fixes what the guest does
(`executeTransition_congr_posted`).
-/

set_option autoImplicit false

namespace TinyRollup

open ByteString Word Stf Bridge

/-! ## The hash of a list of forced transactions -/

/-- The same calldata and timestamp. -/
def SameForcedItem (x y : ForcedTx) : Prop :=
  x.l2Calldata = y.l2Calldata ∧ x.timestamp = y.timestamp

theorem map_forcedItem_eq_iff {xs ys : List ForcedTx} :
    xs.map forcedItem = ys.map forcedItem ↔ List.Forall₂ SameForcedItem xs ys := by
  induction xs generalizing ys with
  | nil => cases ys <;> simp
  | cons x xs ih =>
    cases ys with
    | nil => simp
    | cons y ys =>
      rw [List.map_cons, List.map_cons, List.cons.injEq, ih, List.forall₂_cons, forcedItem_inj]
      rfl

/-- What hashing two lists of forced transactions hashes. -/
def forcedHashed (c : Crypto) (xs ys : List ForcedTx) : Set Bytes :=
  HashList.preimages c.keccak256 (xs.map forcedItem) ∪
    HashList.preimages c.keccak256 (ys.map forcedItem)

theorem forall₂_of_hashForcedTxs_eq {c : Crypto} {xs ys : List ForcedTx}
    (hcf : Set.InjOn c.keccak256 (forcedHashed c xs ys))
    (h : hashForcedTxs c xs = hashForcedTxs c ys) : List.Forall₂ SameForcedItem xs ys := by
  rw [hashForcedTxs_eq, hashForcedTxs_eq] at h
  have hcut : Set.InjOn (id ∘ c.keccak256) (forcedHashed c xs ys) := hcf
  exact map_forcedItem_eq_iff.mp
    (HashList.hashList_inj c.keccak256 hcut Set.subset_union_left Set.subset_union_right h)

/-! ## What the guest does with a consistent list -/

section Congr

variable {bincode : Bincode}

/-- Two forced transactions that are both consistent with one calldata are executed alike. -/
theorem forcedStep_congr {c : Crypto} {proofsFrom proofsTo : List MerkleProof} {root : Hash}
    {x y : ForcedTx} {i : ℕ} (hx : x.Posted bincode) (hy : y.Posted bincode)
    (hdata : x.l2Calldata = y.l2Calldata) :
    forcedStep c proofsFrom proofsTo root (x, i)
      = forcedStep c proofsFrom proofsTo root (y, i) := by
  rw [ForcedTx.Posted, PostedAs] at hx hy
  rw [hdata] at hx
  by_cases hzx : x.from_ = Hash.default <;> by_cases hzy : y.from_ = Hash.default
  · rw [forcedStep, forcedStep, if_pos hzx, if_pos hzy]
  · rw [if_pos hzx] at hx
    rw [if_neg hzy] at hy
    obtain ⟨d, hd, hfrom, -⟩ := hy
    exact absurd (hfrom.trans (hx d hd)) hzy
  · rw [if_neg hzx] at hx
    rw [if_pos hzy] at hy
    obtain ⟨d, hd, hfrom, -⟩ := hx
    exact absurd (hfrom.trans (hy d hd)) hzx
  · rw [if_neg hzx] at hx
    rw [if_neg hzy] at hy
    obtain ⟨d, hd, -, hto, hnonce, hfee, hamount⟩ := hx
    obtain ⟨d', hd', -, hto', hnonce', hfee', hamount'⟩ := hy
    obtain rfl := Option.some_inj.mp (hd.symm.trans hd')
    simp only [forcedStep, if_neg hzx, if_neg hzy, applyForcedTx, hto, hto', hnonce, hnonce', hfee,
      hfee', hamount, hamount']

theorem foldlM_forcedStep_congr {c : Crypto} {proofsFrom proofsTo : List MerkleProof}
    {xs ys : List ForcedTx} (hsame : List.Forall₂ SameForcedItem xs ys)
    (hxs : ∀ x ∈ xs, x.Posted bincode) (hys : ∀ y ∈ ys, y.Posted bincode) (k : ℕ) (root : Hash) :
    (xs.zipIdx k).foldlM (forcedStep c proofsFrom proofsTo) root
      = (ys.zipIdx k).foldlM (forcedStep c proofsFrom proofsTo) root := by
  induction hsame generalizing k root with
  | nil => rfl
  | cons hxy _ ih =>
    rw [List.forall_mem_cons] at hxs hys
    simp only [List.zipIdx_cons, List.foldlM_cons, forcedStep_congr hxs.1 hys.1 hxy.1]
    congr 1
    funext root'
    exact ih hxs.2 hys.2 (k + 1) root'

/-- Consistent lists with one hash lead the guest to the same result on every input. -/
theorem executeTransition_congr_posted {c : Crypto} {xs ys : List ForcedTx}
    (hcf : Set.InjOn c.keccak256 (forcedHashed c xs ys))
    (hhash : hashForcedTxs c xs = hashForcedTxs c ys) (hxs : ∀ x ∈ xs, x.Posted bincode)
    (hys : ∀ y ∈ ys, y.Posted bincode) (inp : TransitionInputs) :
    executeTransition c { inp with forcedTxs := xs }
      = executeTransition c { inp with forcedTxs := ys } := by
  have hsame := forall₂_of_hashForcedTxs_eq hcf hhash
  simp only [executeTransition, hhash, foldlM_forcedStep_congr hsame hxs hys]

end Congr

/-! ## What an accepted batch executes -/

/-- The forced transactions on L1 that a batch has consumed. -/
def consumedForcedTxs (s s' : Bridge) : List ForcedTransaction :=
  (s.forcedTransactions.drop s.processedForcedTxCount.toNat).take
    (s'.processedForcedTxCount.toNat - s.processedForcedTxCount.toNat)

/-- The guest was given, for each forced transaction on L1 in order, what it was posted as. -/
def ExecutesAsPosted (bincode : Bincode) (s s' : Bridge) (inp : TransitionInputs) : Prop :=
  List.Forall₂ (fun e tx ↦ PostedAs bincode e.data tx) (consumedForcedTxs s s') inp.forcedTxs

theorem executesAsPosted_iff {bincode : Bincode} {s s' : Bridge} {inp : TransitionInputs}
    (hbatch : Batch s s' inp) :
    ExecutesAsPosted bincode s s' inp ↔ ∀ tx ∈ inp.forcedTxs, tx.Posted bincode := by
  have hconsumed : consumedForcedTxs s s' = inp.forcedTxs.map forcedEntry := by
    rw [consumedForcedTxs, hbatch.forcedTxCount, Nat.add_sub_cancel_left, hbatch.forcedTxs]
  rw [ExecutesAsPosted, hconsumed, List.forall₂_map_left_iff, List.forall₂_same]
  rfl

/-- **Forced transactions as posted.**  In a batch that L1 accepts, every forced transaction is
executed as its calldata on L1 decodes, and skipped only if that calldata does not decode or decodes
to a zero sender, if and only if every forced transaction that the host supplied is consistent with
the calldata it carries; and between lists that are, the hash fixes the result of the guest. -/
theorem forced_as_posted_iff (c : Crypto) (bincode : Bincode) :
    (∀ (env : Deployment) (initialRoot : Hash) (s s' : Bridge) (inp : TransitionInputs)
      (publicValues proofBytes : Bytes), env.crypto = c → Steps env (init initialRoot) s →
      s.updateState env publicValues proofBytes = some s' → guestMain c inp = .ok publicValues →
      Set.InjOn (first28 ∘ c.keccak256) (batchHashed env s inp) →
      (ExecutesAsPosted bincode s s' inp ↔ ∀ tx ∈ inp.forcedTxs, tx.Posted bincode)) ∧
    (∀ (inp : TransitionInputs) (xs ys : List ForcedTx),
      Set.InjOn c.keccak256 (forcedHashed c xs ys) → hashForcedTxs c xs = hashForcedTxs c ys →
      (∀ x ∈ xs, x.Posted bincode) → (∀ y ∈ ys, y.Posted bincode) →
      executeTransition c { inp with forcedTxs := xs }
        = executeTransition c { inp with forcedTxs := ys }) := by
  constructor
  · rintro env initialRoot s s' inp publicValues proofBytes rfl hreach hup hguest hcf
    have hcounted := Steps.counted hreach (counted_init initialRoot)
    exact executesAsPosted_iff (Batch.of_updateState hcounted hup hguest hcf subset_rfl)
  · exact fun inp xs ys hcf hhash hxs hys ↦ executeTransition_congr_posted hcf hhash hxs hys inp

/-! ## A forced transaction that is dropped under an accepted proof -/

namespace Censored

/-- What Alice posts on L1: five tokens to Bob, with a fee of one. -/
def calldata : Bytes :=
  (Hash.ofByte 1).toList ++ (Hash.ofByte 2).toList ++ [0, 0, 0, 0, 0, 0, 0, 0]
    ++ [1, 0, 0, 0, 0, 0, 0, 0] ++ [5, 0, 0, 0, 0, 0, 0, 0] ++ [0, 0, 0, 0, 0, 0, 0, 0]
    ++ [0, 0, 0, 0, 0, 0, 0, 0]

/-- What the bytes decode to. -/
def posted : ForcedTx where
  from_ := Hash.ofByte 1
  to_ := Hash.ofByte 2
  nonce := 0
  fee := 1
  amount := 5
  timestamp := 0
  l2Calldata := []

/-- What the host supplies for them. -/
def dummy : ForcedTx where
  from_ := Hash.default
  to_ := Hash.default
  nonce := 0
  fee := 0
  amount := 0
  timestamp := 7
  l2Calldata := calldata

theorem decode_calldata : Bincode.v1.forcedTx calldata = some posted := by decide +kernel

variable (c : Crypto) (root : Hash)

def input : TransitionInputs where
  preStateRoot := root
  txs := []
  deposits := []
  forcedTxs := [dummy]
  proofsDeposits := []
  proofsForcedFrom := []
  proofsForcedTo := []
  proofsTxsFrom := []
  proofsTxsTo := []

def publicValues : Bytes :=
  PublicValues.abiEncode
    { preStateRoot := root
      postStateRoot := root
      depositsCommitment := buildCommitment (hashDeposits c []) 0
      forcedTxsCommitment := buildCommitment (hashForcedTxs c [dummy]) 1 }

/-- A verifier that accepts the public values of this run and no others. -/
def env : Deployment where
  crypto := c
  verifyProof := fun _ pv _ ↦ pv == publicValues c root
  rollupProgramVKey := Hash.default
  merkleVerify := fun _ _ _ ↦ false

def msg : Msg where
  sender := userAddress (Hash.ofByte 1)
  value := BitVec.ofNat 256 forcedTxFee
  timestamp := 7

/-- The contract after Alice posted her transaction. -/
def queued : Bridge :=
  { init root with forcedTransactions := [⟨calldata, 7⟩], forcedTxCount := 1 }

theorem executeTransition_input : executeTransition c (input root)
    = .ok (root, hashDeposits c [], hashForcedTxs c [dummy]) :=
  executeTransition_eq_ok.mpr ⟨rfl, rfl, _, _, rfl, Run.foldlM_cons_eq_ok.mpr
    ⟨root, forcedStep_eq_ok.mpr (Or.inl ⟨rfl, rfl⟩), rfl⟩, rfl⟩

theorem guestMain_input : guestMain c (input root) = .ok (publicValues c root) :=
  guestMain_eq_ok.mpr ⟨_, executeTransition_input c root, rfl⟩

theorem steps_queued : Steps (env c root) (init root) (queued root) := by
  have h : (init root).forceTransaction msg calldata = some (queued root) :=
    forceTransaction_eq_some.mpr ⟨⟨by decide, show 0 < maxArrayLength by decide⟩, rfl⟩
  exact .single (.forceTransaction h)

theorem updateState_queued :
    ∃ s', (queued root).updateState (env c root) (publicValues c root) [] = some s' := by
  obtain ⟨s', hs', -⟩ := updateState_of_slices (env c root) (queued root) []
    (Steps.counted (steps_queued c root) (counted_init root)) (executeTransition_input c root)
    (guestMain_input c root) (beq_self_eq_true _) rfl (show 0 < 2 ^ 32 by decide)
    (show 1 < 2 ^ 32 by decide) rfl rfl
  exact ⟨s', hs'⟩

/-- The strings hashed for the batch. -/
def strings : List Bytes := [[], forcedItem dummy, HashList.digests c.keccak256 [forcedItem dummy]]

theorem mem_strings : ∀ b ∈ batchHashed (env c root) (queued root) (input root), b ∈ strings c := by
  have hpending : (queued root).pendingDeposits = [].map depositEntry := rfl
  have hforced : (queued root).forcedTransactions = [dummy].map forcedEntry := rfl
  refine batchHashed_subset hpending hforced List.infix_rfl List.infix_rfl (fun l hl ↦ ?_)
    fun l hl ↦ HashList.preimages_of_infix_singleton c.keccak256 hl
  rw [List.infix_nil.mp hl]
  exact HashList.preimages_of_infix_singleton c.keccak256 (List.nil_infix (l := [dummy]))

set_option maxRecDepth 10000 in
theorem digests_nodup :
    ((strings .sha3Crate).map (first28 ∘ Crypto.keccak256 .sha3Crate)).Nodup := by
  decide +kernel

theorem injOn : Set.InjOn (first28 ∘ Crypto.keccak256 .sha3Crate)
    (batchHashed (env .sha3Crate root) (queued root) (input root)) :=
  fun _ hb _ hb' h ↦ List.inj_on_of_nodup_map digests_nodup (mem_strings _ root _ hb)
    (mem_strings _ root _ hb') h

/-- What the sequencer takes bytes for that do not decode. -/
def honest : ForcedTx := decodePosted .v1 [] 7

/-- Another host skips them with an amount. -/
def skipped (amount : UInt64) : ForcedTx where
  from_ := Hash.default
  to_ := Hash.default
  nonce := 0
  fee := 0
  amount := amount
  timestamp := 7
  l2Calldata := []

theorem posted_skipped (amount : UInt64) : (skipped amount).Posted .v1 := by
  have hdummy : (skipped amount).from_ = Hash.default := rfl
  rw [ForcedTx.Posted, PostedAs, if_pos hdummy]
  intro d hd
  have hnone : Bincode.v1.forcedTx [] = none := by decide +kernel
  exact absurd (hnone.symm.trans hd) (by simp)

theorem forcedItem_skipped (amount : UInt64) :
    forcedItem (skipped amount) = forcedItem honest := by
  have htime : honest.timestamp = 7 := by decide +kernel
  exact forcedItem_inj.mpr ⟨(decodePosted_l2Calldata _ _ _).symm, htime.symm⟩

set_option maxRecDepth 10000 in
theorem honest_nodup :
    ([HashList.digests (Crypto.keccak256 .sha3Crate) [forcedItem honest],
      forcedItem honest].map (Crypto.keccak256 .sha3Crate)).Nodup := by
  decide +kernel

theorem injOn_honest : Set.InjOn (Crypto.keccak256 .sha3Crate)
    (forcedHashed .sha3Crate [honest] [skipped 9]) := by
  rw [forcedHashed, List.map_singleton, List.map_singleton, forcedItem_skipped, Set.union_self]
  rintro b hb b' hb' h
  refine List.inj_on_of_nodup_map honest_nodup ?_ ?_ h
  · simpa [HashList.preimages] using hb
  · simpa [HashList.preimages] using hb'

end Censored

open Censored in
/-- A batch that L1 accepts drops the transaction that Alice forced. -/
theorem censored_forcedTx :
    Bincode.v1.forcedTx calldata = some posted ∧ posted.from_ ≠ Hash.default ∧
    ∃ s', Steps (env .sha3Crate Hash.default) (init Hash.default) (queued Hash.default) ∧
      (queued Hash.default).updateState (env .sha3Crate Hash.default)
        (publicValues .sha3Crate Hash.default) [] = some s' ∧
      guestMain .sha3Crate (input Hash.default) = .ok (publicValues .sha3Crate Hash.default) ∧
      Set.InjOn (first28 ∘ Crypto.keccak256 .sha3Crate)
        (batchHashed (env .sha3Crate Hash.default) (queued Hash.default) (input Hash.default)) ∧
      ¬ ExecutesAsPosted .v1 (queued Hash.default) s' (input Hash.default) := by
  obtain ⟨s', hup⟩ := updateState_queued .sha3Crate Hash.default
  refine ⟨decode_calldata, by decide, s', steps_queued _ _, hup, guestMain_input _ _, injOn _,
    fun h ↦ ?_⟩
  have hbatch := Batch.of_updateState (Steps.counted (steps_queued .sha3Crate _) (counted_init _))
    hup (guestMain_input _ _) (injOn _) subset_rfl
  have hposted := (executesAsPosted_iff hbatch).mp h dummy (List.mem_singleton_self _)
  rw [ForcedTx.Posted, PostedAs, if_pos (show dummy.from_ = Hash.default from rfl)] at hposted
  exact absurd (hposted posted decode_calldata) (by decide)

open Censored in
/-- The second part with two lists that differ in an amount. -/
theorem forced_as_posted_iff_censored :
    (∃ s', (queued Hash.default).updateState (env .sha3Crate Hash.default)
        (publicValues .sha3Crate Hash.default) [] = some s' ∧
      (ExecutesAsPosted .v1 (queued Hash.default) s' (input Hash.default) ↔
        ∀ tx ∈ (input Hash.default).forcedTxs, tx.Posted .v1)) ∧
    [honest] ≠ [skipped 9] ∧
    executeTransition .sha3Crate { input Hash.default with forcedTxs := [honest] }
      = executeTransition .sha3Crate { input Hash.default with forcedTxs := [skipped 9] } := by
  obtain ⟨s', hup⟩ := updateState_queued .sha3Crate Hash.default
  have hhash : hashForcedTxs .sha3Crate [honest] = hashForcedTxs .sha3Crate [skipped 9] := by
    rw [hashForcedTxs_eq, hashForcedTxs_eq, List.map_singleton, List.map_singleton,
      forcedItem_skipped]
  have hhonest : honest.Posted .v1 := posted_decodePosted _ _ _
  refine ⟨⟨s', hup, ?_⟩, by decide +kernel, ?_⟩
  · exact (forced_as_posted_iff .sha3Crate .v1).1 _ _ _ _ _ _ _ rfl (steps_queued _ _) hup
      (guestMain_input _ _) (injOn _)
  · exact (forced_as_posted_iff .sha3Crate .v1).2 _ _ _ injOn_honest hhash
      (List.forall_mem_singleton.mpr hhonest) (List.forall_mem_singleton.mpr (posted_skipped 9))

end TinyRollup
