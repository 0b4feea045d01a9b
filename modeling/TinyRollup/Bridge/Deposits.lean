import TinyRollup.Bridge.Queues
import TinyRollup.Sequencer.Fetch
import TinyRollup.Stf.Writes

/-!
# Who is credited for a deposit

`hash_deposits` cuts the 32-byte key of a deposit to the last 20 bytes, which is the address on L1,
and the guest credits whichever account the host supplies a proof of.  Nothing checks that the
first twelve bytes of the key are zero.

* `hashDeposits_eq_iff` — two lists have one hash exactly when they are the same up to these bytes.
* `credits_iff` — in a batch that L1 accepts, the accounts of the L1 users are credited if and only
  if the host supplied the proofs of these accounts.
* `deposit_commitment_iff` puts the two together.
-/

set_option autoImplicit false

namespace TinyRollup

open ByteString Word Stf Bridge

/-! ## The hash of a list of deposits -/

/-- The same deposit up to the first twelve bytes of its key. -/
def SameItem (d e : Deposit) : Prop :=
  userAddress d.to_ = userAddress e.to_ ∧ d.amount = e.amount ∧ d.timestamp = e.timestamp

theorem map_depositItem_eq_iff {ds es : List Deposit} :
    ds.map depositItem = es.map depositItem ↔ List.Forall₂ SameItem ds es := by
  induction ds generalizing es with
  | nil => cases es <;> simp
  | cons d ds ih =>
    cases es with
    | nil => simp
    | cons e es =>
      rw [List.map_cons, List.map_cons, List.cons.injEq, ih, List.forall₂_cons, depositItem_inj]
      rfl

/-- What hashing two lists of deposits hashes. -/
def depositsHashed (c : Crypto) (ds es : List Deposit) : Set Bytes :=
  HashList.preimages c.keccak256 (ds.map depositItem) ∪
    HashList.preimages c.keccak256 (es.map depositItem)

theorem hashDeposits_eq_iff {c : Crypto} {ds es : List Deposit}
    (hcf : Set.InjOn c.keccak256 (depositsHashed c ds es)) :
    hashDeposits c ds = hashDeposits c es ↔ List.Forall₂ SameItem ds es := by
  rw [hashDeposits_eq, hashDeposits_eq, ← map_depositItem_eq_iff]
  refine ⟨fun h ↦ ?_, fun h ↦ by rw [h]⟩
  have hcut : Set.InjOn (id ∘ c.keccak256) (depositsHashed c ds es) := hcf
  exact HashList.hashList_inj c.keccak256 hcut Set.subset_union_left Set.subset_union_right h

/-! ## The accounts a batch credits -/

/-- The write credits the account of the user of an L1 deposit with its amount. -/
structure CreditedAs (e : L1Deposit) (w : LeafWrite) : Prop where
  account : w.proof.account.id = addressToHash e.user
  id : w.account.id = w.proof.account.id
  nonce : w.account.nonce = w.proof.account.nonce
  balance : w.account.balance.toNat = w.proof.account.balance.toNat + e.amount.toNat

/-- The L1 deposits that a batch has consumed. -/
def consumedDeposits (s s' : Bridge) : List L1Deposit :=
  (s.pendingDeposits.drop s.processedDepositCount.toNat).take
    (s'.processedDepositCount.toNat - s.processedDepositCount.toNat)

/-- The deposit loop credits, for each L1 deposit in order, the account of its user with its
amount. -/
def CreditsConsumed (s s' : Bridge) (inp : TransitionInputs) : Prop :=
  List.Forall₂ CreditedAs (consumedDeposits s s')
    (inp.deposits.zipIdx.flatMap (depositWrites inp.proofsDeposits))

/-- For every deposit the host supplied the proof of the account at its key with the first twelve
bytes zeroed. -/
def ProofsOfUsers (inp : TransitionInputs) : Prop :=
  ∀ (i : ℕ) (d : Deposit) (p : MerkleProof), inp.deposits[i]? = some d →
    inp.proofsDeposits[i]? = some p → p.account.id = addressToHash (userAddress d.to_)

/-- One deposit. -/
theorem depositStep_credits {c : Crypto} {proofs : List MerkleProof} {root root' : Hash}
    {d : Deposit} {i : ℕ} (h : depositStep c proofs root (d, i) = .ok root') :
    ∃ p w, proofs[i]? = some p ∧ depositWrites proofs (d, i) = [w] ∧
      (CreditedAs (depositEntry d) w ↔ p.account.id = addressToHash (userAddress d.to_)) := by
  obtain ⟨p, a, hp, -, ha, -⟩ := depositStep_eq_ok.mp h
  obtain ⟨hfits, rfl⟩ := applyDeposit_eq_ok_iff.mp ha
  refine ⟨p, ⟨d.to_, p, credited p.account d.amount⟩, hp, by simp [depositWrites, hp], ?_⟩
  refine ⟨CreditedAs.account, fun hid ↦ ⟨hid, rfl, rfl, ?_⟩⟩
  rw [credited_balance hfits, depositEntry, toNat_ofNat_uint64]

/-- The deposit loop, from its `k`-th iteration on. -/
theorem deposits_credits {c : Crypto} {proofs : List MerkleProof} {ds : List Deposit} :
    ∀ {k : ℕ} {root root' : Hash},
      (ds.zipIdx k).foldlM (depositStep c proofs) root = .ok root' →
      (List.Forall₂ CreditedAs (ds.map depositEntry)
          ((ds.zipIdx k).flatMap (depositWrites proofs)) ↔
        ∀ x ∈ ds.zipIdx k, ∀ p, proofs[x.2]? = some p →
          p.account.id = addressToHash (userAddress x.1.to_)) := by
  induction ds with
  | nil => exact fun _ ↦ by simp
  | cons d ds ih =>
    intro k root root' h
    rw [List.zipIdx_cons] at h
    obtain ⟨mid, hd, hds⟩ := Run.foldlM_cons_eq_ok.mp h
    obtain ⟨p, w, hp, hw, hiff⟩ := depositStep_credits hd
    rw [List.zipIdx_cons, List.flatMap_cons, hw, List.map_cons, List.singleton_append,
      List.forall₂_cons, List.forall_mem_cons, hiff, ih hds, hp]
    refine and_congr_left' ⟨fun hid q hq ↦ ?_, fun hall ↦ hall p rfl⟩
    rwa [← Option.some_inj.mp hq]

theorem credits_iff {c : Crypto} {s s' : Bridge} {inp : TransitionInputs}
    {out : Hash × Hash × Hash} (hbatch : Batch s s' inp)
    (hrun : executeTransition c inp = .ok out) :
    CreditsConsumed s s' inp ↔ ProofsOfUsers inp := by
  obtain ⟨root, dh, fh⟩ := out
  obtain ⟨-, -, r₁, -, h₁, -, -⟩ := executeTransition_eq_ok.mp hrun
  have hconsumed : consumedDeposits s s' = inp.deposits.map depositEntry := by
    rw [consumedDeposits, hbatch.depositCount, Nat.add_sub_cancel_left, hbatch.deposits]
  rw [CreditsConsumed, hconsumed, deposits_credits h₁]
  simp only [Prod.forall, List.mk_mem_zipIdx_iff_getElem?]
  exact ⟨fun h i d p hd hp ↦ h d i hd p hp, fun h d i hd p hp ↦ h i d p hd hp⟩

/-- **What a deposit commitment fixes.**  Two lists of deposits with one hash are equal unless they
differ in the first twelve bytes of their keys and nowhere else; and a batch that L1 accepts credits
the accounts of the L1 users, in order and with their amounts, if and only if the host supplied the
proofs of these accounts. -/
theorem deposit_commitment_iff (c : Crypto) :
    (∀ ds es : List Deposit, Set.InjOn c.keccak256 (depositsHashed c ds es) →
      ((hashDeposits c ds = hashDeposits c es → ds = es) ↔
        ¬ (ds ≠ es ∧ List.Forall₂ SameItem ds es))) ∧
    (∀ (env : Deployment) (initialRoot : Hash) (s s' : Bridge) (inp : TransitionInputs)
      (publicValues proofBytes : Bytes), env.crypto = c → Steps env (init initialRoot) s →
      s.updateState env publicValues proofBytes = some s' → guestMain c inp = .ok publicValues →
      Set.InjOn (first28 ∘ c.keccak256) (batchHashed env s inp) →
      (CreditsConsumed s s' inp ↔ ProofsOfUsers inp)) := by
  constructor
  · intro ds es hcf
    rw [hashDeposits_eq_iff hcf]
    tauto
  · rintro env initialRoot s s' inp publicValues proofBytes rfl hreach hup hguest hcf
    have hcounted := Steps.counted hreach (counted_init initialRoot)
    obtain ⟨root, hrun, -⟩ := guestMain_eq_ok.mp hguest
    exact credits_iff (Batch.of_updateState hcounted hup hguest hcf subset_rfl) hrun

/-! ## A deposit that is redirected under an accepted proof -/

namespace Redirected

/-- The key of address 1 with a byte set that L1 does not see. -/
def otherKey : Hash := ⟨1 :: (List.replicate 30 0 ++ [1]), by simp⟩

def deposit : Deposit := { OneDeposit.sample with to_ := otherKey }

def account : Account := Account.new otherKey

theorem depositItem_deposit : depositItem deposit = depositItem OneDeposit.sample :=
  depositItem_inj.mpr ⟨by decide, rfl, rfl⟩

theorem digests_nodup : ((OneDeposit.strings .sha3Crate deposit).map
    (first28 ∘ Crypto.keccak256 .sha3Crate)).Nodup := by
  rw [OneDeposit.strings, depositItem_deposit]
  exact OneDeposit.digests_nodup

theorem injOn_depositsHashed :
    Set.InjOn (Crypto.keccak256 .sha3Crate)
      (depositsHashed .sha3Crate [deposit] [OneDeposit.sample]) := by
  have hsub : depositsHashed .sha3Crate [deposit] [OneDeposit.sample]
      ⊆ {b | b ∈ OneDeposit.strings .sha3Crate OneDeposit.sample} := by
    rw [depositsHashed, List.map_singleton, List.map_singleton, depositItem_deposit, Set.union_self]
    exact OneDeposit.preimages_subset_strings _ List.infix_rfl
  exact fun b hb b' hb' h ↦ List.inj_on_of_nodup_map OneDeposit.digests_nodup (hsub hb) (hsub hb')
    (congrArg first28 h)

theorem fits : UInt64.Fits (account.balance.toNat + deposit.amount.toNat) := by decide

theorem steps_deposited (c : Crypto) : Steps (OneDeposit.env c account deposit)
    (init (account.hash c)) (OneDeposit.deposited c account deposit) :=
  .single (.deposit (OneDeposit.exec_deposit c (by decide)))

/-- The proof that the host supplied is not that of the user. -/
theorem not_proofsOfUsers (c : Crypto) : ¬ ProofsOfUsers (OneDeposit.input c account deposit) :=
  fun h ↦ absurd (h 0 deposit ⟨account, []⟩ rfl rfl) (by decide)

end Redirected

open Redirected OneDeposit in
/-- Two lists with one hash, and an accepted batch that credits another account. -/
theorem redirected_deposit :
    (Set.InjOn (Crypto.keccak256 .sha3Crate)
        (depositsHashed .sha3Crate [Redirected.deposit] [sample]) ∧
      hashDeposits .sha3Crate [Redirected.deposit] = hashDeposits .sha3Crate [sample] ∧
      [Redirected.deposit] ≠ [sample]) ∧
    ∃ s', (deposited .sha3Crate account Redirected.deposit).updateState
        (env .sha3Crate account Redirected.deposit)
        (publicValues .sha3Crate account Redirected.deposit) [] = some s' ∧
      consumedDeposits (deposited .sha3Crate account Redirected.deposit) s'
        = [depositEntry sample] ∧
      ¬ CreditsConsumed (deposited .sha3Crate account Redirected.deposit) s'
        (input .sha3Crate account Redirected.deposit) := by
  have hsame : hashDeposits .sha3Crate [Redirected.deposit] = hashDeposits .sha3Crate [sample] :=
    (hashDeposits_eq_iff injOn_depositsHashed).mpr
      (List.forall₂_cons.mpr ⟨⟨by decide, rfl, rfl⟩, .nil⟩)
  refine ⟨⟨injOn_depositsHashed, hsame, by decide⟩, ?_⟩
  obtain ⟨s', -, hup, -⟩ := execAll_calls .sha3Crate fits (by decide)
  have hbatch := Batch.of_updateState (Steps.counted (steps_deposited .sha3Crate) (counted_init _))
    hup (guestMain_input _ fits) (injOn _ Redirected.digests_nodup rfl rfl) subset_rfl
  refine ⟨s', hup, ?_, fun h ↦ ?_⟩
  · rw [consumedDeposits, hbatch.depositCount, Nat.add_sub_cancel_left, hbatch.deposits]
    decide
  · exact not_proofsOfUsers _ ((credits_iff hbatch (executeTransition_input _ fits)).mp h)

open Redirected OneDeposit in
theorem deposit_commitment_iff_redirected :
    ((hashDeposits .sha3Crate [Redirected.deposit] = hashDeposits .sha3Crate [sample] →
        [Redirected.deposit] = [sample]) ↔
      ¬ ([Redirected.deposit] ≠ [sample] ∧
        List.Forall₂ SameItem [Redirected.deposit] [sample])) ∧
    ∃ s', (deposited .sha3Crate account Redirected.deposit).updateState
        (env .sha3Crate account Redirected.deposit)
        (publicValues .sha3Crate account Redirected.deposit) [] = some s' ∧
      (CreditsConsumed (deposited .sha3Crate account Redirected.deposit) s'
          (input .sha3Crate account Redirected.deposit) ↔
        ProofsOfUsers (input .sha3Crate account Redirected.deposit)) := by
  obtain ⟨s', -, hup, -⟩ := execAll_calls .sha3Crate fits (by decide)
  exact ⟨(deposit_commitment_iff .sha3Crate).1 _ _ injOn_depositsHashed, s', hup,
    (deposit_commitment_iff .sha3Crate).2 _ _ _ _ _ _ _ rfl (steps_deposited _) hup
      (guestMain_input _ fits) (injOn _ Redirected.digests_nodup rfl rfl)⟩

end TinyRollup
