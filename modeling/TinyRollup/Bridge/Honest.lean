import TinyRollup.Bridge.Queues
import TinyRollup.Sequencer.Fetch

/-!
# The commitments of an honest batch

A sequencer that takes the next entries of both queues, converts them as `fetch_new_deposits` and
`fetch_new_forced_txs` do and has the guest commit to the result, gives L1 what L1 computes itself.

The conversions lose nothing that is hashed: the entry that a converted item stands for is the entry
it was made of, `exists_converted`.  So the hash of the guest is the hash of the contract on the
same slice, also on the empty one, and what is left is to take the commitment apart again
(`slice_matches`).
-/

set_option autoImplicit false

namespace TinyRollup

open ByteString Word Stf Bridge

/-! ## The entry of a converted item -/

/-- The amount and the timestamp fit in 64 bits. -/
def L1Deposit.Fits (e : L1Deposit) : Prop := e.amount.toNat < 2 ^ 64 ∧ e.timestamp.toNat < 2 ^ 64

def ForcedTransaction.Fits (e : ForcedTransaction) : Prop := e.timestamp.toNat < 2 ^ 64

instance (e : L1Deposit) : Decidable e.Fits := inferInstanceAs (Decidable (_ ∧ _))

instance (e : ForcedTransaction) : Decidable e.Fits := inferInstanceAs (Decidable (_ < _))

theorem userAddress_addressToHash (addr : Address) : userAddress (addressToHash addr) = addr := by
  refine List.Vector.toList_injective ?_
  have hlen : (List.replicate 12 (0 : UInt8)).length = 12 := List.length_replicate ..
  exact List.drop_left' hlen

theorem ofNat_eq {x : U256} {y : UInt64} (h : y.toNat = x.toNat) :
    BitVec.ofNat 256 y.toNat = x := by
  rw [h, BitVec.ofNat_toNat, BitVec.setWidth_eq]

theorem exists_deposit {ε : Type} {e : L1Deposit} (h : e.Fits) :
    ∃ d, (toDeposit e : Run ε Deposit) = .ok d ∧ depositEntry d = e := by
  obtain ⟨d, hd⟩ := toDeposit_of_fits (ε := ε) h
  obtain ⟨-, hto, hamount, htime⟩ := toDeposit_eq_ok hd
  refine ⟨d, hd, ?_⟩
  rw [depositEntry, hto, userAddress_addressToHash, ofNat_eq hamount, ofNat_eq htime]

/-- Whether or not the calldata decodes. -/
theorem exists_forcedTx {ε : Type} (bincode : Bincode) {e : ForcedTransaction} (h : e.Fits) :
    ∃ tx, (toForcedTx bincode e : Run ε ForcedTx) = .ok tx ∧ forcedEntry tx = e := by
  obtain ⟨tx, htx⟩ := toForcedTx_of_fits (ε := ε) bincode h
  obtain ⟨-, htime, hdecoded⟩ := toForcedTx_eq_ok htx
  refine ⟨tx, htx, ?_⟩
  rw [forcedEntry, ofNat_eq htime, hdecoded, decodePosted_l2Calldata]

/-- The conversion of a slice: every item stands for the entry it was made of. -/
theorem exists_converted {ε α β : Type} {convert : α → Run ε β} {entry : β → α} {slice : List α}
    (h : ∀ e ∈ slice, ∃ x, convert e = .ok x ∧ entry x = e) :
    ∃ items, slice.mapM convert = .ok items ∧ items.map entry = slice := by
  induction slice with
  | nil => exact ⟨[], rfl, rfl⟩
  | cons e slice ih =>
    rw [List.forall_mem_cons] at h
    obtain ⟨⟨x, hx, hentry⟩, hrest⟩ := h
    obtain ⟨items, hitems, hentries⟩ := ih hrest
    refine ⟨x :: items, ?_, ?_⟩
    · rw [List.mapM_cons, hx, Run.ok_bind, hitems]
      rfl
    · rw [List.map_cons, hentry, hentries]

/-! ## What L1 makes of a commitment -/

/-- Taken apart by the contract, the commitment to `hash` and `n` gives `n` and the truncated hash,
and the contract computes the same hash of the `n` entries. -/
structure Matches (calculate : U256 → Option Hash) (hash : Hash) (n : ℕ) : Prop where
  count : (decodeCommitment (buildCommitment hash (UInt32.ofNat n))).1.toNat = n
  truncated : (decodeCommitment (buildCommitment hash (UInt32.ofNat n))).2 = truncate hash
  calculated : calculate (decodeCommitment (buildCommitment hash (UInt32.ofNat n))).1 = some hash

/-- One queue: the slice of `n` entries, and items that stand for them. -/
theorem slice_matches {α β : Type} (env : Deployment) (encode : α → Bytes) {queue : List α}
    {entry : β → α} {items : List β} {queueCount start : U256} {n : ℕ} {hash : Hash}
    (hq : QueueCounted queue queueCount start) (hn : n < 2 ^ 32)
    (hle : start.toNat + n ≤ queueCount.toNat)
    (hitems : items.map entry = (queue.drop start.toNat).take n)
    (hhash : hash = HashList.hashList env.crypto.keccak256 ((items.map entry).map encode)) :
    items.length = n ∧ Matches (calculateHash env queue queueCount encode start) hash n ∧
      ∃ next, checkedAdd start (decodeCommitment (buildCommitment hash (UInt32.ofNat n))).1
        = some next := by
  rw [hq.count] at hle
  have hlength : items.length = n := by
    have hlen := congrArg List.length hitems
    rw [List.length_map, List.length_take, List.length_drop] at hlen
    omega
  have hcount : (decodeCommitment (buildCommitment hash (UInt32.ofNat n))).1.toNat = n := by
    rw [toNat_count_buildCommitment, UInt32.toNat_ofNat', Nat.mod_eq_of_lt hn]
  obtain ⟨hcalculated, hnext⟩ := checks_of_slice env encode hq (hcount.trans hlength.symm)
    (hlength ▸ hitems.symm)
  have htruncated := ((truncate_eq_iff hash hash (UInt32.ofNat n)).mpr rfl).symm
  exact ⟨hlength, ⟨hcount, htruncated, hhash ▸ hcalculated⟩, hnext⟩

/-- What `getDeposits` and `getForcedTransactions` return on the next entries. -/
theorem readNext_of_le {α : Type} {queue : List α} {queueCount start : U256} {n : ℕ}
    (hq : QueueCounted queue queueCount start) (hn : n < 2 ^ 32)
    (hle : start.toNat + n ≤ queueCount.toNat) :
    ((checkedAdd start (BitVec.ofNat 256 n)).bind fun last ↦
      if last.toNat ≤ queueCount.toNat then readSlice queue start (BitVec.ofNat 256 n) else none)
        = some ((queue.drop start.toNat).take n) := by
  have hcount : (BitVec.ofNat 256 n).toNat = n := by
    rw [BitVec.toNat_ofNat, Nat.mod_eq_of_lt (hn.trans (by decide))]
  have hthere : start.toNat + (BitVec.ofNat 256 n).toNat ≤ queue.length := by
    rw [hcount, ← hq.count]
    exact hle
  rw [hq.readRange hthere, hcount]

/-- **L1 accepts the commitments of an honest batch.**  The next `n` deposits and `m` forced
transactions, converted by the sequencer, are hashed by the guest to what the contract computes for
them, and the contract takes the commitments apart into the counts and these hashes, so that
`updateState` goes through for every proof of a guest run on them. -/
theorem honest_commitments_match (env : Deployment) (bincode : Bincode) {root : Hash} {s : Bridge}
    (hreach : Steps env (init root) s) {n m : ℕ} (hn : n < 2 ^ 32) (hm : m < 2 ^ 32)
    (hdeposits : s.processedDepositCount.toNat + n ≤ s.depositCount.toNat)
    (hforcedTxs : s.processedForcedTxCount.toNat + m ≤ s.forcedTxCount.toNat)
    (hfitsd : ∀ e ∈ (s.pendingDeposits.drop s.processedDepositCount.toNat).take n, e.Fits)
    (hfitsf : ∀ e ∈ (s.forcedTransactions.drop s.processedForcedTxCount.toNat).take m, e.Fits) :
    ∃ depositsFromL1 forcedTxsFromL1 deposits forcedTxs,
      (s.getDeposits s.processedDepositCount (BitVec.ofNat 256 n) = some depositsFromL1 ∧
        (depositsFromL1.mapM toDeposit : Run Unit (List Deposit)) = .ok deposits) ∧
      (s.getForcedTransactions s.processedForcedTxCount (BitVec.ofNat 256 m)
          = some forcedTxsFromL1 ∧
        (forcedTxsFromL1.mapM (toForcedTx bincode) : Run Unit (List ForcedTx)) = .ok forcedTxs) ∧
      Matches (s.calculateDepositHash env s.processedDepositCount)
        (hashDeposits env.crypto deposits) n ∧
      Matches (s.calculateForcedTxHash env s.processedForcedTxCount)
        (hashForcedTxs env.crypto forcedTxs) m ∧
      ∀ (inp : TransitionInputs) (publicValues proofBytes : Bytes),
        inp.preStateRoot = s.stateRoot → inp.deposits = deposits → inp.forcedTxs = forcedTxs →
        guestMain env.crypto inp = .ok publicValues →
        env.verifyProof env.rollupProgramVKey publicValues proofBytes = true →
        ∃ s', s.updateState env publicValues proofBytes = some s' := by
  have hcounted := Steps.counted hreach (counted_init root)
  have hconvertd : ∀ e ∈ (s.pendingDeposits.drop s.processedDepositCount.toNat).take n,
      ∃ d, (toDeposit e : Run Unit Deposit) = .ok d ∧ depositEntry d = e :=
    fun e he ↦ exists_deposit (hfitsd e he)
  have hconvertf : ∀ e ∈ (s.forcedTransactions.drop s.processedForcedTxCount.toNat).take m,
      ∃ tx, (toForcedTx bincode e : Run Unit ForcedTx) = .ok tx ∧ forcedEntry tx = e :=
    fun e he ↦ exists_forcedTx bincode (hfitsf e he)
  obtain ⟨deposits, hds, hentriesd⟩ := exists_converted hconvertd
  obtain ⟨forcedTxs, hfs, hentriesf⟩ := exists_converted hconvertf
  have hhashd : hashDeposits env.crypto deposits
      = HashList.hashList env.crypto.keccak256 ((deposits.map depositEntry).map encodeDeposit) := by
    rw [map_encodeDeposit, hashDeposits_eq]
  have hhashf : hashForcedTxs env.crypto forcedTxs
      = HashList.hashList env.crypto.keccak256 ((forcedTxs.map forcedEntry).map encodeForced) := by
    rw [map_encodeForced, hashForcedTxs_eq]
  obtain ⟨hlend, hmatchd, p, hp⟩ :=
    slice_matches env encodeDeposit hcounted.deposits hn hdeposits hentriesd hhashd
  obtain ⟨hlenf, hmatchf, q, hq⟩ :=
    slice_matches env encodeForced hcounted.forcedTxs hm hforcedTxs hentriesf hhashf
  refine ⟨_, _, deposits, forcedTxs, ⟨readNext_of_le hcounted.deposits hn hdeposits, hds⟩,
    ⟨readNext_of_le hcounted.forcedTxs hm hforcedTxs, hfs⟩, hmatchd, hmatchf, ?_⟩
  rintro inp publicValues proofBytes hroot rfl rfl hguest hproof
  obtain ⟨postRoot, -, rfl⟩ := guestMain_eq_ok.mp hguest
  subst hlend hlenf
  exact ⟨_, updateState_of_checks (abiDecode_abiEncode _) hroot hmatchd.calculated
    hmatchf.calculated hmatchd.truncated.symm hmatchf.truncated.symm hproof hp hq⟩

open OneDeposit in
theorem honest_commitments_match_one_deposit :
    ∃ depositsFromL1 deposits,
      (deposited .sha3Crate (.new sample.to_) sample).getDeposits 0 1 = some depositsFromL1 ∧
      (depositsFromL1.mapM toDeposit : Run Unit (List Deposit)) = .ok deposits ∧
      Matches ((deposited .sha3Crate (.new sample.to_) sample).calculateDepositHash
        (env .sha3Crate (.new sample.to_) sample) 0) (hashDeposits .sha3Crate deposits) 1 := by
  have hreach : Steps (env .sha3Crate (.new sample.to_) sample)
      (init ((Account.new sample.to_).hash .sha3Crate))
      (deposited .sha3Crate (.new sample.to_) sample) :=
    .single (.deposit (exec_deposit .sha3Crate (by decide)))
  obtain ⟨depositsFromL1, -, deposits, -, ⟨hget, hconvert⟩, -, hmatches, -⟩ :=
    honest_commitments_match (n := 1) (m := 0) _ .v1 hreach (by decide) (by decide) (by decide)
      (by decide) (by decide) (by decide)
  exact ⟨depositsFromL1, deposits, hget, hconvert, hmatches⟩

end TinyRollup
