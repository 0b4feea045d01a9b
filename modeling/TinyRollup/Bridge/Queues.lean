import TinyRollup.Bridge.Steps

/-!
# The bridge consumes its queues exactly once and in order

A batch that `updateState` accepts was hashed twice: by the guest, over the lists of its input, and
by the contract, over the entries of its queues from the processed counters on.  The commitment
carries 28 bytes of the hash and four bytes of the number of entries; the guest casts the length of
its lists to `u32`.

* `Batch.of_updateState` — **one batch**: under collision freeness of the truncated hash the entries
  that the contract counts as processed are the entries of the guest's lists, however long these
  lists are.
* `queues_consumed_in_order` — **every run**: the lists of all accepted batches, one after the
  other, are the processed entries of the queues.
-/

set_option autoImplicit false

namespace TinyRollup

open ByteString Word Stf

/-! ## Entries of the queues and items of the guest -/

/-- The entry of the queue that a deposit of the guest stands for. -/
def depositEntry (d : Deposit) : L1Deposit where
  user := userAddress d.to_
  amount := BitVec.ofNat 256 d.amount.toNat
  timestamp := BitVec.ofNat 256 d.timestamp.toNat

/-- The entry of the queue that a forced transaction of the guest stands for. -/
def forcedEntry (tx : ForcedTx) : ForcedTransaction where
  data := tx.l2Calldata
  timestamp := BitVec.ofNat 256 tx.timestamp.toNat

namespace Bridge

theorem toNat_ofNat_uint64 (x : UInt64) : (BitVec.ofNat 256 x.toNat).toNat = x.toNat := by
  rw [BitVec.toNat_ofNat, Nat.mod_eq_of_lt (toNat_lt_uint256 x)]

theorem encodeDeposit_depositEntry (d : Deposit) :
    encodeDeposit (depositEntry d) = depositItem d := by
  rw [encodeDeposit, depositEntry, toNat_ofNat_uint64, toNat_ofNat_uint64]
  rfl

theorem encodeForced_forcedEntry (tx : ForcedTx) :
    encodeForced (forcedEntry tx) = forcedItem tx := by
  rw [encodeForced, forcedEntry, toNat_ofNat_uint64]
  rfl

theorem map_encodeDeposit (ds : List Deposit) :
    (ds.map depositEntry).map encodeDeposit = ds.map depositItem := by
  simp only [List.map_map, Function.comp_def, encodeDeposit_depositEntry]

theorem map_encodeForced (txs : List ForcedTx) :
    (txs.map forcedEntry).map encodeForced = txs.map forcedItem := by
  simp only [List.map_map, Function.comp_def, encodeForced_forcedEntry]

theorem uint_inj_word {x y : U256} (h : Abi.uint x.toNat = Abi.uint y.toNat) : x = y :=
  BitVec.toNat_inj.mp (Abi.uint_inj x.isLt y.isLt h)

theorem encodeDeposit_injective : Function.Injective encodeDeposit := by
  rintro ⟨user, amount, timestamp⟩ ⟨user', amount', timestamp'⟩ h
  have hwords : [Abi.address user, Abi.uint amount.toNat, Abi.uint timestamp.toNat]
      = [Abi.address user', Abi.uint amount'.toNat, Abi.uint timestamp'.toNat] :=
    Abi.encodeWords_inj h
  simp only [List.cons.injEq, and_true] at hwords
  obtain ⟨huser, hamount, htime⟩ := hwords
  rw [Abi.address_injective huser, uint_inj_word hamount, uint_inj_word htime]

theorem encodeForced_injective : Function.Injective encodeForced := by
  rintro ⟨data, timestamp⟩ ⟨data', timestamp'⟩ h
  obtain ⟨hdata, htime⟩ := Abi.encodeBytesWord_inj h
  rw [show data = data' from hdata, show timestamp = timestamp' from uint_inj_word htime]

/-! ## Public values and commitments -/

theorem readWord_words (l : List Hash) (i : ℕ) :
    readWord (l.map List.Vector.toList).flatten i = l[i]? := by
  induction l generalizing i with
  | nil => simp [readWord]
  | cons w l ih =>
    have hlen : w.toList.length = 32 := w.toList_length
    rw [List.map_cons, List.flatten_cons]
    cases i with
    | zero =>
      have hchunk : ((w.toList ++ (l.map List.Vector.toList).flatten).drop (32 * 0)).take 32
          = w.toList := by
        rw [Nat.mul_zero, List.drop_zero, List.take_left' hlen]
      simp only [readWord, hchunk, hlen, dif_pos]
      rfl
    | succ i =>
      have hdrop : (w.toList ++ (l.map List.Vector.toList).flatten).drop (32 * (i + 1))
          = ((l.map List.Vector.toList).flatten).drop (32 * i) := by
        rw [Nat.mul_add, Nat.add_comm, ← List.drop_drop, Nat.mul_one, List.drop_left' hlen]
      rw [List.getElem?_cons_succ, ← ih i]
      simp only [readWord, hdrop]

theorem abiDecode_abiEncode (pv : PublicValues) : abiDecode pv.abiEncode = some pv := by
  rw [PublicValues.abiEncode_eq, abiDecode]
  simp only [readWord_words]
  rfl

/-- The part of a digest that is compared. -/
def first28 (h : Hash) : Bytes := h.toList.take 28

theorem toNat_count_buildCommitment (h : Hash) (count : UInt32) :
    (decodeCommitment (buildCommitment h count)).1.toNat = count.toNat := by
  have hlen : (h.toList.take 28).length = 28 := by simp
  have hdrop : (buildCommitment h count).toList.drop 28 = beBytes 4 count.toNat :=
    List.drop_left' hlen
  rw [decodeCommitment, toNat_low, hdrop, beNat_beBytes]
  exact Nat.mod_eq_of_lt count.toNat_lt

theorem truncate_eq_iff (dh h : Hash) (count : UInt32) :
    truncate dh = (decodeCommitment (buildCommitment h count)).2 ↔ first28 dh = first28 h := by
  have hlen : (h.toList.take 28).length = 28 := by simp
  have htake : (buildCommitment h count).toList.take 28 = h.toList.take 28 := List.take_left' hlen
  rw [truncate, decodeCommitment, high_eq_iff, htake]
  exact Iff.rfl

/-! ## One batch -/

/-- One queue of a batch: the number of entries the contract counts is the length of the guest's
list, and the entries are those of the list. -/
theorem slice_eq_of_hash {α β : Type} {env : Deployment} {queue : List α} {encode : α → Bytes}
    {entry : β → α} {items : List β} {queueCount start count : U256} {h : Hash} {S : Set Bytes}
    (hencode : Function.Injective encode) (hq : QueueCounted queue queueCount start)
    (hh : calculateHash env queue queueCount encode start count = some h)
    (hcommit : first28 h
      = first28 (HashList.hashList env.crypto.keccak256 ((items.map entry).map encode)))
    (hcf : Set.InjOn (first28 ∘ env.crypto.keccak256) S)
    (hS : HashList.preimages env.crypto.keccak256 ((items.map entry).map encode) ⊆ S)
    (hS' : ∀ l, l <:+: queue → HashList.preimages env.crypto.keccak256 (l.map encode) ⊆ S) :
    count.toNat = items.length ∧
      (queue.drop start.toNat).take items.length = items.map entry := by
  obtain ⟨hle, rfl⟩ := calculateHash_spec hq.count (hq.count ▸ hq.processed) hh
  have hinfix : (queue.drop start.toNat).take count.toNat <:+: queue :=
    (List.take_prefix _ _).isInfix.trans (List.drop_suffix _ _).isInfix
  have hitems := HashList.hashList_inj _ hcf (hS' _ hinfix) hS hcommit
  have hslice : (queue.drop start.toNat).take count.toNat = items.map entry :=
    List.map_injective_iff.mpr hencode hitems
  have hcount : count.toNat = items.length := by
    have hlen := congrArg List.length hslice
    rw [List.length_take, List.length_drop, List.length_map] at hlen
    omega
  exact ⟨hcount, hcount ▸ hslice⟩

/-- What the guest and the contract hash for a batch. -/
def batchHashed (env : Deployment) (s : Bridge) (inp : TransitionInputs) : Set Bytes :=
  HashList.preimages env.crypto.keccak256 (inp.deposits.map depositItem) ∪
    HashList.preimages env.crypto.keccak256 (inp.forcedTxs.map forcedItem) ∪
    {b | ∃ l, l <:+: s.pendingDeposits ∧
      b ∈ HashList.preimages env.crypto.keccak256 (l.map encodeDeposit)} ∪
    {b | ∃ l, l <:+: s.forcedTransactions ∧
      b ∈ HashList.preimages env.crypto.keccak256 (l.map encodeForced)}

/-- Where the queues hold the items of two lists, and the guest was given slices of these, only
slices of them are hashed. -/
theorem batchHashed_subset {env : Deployment} {s : Bridge} {inp : TransitionInputs}
    {ds : List Deposit} {txs : List ForcedTx} {S : Set Bytes}
    (hpending : s.pendingDeposits = ds.map depositEntry)
    (hforced : s.forcedTransactions = txs.map forcedEntry)
    (hdeposits : inp.deposits <:+: ds) (htxs : inp.forcedTxs <:+: txs)
    (hSd : ∀ l, l <:+: ds → HashList.preimages env.crypto.keccak256 (l.map depositItem) ⊆ S)
    (hSf : ∀ l, l <:+: txs → HashList.preimages env.crypto.keccak256 (l.map forcedItem) ⊆ S) :
    batchHashed env s inp ⊆ S := by
  rintro b (((hb | hb) | ⟨l, hl, hb⟩) | ⟨l, hl, hb⟩)
  · exact hSd _ hdeposits hb
  · exact hSf _ htxs hb
  · rw [hpending] at hl
    obtain ⟨l, hl', rfl⟩ := List.infix_map_iff.mp hl
    rw [map_encodeDeposit] at hb
    exact hSd l hl' hb
  · rw [hforced] at hl
    obtain ⟨l, hl', rfl⟩ := List.infix_map_iff.mp hl
    rw [map_encodeForced] at hb
    exact hSf l hl' hb

/-- The batch of a guest run takes the contract from `s` to `s'`. -/
structure Batch (s s' : Bridge) (inp : TransitionInputs) : Prop where
  preStateRoot : inp.preStateRoot = s.stateRoot
  deposits : (s.pendingDeposits.drop s.processedDepositCount.toNat).take inp.deposits.length
    = inp.deposits.map depositEntry
  forcedTxs : (s.forcedTransactions.drop s.processedForcedTxCount.toNat).take inp.forcedTxs.length
    = inp.forcedTxs.map forcedEntry
  depositCount : s'.processedDepositCount.toNat
    = s.processedDepositCount.toNat + inp.deposits.length
  forcedTxCount : s'.processedForcedTxCount.toNat
    = s.processedForcedTxCount.toNat + inp.forcedTxs.length
  pendingDeposits : s'.pendingDeposits = s.pendingDeposits
  forcedTransactions : s'.forcedTransactions = s.forcedTransactions

/-- **One batch**: what `updateState` accepts of a guest run is what the guest was given. -/
theorem Batch.of_updateState {env : Deployment} {s s' : Bridge} {inp : TransitionInputs}
    {publicValues proofBytes : Bytes} {S : Set Bytes} (hs : s.Counted)
    (h : s.updateState env publicValues proofBytes = some s')
    (hguest : guestMain env.crypto inp = .ok publicValues)
    (hcf : Set.InjOn (first28 ∘ env.crypto.keccak256) S) (hS : batchHashed env s inp ⊆ S) :
    Batch s s' inp := by
  simp only [batchHashed, Set.union_subset_iff, and_assoc] at hS
  obtain ⟨hSd, hSf, hSqd, hSqf⟩ := hS
  obtain ⟨root, -, rfl⟩ := guestMain_eq_ok.mp hguest
  obtain ⟨pv, dh, fh, hpv, hroot, hdh, hfh, htd, htf, -, p, q, hp, hq, rfl⟩ :=
    updateState_eq_some h
  rw [abiDecode_abiEncode, Option.some_inj] at hpv
  subst hpv
  rw [truncate_eq_iff, hashDeposits_eq] at htd
  rw [truncate_eq_iff, hashForcedTxs_eq] at htf
  rw [← map_encodeDeposit] at htd hSd
  rw [← map_encodeForced] at htf hSf
  obtain ⟨hcountd, hsliced⟩ := slice_eq_of_hash encodeDeposit_injective hs.deposits hdh htd hcf hSd
    fun l hl b hb ↦ hSqd ⟨l, hl, hb⟩
  obtain ⟨hcountf, hslicef⟩ := slice_eq_of_hash encodeForced_injective hs.forcedTxs hfh htf hcf hSf
    fun l hl b hb ↦ hSqf ⟨l, hl, hb⟩
  exact
    { preStateRoot := hroot
      deposits := hsliced
      forcedTxs := hslicef
      depositCount := by rw [toNat_of_checkedAdd hp, hcountd]
      forcedTxCount := by rw [toNat_of_checkedAdd hq, hcountf]
      pendingDeposits := rfl
      forcedTransactions := rfl }

/-- One queue of a matching batch passes its checks. -/
theorem checks_of_slice {α β : Type} (env : Deployment) (encode : α → Bytes) {queue : List α}
    {entry : β → α} {items : List β} {queueCount start count : U256}
    (hq : QueueCounted queue queueCount start) (hcount : count.toNat = items.length)
    (h : (queue.drop start.toNat).take items.length = items.map entry) :
    calculateHash env queue queueCount encode start count
        = some (HashList.hashList env.crypto.keccak256 ((items.map entry).map encode)) ∧
      ∃ next, checkedAdd start count = some next := by
  have hstart := hq.count ▸ hq.processed
  have hle : start.toNat + count.toNat ≤ queue.length := by
    have hlen := congrArg List.length h
    rw [List.length_take, List.length_drop, List.length_map] at hlen
    omega
  have hlt : start.toNat + count.toNat < 2 ^ 256 :=
    Nat.lt_of_le_of_lt (hle.trans hq.length) (by decide)
  refine ⟨?_, _, checkedAdd_eq_some.mpr ⟨hlt, rfl⟩⟩
  rw [calculateHash_of_le hq.count hle, hcount, h]

/-- **A matching batch is accepted**: if the guest was given the next entries of both queues, and
fewer than `2 ^ 32` of each, then `updateState` accepts its public values. -/
theorem updateState_of_slices (env : Deployment) (s : Bridge) (proofBytes : Bytes)
    {inp : TransitionInputs} {root : Hash} {publicValues : Bytes} (hs : s.Counted)
    (hrun : executeTransition env.crypto inp
      = .ok (root, hashDeposits env.crypto inp.deposits, hashForcedTxs env.crypto inp.forcedTxs))
    (hguest : guestMain env.crypto inp = .ok publicValues)
    (hproof : env.verifyProof env.rollupProgramVKey publicValues proofBytes = true)
    (hroot : inp.preStateRoot = s.stateRoot)
    (hlend : inp.deposits.length < 2 ^ 32) (hlenf : inp.forcedTxs.length < 2 ^ 32)
    (hd : (s.pendingDeposits.drop s.processedDepositCount.toNat).take inp.deposits.length
      = inp.deposits.map depositEntry)
    (hf : (s.forcedTransactions.drop s.processedForcedTxCount.toNat).take inp.forcedTxs.length
      = inp.forcedTxs.map forcedEntry) :
    ∃ s', s.updateState env publicValues proofBytes = some s' ∧
      s'.accepted = s.accepted ++ [publicValues] ∧ s'.stateRoot = root ∧
      s'.pendingDeposits = s.pendingDeposits ∧ s'.forcedTransactions = s.forcedTransactions := by
  obtain ⟨root', hrun', rfl⟩ := guestMain_eq_ok.mp hguest
  obtain rfl : root = root' := by
    rw [hrun, Except.ok.injEq, Prod.mk.injEq] at hrun'
    exact hrun'.1
  have hcount : ∀ {n : ℕ}, n < 2 ^ 32 → (UInt32.ofNat n).toNat = n := fun h ↦ by
    rw [UInt32.toNat_ofNat', Nat.mod_eq_of_lt h]
  have hcd := (toNat_count_buildCommitment (hashDeposits env.crypto inp.deposits)
    (UInt32.ofNat inp.deposits.length)).trans (hcount hlend)
  have hcf := (toNat_count_buildCommitment (hashForcedTxs env.crypto inp.forcedTxs)
    (UInt32.ofNat inp.forcedTxs.length)).trans (hcount hlenf)
  obtain ⟨hdh, p, hp⟩ := checks_of_slice env encodeDeposit hs.deposits hcd hd
  obtain ⟨hfh, q, hq⟩ := checks_of_slice env encodeForced hs.forcedTxs hcf hf
  rw [map_encodeDeposit, ← hashDeposits_eq] at hdh
  rw [map_encodeForced, ← hashForcedTxs_eq] at hfh
  exact ⟨_, updateState_of_checks (abiDecode_abiEncode _) hroot hdh hfh
    ((truncate_eq_iff _ _ _).mpr rfl) ((truncate_eq_iff _ _ _).mpr rfl) hproof hp hq,
    rfl, rfl, rfl, rfl⟩

/-! ## Every run -/

section Run

variable (env : Deployment) (runOf : Bytes → TransitionInputs)

/-- Every string hashed for the batches of a run of the contract that ends in `s`: by the guest runs
behind them, and by the contract over slices of its queues. -/
def hashed (s : Bridge) : Set Bytes :=
  {b | ∃ publicValues ∈ s.accepted, b ∈ batchHashed env s (runOf publicValues)}

/-- The deposits that the guest runs behind the accepted batches hashed. -/
def hashedDeposits (s : Bridge) : List L1Deposit :=
  s.accepted.flatMap fun publicValues ↦ (runOf publicValues).deposits.map depositEntry

/-- The forced transactions that the guest runs behind the accepted batches hashed. -/
def hashedForcedTxs (s : Bridge) : List ForcedTransaction :=
  s.accepted.flatMap fun publicValues ↦ (runOf publicValues).forcedTxs.map forcedEntry

/-- The processed entries are those of the accepted batches. -/
structure Consumed (s : Bridge) : Prop where
  deposits : hashedDeposits runOf s = s.pendingDeposits.take s.processedDepositCount.toNat
  forcedTxs : hashedForcedTxs runOf s
    = s.forcedTransactions.take s.processedForcedTxCount.toNat

variable {env runOf} {s s' : Bridge}

theorem batchHashed_mono (h : Extends s s') (inp : TransitionInputs) :
    batchHashed env s inp ⊆ batchHashed env s' inp := by
  refine Set.union_subset_union (Set.union_subset_union_right _ ?_) ?_
  · rintro b ⟨l, hl, hb⟩
    exact ⟨l, hl.trans h.deposits.isInfix, hb⟩
  · rintro b ⟨l, hl, hb⟩
    exact ⟨l, hl.trans h.forcedTxs.isInfix, hb⟩

theorem hashed_mono (h : Extends s s') : hashed env runOf s ⊆ hashed env runOf s' := by
  rintro b ⟨publicValues, hmem, hb⟩
  exact ⟨publicValues, h.accepted.subset hmem, batchHashed_mono h _ hb⟩

/-- Taking from a queue that has grown. -/
theorem take_eq_take {α : Type} {l l' : List α} (h : l <+: l') {n : ℕ} (hn : n ≤ l.length) :
    l'.take n = l.take n := by
  obtain ⟨m, rfl⟩ := h
  exact List.take_append_of_le_length hn

/-- One step keeps the processed entries those of the accepted batches. -/
theorem Step.consumed
    (hsound : ∀ publicValues proofBytes,
      env.verifyProof env.rollupProgramVKey publicValues proofBytes = true →
        guestMain env.crypto (runOf publicValues) = .ok publicValues)
    (h : Step env s s') (hs : s.Counted)
    (hcf : Set.InjOn (first28 ∘ env.crypto.keccak256) (hashed env runOf s'))
    (hconsumed : Consumed runOf s) : Consumed runOf s' := by
  have hext := h.extends
  have hled := hs.deposits.count ▸ hs.deposits.processed
  have hlef := hs.forcedTxs.count ▸ hs.forcedTxs.processed
  cases h with
  | deposit h =>
    obtain ⟨-, rfl⟩ := deposit_eq_some.mp h
    exact ⟨hconsumed.deposits.trans (take_eq_take hext.deposits hled).symm, hconsumed.forcedTxs⟩
  | forceTransaction h =>
    obtain ⟨-, rfl⟩ := forceTransaction_eq_some.mp h
    exact ⟨hconsumed.deposits, hconsumed.forcedTxs.trans (take_eq_take hext.forcedTxs hlef).symm⟩
  | @updateState publicValues proofBytes h =>
    obtain ⟨pv, -, -, -, -, -, -, -, -, hproof, p, q, -, -, hs'⟩ := updateState_eq_some h
    have haccepted : s'.accepted = s.accepted ++ [publicValues] := by rw [hs']
    have hbatch : Batch s s' (runOf publicValues) :=
      Batch.of_updateState hs h (hsound _ _ hproof) hcf fun b hb ↦
        ⟨publicValues, by simp [haccepted], batchHashed_mono hext _ hb⟩
    constructor
    · rw [hashedDeposits, haccepted, List.flatMap_append, List.flatMap_singleton,
        ← hbatch.deposits, hbatch.depositCount, hbatch.pendingDeposits, List.take_add,
        ← hconsumed.deposits]
      rfl
    · rw [hashedForcedTxs, haccepted, List.flatMap_append, List.flatMap_singleton,
        ← hbatch.forcedTxs, hbatch.forcedTxCount, hbatch.forcedTransactions, List.take_add,
        ← hconsumed.forcedTxs]
      rfl
  | beginWithdraw h =>
    obtain ⟨_, rfl⟩ := beginWithdraw_eq_some h
    exact ⟨hconsumed.deposits, hconsumed.forcedTxs⟩

theorem Steps.consumed
    (hsound : ∀ publicValues proofBytes,
      env.verifyProof env.rollupProgramVKey publicValues proofBytes = true →
        guestMain env.crypto (runOf publicValues) = .ok publicValues)
    (h : Steps env s s') (hs : s.Counted) (hconsumed : Consumed runOf s)
    (hcf : Set.InjOn (first28 ∘ env.crypto.keccak256) (hashed env runOf s')) :
    Consumed runOf s' := by
  induction h with
  | refl => exact hconsumed
  | tail hsteps hstep ih =>
    have hmid := ih (hcf.mono (hashed_mono hstep.extends))
    exact hstep.consumed hsound (Steps.counted hsteps hs) hcf hmid

end Run

/-- **L1 consumes its queues exactly once and in order.**  In every state of the contract that any
calls lead to, the counters fit the queues; the entries hashed by the guest runs behind the
accepted batches, one batch after the other, are exactly the processed entries; and whatever is
called later only appends to the queues. -/
theorem queues_consumed_in_order (env : Deployment) (runOf : Bytes → TransitionInputs)
    (hsound : ∀ publicValues proofBytes,
      env.verifyProof env.rollupProgramVKey publicValues proofBytes = true →
        guestMain env.crypto (runOf publicValues) = .ok publicValues)
    (root : Hash) (calls : List Call)
    (hcf : Set.InjOn (first28 ∘ env.crypto.keccak256)
      (hashed env runOf (execAll env calls (init root)))) :
    let s := execAll env calls (init root)
    (s.depositCount.toNat = s.pendingDeposits.length ∧
      s.processedDepositCount.toNat ≤ s.depositCount.toNat ∧
      s.forcedTxCount.toNat = s.forcedTransactions.length ∧
      s.processedForcedTxCount.toNat ≤ s.forcedTxCount.toNat) ∧
    (hashedDeposits runOf s = s.pendingDeposits.take s.processedDepositCount.toNat ∧
      hashedForcedTxs runOf s = s.forcedTransactions.take s.processedForcedTxCount.toNat) ∧
    ∀ more : List Call,
      s.pendingDeposits <+: (execAll env more s).pendingDeposits ∧
        s.forcedTransactions <+: (execAll env more s).forcedTransactions := by
  intro s
  have hsteps : Steps env (init root) s := execAll_steps env calls _
  have hcounted := Steps.counted hsteps (counted_init root)
  have hconsumed : Consumed runOf s :=
    Steps.consumed hsound hsteps (counted_init root) ⟨rfl, rfl⟩ hcf
  refine ⟨⟨hcounted.deposits.count, hcounted.deposits.processed, hcounted.forcedTxs.count,
    hcounted.forcedTxs.processed⟩, ⟨hconsumed.deposits, hconsumed.forcedTxs⟩, fun more ↦ ?_⟩
  have hext := Steps.extends (execAll_steps env more s)
  exact ⟨hext.deposits, hext.forcedTxs⟩

/-! ## One deposit and the batch that processes it -/

namespace OneDeposit

variable (c : Crypto) (a : Account) (d : Deposit)

/-- The guest is given the proof of `a`, the only account of the tree, for the deposit `d`. -/
def input : TransitionInputs where
  preStateRoot := a.hash c
  txs := []
  deposits := [d]
  forcedTxs := []
  proofsDeposits := [{ account := a, siblings := [] }]
  proofsForcedFrom := []
  proofsForcedTo := []
  proofsTxsFrom := []
  proofsTxsTo := []

theorem input_preStateRoot : (input c a d).preStateRoot = a.hash c := rfl

def publicValues : Bytes :=
  PublicValues.abiEncode
    { preStateRoot := a.hash c
      postStateRoot := (credited a d.amount).hash c
      depositsCommitment := buildCommitment (hashDeposits c [d]) 1
      forcedTxsCommitment := buildCommitment (hashForcedTxs c []) 0 }

/-- A verifier that accepts the public values of this run and no others. -/
def env : Deployment where
  crypto := c
  verifyProof := fun _ pv _ ↦ pv == publicValues c a d
  rollupProgramVKey := Hash.default
  merkleVerify := fun _ _ _ ↦ false

/-- The call of `deposit` that `d` stands for. -/
def depositMsg : Msg where
  sender := userAddress d.to_
  value := BitVec.ofNat 256 d.amount.toNat
  timestamp := BitVec.ofNat 256 d.timestamp.toNat

def calls : List Call := [.deposit (depositMsg d), .updateState (publicValues c a d) []]

/-- The contract after the deposit. -/
def deposited : Bridge :=
  { init (a.hash c) with pendingDeposits := [depositEntry d], depositCount := 1 }

variable {a d}

theorem executeTransition_input (hfits : UInt64.Fits (a.balance.toNat + d.amount.toNat)) :
    executeTransition c (input c a d)
      = .ok ((credited a d.amount).hash c, hashDeposits c [d], hashForcedTxs c []) := by
  have hv : MerkleProof.verify c ⟨a, []⟩ (a.hash c) = true := (verify_iff _ _ _).mpr rfl
  have hd : applyDeposit a d = .ok (credited a d.amount) := applyDeposit_eq_ok_iff.mpr ⟨hfits, rfl⟩
  have hstep : depositStep c (input c a d).proofsDeposits (input c a d).preStateRoot (d, 0)
      = .ok ((credited a d.amount).hash c) :=
    depositStep_eq_ok.mpr ⟨⟨a, []⟩, _, rfl, hv, hd, rfl⟩
  exact executeTransition_eq_ok.mpr
    ⟨rfl, rfl, _, _, Run.foldlM_cons_eq_ok.mpr ⟨_, hstep, rfl⟩, rfl, rfl⟩

theorem guestMain_input (hfits : UInt64.Fits (a.balance.toNat + d.amount.toNat)) :
    guestMain c (input c a d) = .ok (publicValues c a d) :=
  guestMain_eq_ok.mpr ⟨_, executeTransition_input c hfits, rfl⟩

theorem exec_deposit (hpos : 0 < d.amount.toNat) :
    exec (env c a d) (.deposit (depositMsg d)) (init (a.hash c)) = some (deposited c a d) := by
  refine deposit_eq_some.mpr ⟨⟨?_, show 0 < maxArrayLength by decide⟩, rfl⟩
  rw [depositMsg, toNat_ofNat_uint64]
  exact hpos

/-- The bridge accepts the batch, whatever account the guest was given. -/
theorem execAll_calls (hfits : UInt64.Fits (a.balance.toNat + d.amount.toNat))
    (hpos : 0 < d.amount.toNat) :
    ∃ s, execAll (env c a d) (calls c a d) (init (a.hash c)) = s ∧
      (deposited c a d).updateState (env c a d) (publicValues c a d) [] = some s ∧
      s.accepted = [publicValues c a d] ∧ s.pendingDeposits = [depositEntry d] ∧
      s.forcedTransactions = [] := by
  have hcounted : (deposited c a d).Counted :=
    Step.counted (.deposit (exec_deposit c hpos) : Step (env c a d) _ _) (counted_init _)
  obtain ⟨s, hs, haccepted, -, hpending, hforced⟩ :=
    updateState_of_slices (env c a d) (deposited c a d) [] hcounted
      (executeTransition_input c hfits) (guestMain_input c hfits) (beq_self_eq_true _) rfl
      (show 1 < 2 ^ 32 by decide) (show 0 < 2 ^ 32 by decide) rfl rfl
  refine ⟨s, ?_, hs, haccepted, hpending, hforced⟩
  have hupdate : exec (env c a d) (.updateState (publicValues c a d) []) (deposited c a d)
      = some s := hs
  rw [calls, execAll, exec_deposit c hpos, Option.getD_some, execAll, hupdate, Option.getD_some,
    execAll]

variable (d)

/-- The strings hashed for the batch. -/
def strings : List Bytes := [[], depositItem d, HashList.digests c.keccak256 [depositItem d]]

variable {d}

theorem preimages_subset_strings {l : List Deposit} (hl : l <:+: [d]) :
    HashList.preimages c.keccak256 (l.map depositItem) ⊆ {b | b ∈ strings c d} :=
  HashList.preimages_of_infix_singleton c.keccak256 hl

theorem mem_strings {s : Bridge} (hpending : s.pendingDeposits = [d].map depositEntry)
    (hforced : s.forcedTransactions = [].map forcedEntry) :
    ∀ b ∈ batchHashed (env c a d) s (input c a d), b ∈ strings c d := by
  refine batchHashed_subset hpending hforced List.infix_rfl List.infix_rfl
    (fun l hl ↦ preimages_subset_strings c hl) fun l hl ↦ ?_
  rw [List.infix_nil.mp hl]
  exact preimages_subset_strings c List.nil_infix

theorem injOn {s : Bridge} (hnd : ((strings c d).map (first28 ∘ c.keccak256)).Nodup)
    (hpending : s.pendingDeposits = [depositEntry d]) (hforced : s.forcedTransactions = []) :
    Set.InjOn (first28 ∘ c.keccak256) (batchHashed (env c a d) s (input c a d)) :=
  fun _ hb _ hb' h ↦ List.inj_on_of_nodup_map hnd (mem_strings c hpending hforced _ hb)
    (mem_strings c hpending hforced _ hb') h

/-- A deposit to the address 1. -/
def sample : Deposit := { to_ := Hash.ofByte 1, amount := 5, timestamp := 7 }

set_option maxRecDepth 10000 in
theorem digests_nodup :
    ((strings .sha3Crate sample).map (first28 ∘ Crypto.keccak256 .sha3Crate)).Nodup := by
  decide +kernel

end OneDeposit

/-! ## Two deposits in two batches -/

namespace TwoBatches

open OneDeposit (input input_preStateRoot publicValues depositMsg executeTransition_input
  guestMain_input)

abbrev c : Crypto := Crypto.sha3Crate

def account : Account := .new (Hash.ofByte 1)

def first : Deposit := { to_ := account.id, amount := 5, timestamp := 7 }

def second : Deposit := { to_ := account.id, amount := 9, timestamp := 8 }

def account₁ : Account := credited account first.amount

def values₁ : Bytes := publicValues c account first

def values₂ : Bytes := publicValues c account₁ second

/-- A verifier that accepts the public values of these two runs. -/
def env : Deployment where
  crypto := c
  verifyProof := fun _ pv _ ↦ pv == values₁ || pv == values₂
  rollupProgramVKey := Hash.default
  merkleVerify := fun _ _ _ ↦ false

def runOf (pv : Bytes) : TransitionInputs :=
  if pv = values₁ then input c account first else input c account₁ second

def calls : List Call :=
  [.deposit (depositMsg first), .deposit (depositMsg second)] ++
    [.updateState values₁ [], .updateState values₂ []]

/-- The contract after the deposits. -/
def deposited : Bridge :=
  { init (account.hash c) with
    pendingDeposits := [depositEntry first, depositEntry second]
    depositCount := 2 }

theorem execAll_deposits : execAll env
    [.deposit (depositMsg first), .deposit (depositMsg second)] (init (account.hash c))
      = deposited := rfl

theorem fits : UInt64.Fits (account.balance.toNat + first.amount.toNat) := by decide

theorem fits₁ : UInt64.Fits (account₁.balance.toNat + second.amount.toNat) := by decide

set_option maxRecDepth 10000 in
theorem hash_ne : account₁.hash c ≠ account.hash c := by decide +kernel

theorem runOf_values₁ : runOf values₁ = input c account first := if_pos rfl

theorem runOf_values₂ : runOf values₂ = input c account₁ second := by
  refine if_neg fun h ↦ hash_ne ?_
  exact congrArg PublicValues.preStateRoot (PublicValues.abiEncode_injective h)

theorem sound (publicValues proofBytes : Bytes)
    (h : env.verifyProof env.rollupProgramVKey publicValues proofBytes = true) :
    guestMain c (runOf publicValues) = .ok publicValues := by
  have hvalues : publicValues = values₁ ∨ publicValues = values₂ := by simpa [env] using h
  rcases hvalues with rfl | rfl
  · rw [runOf_values₁]
    exact guestMain_input c fits
  · rw [runOf_values₂]
    exact guestMain_input c fits₁

/-- The strings hashed for the batches. -/
def strings : List Bytes :=
  [[], depositItem first, depositItem second,
    HashList.digests c.keccak256 [depositItem first],
    HashList.digests c.keccak256 [depositItem second],
    HashList.digests c.keccak256 [depositItem first, depositItem second]]

set_option maxRecDepth 10000 in
theorem digests_nodup : (strings.map (first28 ∘ c.keccak256)).Nodup := by decide +kernel

theorem injOn_strings : Set.InjOn (first28 ∘ c.keccak256) {b | b ∈ strings} :=
  fun _ hb _ hb' h ↦ List.inj_on_of_nodup_map digests_nodup hb hb' h

theorem eq_of_infix {α : Type} {x y : α} {l : List α} (h : l <:+: [x, y]) :
    l = [] ∨ l = [x] ∨ l = [y] ∨ l = [x, y] := by
  simp only [List.infix_cons_iff, List.prefix_cons_iff, List.prefix_nil, List.infix_nil] at h
  grind

theorem preimages_subset {l : List Deposit} (h : l <:+: [first, second]) :
    HashList.preimages c.keccak256 (l.map depositItem) ⊆ {b | b ∈ strings} := by
  rintro b (rfl | hb)
  · rcases eq_of_infix h with rfl | rfl | rfl | rfl <;> simp [strings, HashList.digests]
  · obtain ⟨d, hd, rfl⟩ := List.mem_map.mp hb
    have hmem : d = first ∨ d = second := by simpa using h.subset hd
    rcases hmem with rfl | rfl <;> simp [strings]

/-- Whatever batch of these deposits the guest is given. -/
theorem batchHashed_strings {s : Bridge} {inp : TransitionInputs}
    (hpending : s.pendingDeposits = [first, second].map depositEntry)
    (hforced : s.forcedTransactions = [].map forcedEntry)
    (hdeposits : inp.deposits <:+: [first, second]) (htxs : inp.forcedTxs = []) :
    batchHashed env s inp ⊆ {b | b ∈ strings} := by
  refine batchHashed_subset hpending hforced hdeposits (htxs ▸ List.infix_rfl)
    (fun l hl ↦ preimages_subset hl) fun l hl ↦ ?_
  rw [List.infix_nil.mp hl]
  exact preimages_subset List.nil_infix

/-- Both batches are accepted, and only then are both deposits processed. -/
theorem exists_final : ∃ s, execAll env calls (init (account.hash c)) = s ∧
    s.accepted = [values₁, values₂] ∧ s.pendingDeposits = [first, second].map depositEntry ∧
      s.forcedTransactions = [] ∧ s.processedDepositCount.toNat = 2 := by
  have hcounted : deposited.Counted :=
    Steps.counted (execAll_deposits ▸ execAll_steps env _ _) (counted_init _)
  have hfirst : (deposited.pendingDeposits.drop deposited.processedDepositCount.toNat).take 1
      = [first].map depositEntry := rfl
  obtain ⟨s₁, hs₁, haccepted₁, hroot₁, hpending₁, hforced₁⟩ :=
    updateState_of_slices env deposited [] hcounted (executeTransition_input c fits)
      (guestMain_input c fits) (by simp [env, values₁]) rfl (show 1 < 2 ^ 32 by decide)
      (show 0 < 2 ^ 32 by decide) hfirst rfl
  have hbatch₁ : Batch deposited s₁ (input c account first) :=
    Batch.of_updateState hcounted hs₁ (guestMain_input c fits) injOn_strings
      (batchHashed_strings rfl rfl ⟨[], [second], rfl⟩ rfl)
  have hstep₁ : Step env deposited s₁ := .updateState hs₁
  have hcounted₁ : s₁.Counted := hstep₁.counted hcounted
  have hprocessed₁ : s₁.processedDepositCount.toNat = 1 := hbatch₁.depositCount
  have hsecond : (s₁.pendingDeposits.drop s₁.processedDepositCount.toNat).take 1
      = [second].map depositEntry := by
    rw [hpending₁, hprocessed₁]
    rfl
  have hpre : (input c account₁ second).preStateRoot = s₁.stateRoot := by
    rw [input_preStateRoot, hroot₁, account₁]
  have hnone : (s₁.forcedTransactions.drop s₁.processedForcedTxCount.toNat).take 0
      = ([] : List ForcedTx).map forcedEntry := rfl
  obtain ⟨s₂, hs₂, haccepted₂, -, hpending₂, hforced₂⟩ :=
    updateState_of_slices env s₁ [] hcounted₁ (executeTransition_input c fits₁)
      (guestMain_input c fits₁) (by simp [env, values₂]) hpre (show 1 < 2 ^ 32 by decide)
      (show 0 < 2 ^ 32 by decide) hsecond hnone
  have hbatch₂ : Batch s₁ s₂ (input c account₁ second) :=
    Batch.of_updateState hcounted₁ hs₂ (guestMain_input c fits₁) injOn_strings
      (batchHashed_strings hpending₁ hforced₁ ⟨[first], [], rfl⟩ rfl)
  have hupdate₁ : exec env (.updateState values₁ []) deposited = some s₁ := hs₁
  have hupdate₂ : exec env (.updateState values₂ []) s₁ = some s₂ := hs₂
  refine ⟨s₂, ?_, ?_, hpending₂.trans hpending₁, hforced₂.trans hforced₁, ?_⟩
  · rw [calls, execAll_append, execAll_deposits, execAll, hupdate₁, Option.getD_some, execAll,
      hupdate₂, Option.getD_some, execAll]
  · rw [haccepted₂, haccepted₁]
    rfl
  · rw [hbatch₂.depositCount, hprocessed₁]
    rfl

end TwoBatches

open TwoBatches in
/-- The first batch takes the first deposit, and the second batch the second one. -/
theorem two_batches_consumed : ∃ s, execAll env calls (init (account.hash c)) = s ∧
    s.accepted = [values₁, values₂] ∧
      hashedDeposits runOf s = s.pendingDeposits.take s.processedDepositCount.toNat ∧
      s.processedDepositCount.toNat = 2 := by
  obtain ⟨s, hs, haccepted, hpending, hforced, hprocessed⟩ := exists_final
  have hcf : Set.InjOn (first28 ∘ env.crypto.keccak256)
      (hashed env runOf (execAll env calls (init (account.hash c)))) := by
    rw [hs]
    refine injOn_strings.mono ?_
    rintro b ⟨publicValues, hmem, hb⟩
    rw [haccepted, List.mem_pair] at hmem
    rcases hmem with rfl | rfl
    · rw [runOf_values₁] at hb
      exact batchHashed_strings hpending hforced ⟨[], [second], rfl⟩ rfl hb
    · rw [runOf_values₂] at hb
      exact batchHashed_strings hpending hforced ⟨[first], [], rfl⟩ rfl hb
  have h := queues_consumed_in_order env runOf sound _ _ hcf
  rw [hs] at h
  exact ⟨s, hs, haccepted, h.2.1.1, hprocessed⟩

end Bridge

end TinyRollup
