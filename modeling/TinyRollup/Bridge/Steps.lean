import TinyRollup.Bridge.Contract

/-!
# What a call of the bridge does

Every call, with whatever it triggers at the receiver of a withdrawal, is a sequence of `Step`s:
a deposit, a forced transaction, an accepted batch, or the first half of a withdrawal
(`execAll_steps`).  An invariant of the contract therefore only has to be checked for these four.

`Counted` is the invariant that ties the counters to the queues, and `updateState_eq_some` and
`calculateHash_spec` say what an accepted batch has gone through.
-/

set_option autoImplicit false

namespace TinyRollup

open ByteString Word Stf

namespace Bridge

/-- One change of the state of the contract. -/
inductive Step (env : Deployment) : Bridge → Bridge → Prop
  | deposit {s s' : Bridge} {msg : Msg} (h : s.deposit msg = some s') : Step env s s'
  | forceTransaction {s s' : Bridge} {msg : Msg} {l2TxData : Bytes}
      (h : s.forceTransaction msg l2TxData = some s') : Step env s s'
  | updateState {s s' : Bridge} {publicValues proofBytes : Bytes}
      (h : s.updateState env publicValues proofBytes = some s') : Step env s s'
  | beginWithdraw {s s' : Bridge} {msg : Msg} {amount : U256} {nonce : UInt64}
      {merkleProof : List Hash}
      (h : s.beginWithdraw env msg amount nonce merkleProof = some s') : Step env s s'

/-- Any number of changes. -/
abbrev Steps (env : Deployment) : Bridge → Bridge → Prop := Relation.ReflTransGen (Step env)

mutual

theorem exec_steps (env : Deployment) : ∀ (call : Call) (s s' : Bridge),
    exec env call s = some s' → Steps env s s'
  | .deposit _, _, _, h => .single (.deposit h)
  | .forceTransaction _ _, _, _, h => .single (.forceTransaction h)
  | .updateState _ _, _, _, h => .single (.updateState h)
  | .withdraw msg amount nonce merkleProof receiver success, s, s', h => by
    rw [exec] at h
    split at h
    · exact absurd h (by simp)
    · rename_i mid hmid
      split at h
      · rw [← Option.some_inj.mp h]
        exact .head (.beginWithdraw hmid) (execAll_steps env receiver mid)
      · exact absurd h (by simp)

/-- **Every run is a sequence of steps.** -/
theorem execAll_steps (env : Deployment) : ∀ (calls : List Call) (s : Bridge),
    Steps env s (execAll env calls s)
  | [], _ => .refl
  | call :: calls, s => by
    rw [execAll]
    have hfirst : Steps env s ((exec env call s).getD s) := by
      cases h : exec env call s with
      | none => exact .refl
      | some s' => exact exec_steps env call s s' h
    exact hfirst.trans (execAll_steps env calls _)

end

theorem execAll_append (env : Deployment) (calls more : List Call) (s : Bridge) :
    execAll env (calls ++ more) s = execAll env more (execAll env calls s) := by
  induction calls generalizing s with
  | nil => rfl
  | cons call calls ih => exact ih _

/-! ## The four steps -/

variable {env : Deployment} {s s' : Bridge}

theorem deposit_eq_some {msg : Msg} :
    s.deposit msg = some s' ↔
      (0 < msg.value.toNat ∧ s.pendingDeposits.length < maxArrayLength) ∧
        s' = { s with
          pendingDeposits := s.pendingDeposits ++ [L1Deposit.mk msg.sender msg.value msg.timestamp]
          depositCount := BitVec.ofNat 256
            (s.pendingDeposits ++ [L1Deposit.mk msg.sender msg.value msg.timestamp]).length } := by
  rw [deposit, Option.ite_none_right_eq_some, Option.some_inj]
  exact and_congr_right' eq_comm

theorem forceTransaction_eq_some {msg : Msg} {l2TxData : Bytes} :
    s.forceTransaction msg l2TxData = some s' ↔
      (forcedTxFee ≤ msg.value.toNat ∧ s.forcedTransactions.length < maxArrayLength) ∧
        s' = { s with
          forcedTransactions :=
            s.forcedTransactions ++ [ForcedTransaction.mk l2TxData msg.timestamp]
          forcedTxCount := BitVec.ofNat 256
            (s.forcedTransactions ++ [ForcedTransaction.mk l2TxData msg.timestamp]).length } := by
  rw [forceTransaction, Option.ite_none_right_eq_some, Option.some_inj]
  exact and_congr_right' eq_comm

theorem beginWithdraw_eq_some {msg : Msg} {amount : U256} {nonce : UInt64}
    {merkleProof : List Hash} (h : s.beginWithdraw env msg amount nonce merkleProof = some s') :
    ∃ nullifiers, s' = { s with nullifiers } := by
  rw [beginWithdraw] at h
  split at h
  · exact ⟨_, (Option.some_inj.mp h).symm⟩
  · exact absurd h (by simp)

theorem updateState_eq_some {publicValues proofBytes : Bytes}
    (h : s.updateState env publicValues proofBytes = some s') :
    ∃ pv dh fh, abiDecode publicValues = some pv ∧ pv.preStateRoot = s.stateRoot ∧
      s.calculateDepositHash env s.processedDepositCount (decodeCommitment pv.depositsCommitment).1
        = some dh ∧
      s.calculateForcedTxHash env s.processedForcedTxCount
        (decodeCommitment pv.forcedTxsCommitment).1 = some fh ∧
      truncate dh = (decodeCommitment pv.depositsCommitment).2 ∧
      truncate fh = (decodeCommitment pv.forcedTxsCommitment).2 ∧
      env.verifyProof env.rollupProgramVKey publicValues proofBytes = true ∧
      ∃ processedDepositCount processedForcedTxCount,
        checkedAdd s.processedDepositCount (decodeCommitment pv.depositsCommitment).1
          = some processedDepositCount ∧
        checkedAdd s.processedForcedTxCount (decodeCommitment pv.forcedTxsCommitment).1
          = some processedForcedTxCount ∧
        s' = { s with
          processedDepositCount
          processedForcedTxCount
          stateRoot := pv.postStateRoot
          accepted := s.accepted ++ [publicValues] } := by
  simp only [updateState, Option.bind_eq_bind, Option.bind_eq_some_iff] at h
  obtain ⟨pv, hpv, h⟩ := h
  split at h
  swap
  · exact absurd h (by simp)
  rename_i hroot
  simp only [Option.bind_eq_some_iff] at h
  obtain ⟨dh, hdh, fh, hfh, h⟩ := h
  split at h
  swap
  · exact absurd h (by simp)
  rename_i hcond
  simp only [Option.bind_eq_some_iff] at h
  obtain ⟨p, hp, q, hq, h⟩ := h
  exact ⟨pv, dh, fh, hpv, hroot, hdh, hfh, hcond.1, hcond.2.1, hcond.2.2, p, q, hp, hq,
    (Option.some_inj.mp h).symm⟩

/-- A batch that passes every check is accepted. -/
theorem updateState_of_checks {publicValues proofBytes : Bytes} {pv : PublicValues} {dh fh : Hash}
    {processedDepositCount processedForcedTxCount : U256}
    (hpv : abiDecode publicValues = some pv) (hroot : pv.preStateRoot = s.stateRoot)
    (hdh : s.calculateDepositHash env s.processedDepositCount
      (decodeCommitment pv.depositsCommitment).1 = some dh)
    (hfh : s.calculateForcedTxHash env s.processedForcedTxCount
      (decodeCommitment pv.forcedTxsCommitment).1 = some fh)
    (htd : truncate dh = (decodeCommitment pv.depositsCommitment).2)
    (htf : truncate fh = (decodeCommitment pv.forcedTxsCommitment).2)
    (hproof : env.verifyProof env.rollupProgramVKey publicValues proofBytes = true)
    (hp : checkedAdd s.processedDepositCount (decodeCommitment pv.depositsCommitment).1
      = some processedDepositCount)
    (hq : checkedAdd s.processedForcedTxCount (decodeCommitment pv.forcedTxsCommitment).1
      = some processedForcedTxCount) :
    s.updateState env publicValues proofBytes = some { s with
      processedDepositCount
      processedForcedTxCount
      stateRoot := pv.postStateRoot
      accepted := s.accepted ++ [publicValues] } := by
  have hcond := And.intro htd (And.intro htf hproof)
  simp only [updateState, Option.bind_eq_bind, hpv, Option.bind_some, if_pos hroot, hdh, hfh,
    if_pos hcond, hp, hq]
  rfl

/-! ## The counters -/

/-- The counters of one queue. -/
structure QueueCounted {α : Type} (queue : List α) (queueCount processed : U256) : Prop where
  count : queueCount.toNat = queue.length
  processed : processed.toNat ≤ queueCount.toNat
  length : queue.length ≤ maxArrayLength

theorem QueueCounted.push {α : Type} {queue : List α} {queueCount processed : U256}
    (h : QueueCounted queue queueCount processed) (hlt : queue.length < maxArrayLength) (x : α) :
    QueueCounted (queue ++ [x]) (BitVec.ofNat 256 (queue ++ [x]).length) processed := by
  have hlen : (queue ++ [x]).length = queue.length + 1 := by simp
  have hcount : (BitVec.ofNat 256 (queue ++ [x]).length).toNat = queue.length + 1 := by
    rw [hlen, BitVec.toNat_ofNat, Nat.mod_eq_of_lt]
    exact Nat.lt_of_le_of_lt hlt (by decide)
  have hle := h.processed
  have hc := h.count
  exact ⟨by rw [hcount, hlen], by omega, by rw [hlen]; exact hlt⟩

/-- The counters of both queues. -/
structure Counted (s : Bridge) : Prop where
  deposits : QueueCounted s.pendingDeposits s.depositCount s.processedDepositCount
  forcedTxs : QueueCounted s.forcedTransactions s.forcedTxCount s.processedForcedTxCount

theorem counted_init (root : Hash) : (init root).Counted :=
  ⟨⟨rfl, Nat.le_refl _, Nat.zero_le _⟩, ⟨rfl, Nat.le_refl _, Nat.zero_le _⟩⟩

/-! ## Hashing a slice of a queue -/

theorem readSlice_eq {α : Type} (queue : List α) (start : ℕ) : ∀ n : ℕ,
    start + n ≤ queue.length →
      (List.range n).mapM (fun i ↦ queue[start + i]?) = some ((queue.drop start).take n)
  | 0, _ => rfl
  | n + 1, h => by
    obtain ⟨x, hget⟩ : ∃ x, queue[start + n]? = some x :=
      ⟨_, List.getElem?_eq_getElem (by omega)⟩
    have htake : (queue.drop start).take (n + 1) = (queue.drop start).take n ++ [x] := by
      rw [List.take_add_one, List.getElem?_drop, hget]
      rfl
    rw [List.range_succ, List.mapM_append, readSlice_eq queue start n (by omega)]
    simp [htake, hget]

/-- A range of a queue that is there is returned. -/
theorem QueueCounted.readRange {α : Type} {queue : List α} {queueCount processed start count : U256}
    (h : QueueCounted queue queueCount processed)
    (hle : start.toNat + count.toNat ≤ queue.length) :
    ((checkedAdd start count).bind fun last ↦
      if last.toNat ≤ queueCount.toNat then readSlice queue start count else none)
        = some ((queue.drop start.toNat).take count.toNat) := by
  have hlt : start.toNat + count.toNat < 2 ^ 256 := by
    rw [← h.count] at hle
    exact Nat.lt_of_le_of_lt hle queueCount.isLt
  have hlast := checkedAdd_eq_some.mpr ⟨hlt, rfl⟩
  have hle' : (start + count).toNat ≤ queueCount.toNat := by
    rw [toNat_of_checkedAdd hlast, h.count]
    exact hle
  rw [hlast, Option.bind_some, if_pos hle', readSlice, readSlice_eq queue _ _ hle]

theorem flatten_hashes {α : Type} (k : Bytes → Hash) (encode : α → Bytes) (items : List α) :
    ((items.map fun item ↦ k (encode item)).map List.Vector.toList).flatten
      = HashList.digests k (items.map encode) := by
  rw [HashList.digests, List.map_map, List.map_map]
  rfl

/-- What `calculateDepositHash` and `calculateForcedTxHash` return. -/
theorem calculateHash_spec {α : Type} {queue : List α} {queueCount start count : U256}
    {encode : α → Bytes} {h : Hash} (hcount : queueCount.toNat = queue.length)
    (hstart : start.toNat ≤ queue.length)
    (hh : calculateHash env queue queueCount encode start count = some h) :
    start.toNat + count.toNat ≤ queue.length ∧
      h = HashList.hashList env.crypto.keccak256
        (((queue.drop start.toNat).take count.toNat).map encode) := by
  rw [calculateHash] at hh
  split at hh
  · rename_i hzero
    obtain rfl := Option.some_inj.mp hh
    have hz : count.toNat = 0 := by rw [hzero]; rfl
    rw [hz, List.take_zero]
    exact ⟨hstart, rfl⟩
  · simp only [Option.bind_eq_bind, Option.bind_eq_some_iff] at hh
    obtain ⟨last, hlast, hh⟩ := hh
    split at hh
    swap
    · exact absurd hh (by simp)
    rename_i hle
    rw [toNat_of_checkedAdd hlast, hcount] at hle
    rw [readSlice, readSlice_eq queue _ _ hle, Option.bind_some] at hh
    rw [← Option.some_inj.mp hh, HashList.hashList, ← flatten_hashes]
    exact ⟨hle, rfl⟩

/-- On a slice that exists they return. -/
theorem calculateHash_of_le {α : Type} {queue : List α} {queueCount start count : U256}
    {encode : α → Bytes} (hcount : queueCount.toNat = queue.length)
    (hle : start.toNat + count.toNat ≤ queue.length) :
    calculateHash env queue queueCount encode start count = some
      (HashList.hashList env.crypto.keccak256
        (((queue.drop start.toNat).take count.toNat).map encode)) := by
  rw [calculateHash]
  by_cases hzero : count = 0
  · rw [if_pos hzero, hzero]
    rfl
  · have hlt : start.toNat + count.toNat < 2 ^ 256 := by
      rw [← hcount] at hle
      exact Nat.lt_of_le_of_lt hle queueCount.isLt
    have hlast := checkedAdd_eq_some.mpr ⟨hlt, rfl⟩
    have hle' : (start + count).toNat ≤ queueCount.toNat := by
      rw [toNat_of_checkedAdd hlast, hcount]
      exact hle
    rw [if_neg hzero, hlast, Option.bind_eq_bind, Option.bind_some, if_pos hle', readSlice,
      readSlice_eq queue _ _ hle, Option.bind_eq_bind, Option.bind_some, HashList.hashList,
      ← flatten_hashes]
    rfl

/-- An accepted batch keeps the counters of a queue in step. -/
theorem QueueCounted.advance {α : Type} {queue : List α} {queueCount start count next : U256}
    {encode : α → Bytes} {h : Hash} (hq : QueueCounted queue queueCount start)
    (hh : calculateHash env queue queueCount encode start count = some h)
    (hnext : checkedAdd start count = some next) : QueueCounted queue queueCount next := by
  have hle := (calculateHash_spec hq.count (hq.count ▸ hq.processed) hh).1
  refine ⟨hq.count, ?_, hq.length⟩
  rw [toNat_of_checkedAdd hnext, hq.count]
  exact hle

theorem Step.counted (h : Step env s s') (hs : s.Counted) : s'.Counted := by
  cases h with
  | deposit h =>
    obtain ⟨hcond, rfl⟩ := deposit_eq_some.mp h
    exact ⟨hs.deposits.push hcond.2 _, hs.forcedTxs⟩
  | forceTransaction h =>
    obtain ⟨hcond, rfl⟩ := forceTransaction_eq_some.mp h
    exact ⟨hs.deposits, hs.forcedTxs.push hcond.2 _⟩
  | updateState h =>
    obtain ⟨pv, dh, fh, -, -, hdh, hfh, -, -, -, p, q, hp, hq, rfl⟩ := updateState_eq_some h
    exact ⟨hs.deposits.advance hdh hp, hs.forcedTxs.advance hfh hq⟩
  | beginWithdraw h =>
    obtain ⟨_, rfl⟩ := beginWithdraw_eq_some h
    exact ⟨hs.deposits, hs.forcedTxs⟩

theorem Steps.counted (h : Steps env s s') (hs : s.Counted) : s'.Counted := by
  induction h with
  | refl => exact hs
  | tail _ hstep ih => exact hstep.counted ih

/-! ## What only grows -/

/-- The queues and the history of `s` are prefixes of those of `s'`. -/
structure Extends (s s' : Bridge) : Prop where
  deposits : s.pendingDeposits <+: s'.pendingDeposits
  forcedTxs : s.forcedTransactions <+: s'.forcedTransactions
  accepted : s.accepted <+: s'.accepted

theorem Extends.refl (s : Bridge) : Extends s s :=
  ⟨List.prefix_rfl, List.prefix_rfl, List.prefix_rfl⟩

theorem Extends.trans {s'' : Bridge} (h : Extends s s') (h' : Extends s' s'') : Extends s s'' :=
  ⟨h.deposits.trans h'.deposits, h.forcedTxs.trans h'.forcedTxs, h.accepted.trans h'.accepted⟩

theorem Step.extends (h : Step env s s') : Extends s s' := by
  cases h with
  | deposit h =>
    obtain ⟨-, rfl⟩ := deposit_eq_some.mp h
    exact ⟨List.prefix_append _ _, List.prefix_rfl, List.prefix_rfl⟩
  | forceTransaction h =>
    obtain ⟨-, rfl⟩ := forceTransaction_eq_some.mp h
    exact ⟨List.prefix_rfl, List.prefix_append _ _, List.prefix_rfl⟩
  | updateState h =>
    obtain ⟨pv, dh, fh, -, -, -, -, -, -, -, p, q, -, -, rfl⟩ := updateState_eq_some h
    exact ⟨List.prefix_rfl, List.prefix_rfl, List.prefix_append _ _⟩
  | beginWithdraw h =>
    obtain ⟨_, rfl⟩ := beginWithdraw_eq_some h
    exact ⟨List.prefix_rfl, List.prefix_rfl, List.prefix_rfl⟩

theorem Steps.extends (h : Steps env s s') : Extends s s' := by
  induction h with
  | refl => exact Extends.refl s
  | tail _ hstep ih => exact ih.trans hstep.extends

end Bridge

end TinyRollup
