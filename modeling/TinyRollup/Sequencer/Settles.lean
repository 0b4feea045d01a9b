import TinyRollup.Bridge.History
import TinyRollup.Bridge.Honest
import TinyRollup.Sequencer.Inclusion

/-!
# When a block settles

The entries of a block were read at some positions of the queues of L1, and its first root is that
of the block before it.  When its proof is mined, L1 has gone on: other batches may have been
accepted, and anyone may have posted more entries.

By `settles_iff` the proof is accepted exactly if the verifier accepts it, L1 is at the first root
of the block, and the next entries of both queues are those that the block was made of.  New entries
at the ends of the queues do not matter.
-/

set_option autoImplicit false

namespace TinyRollup

open ByteString Word Stf

/-! ## The entries of a block -/

theorem depositEntry_of_toDeposit {ε : Type} {e : L1Deposit} {d : Deposit}
    (h : (toDeposit e : Run ε Deposit) = .ok d) : depositEntry d = e := by
  obtain ⟨-, hto, hamount, htime⟩ := toDeposit_eq_ok h
  rw [depositEntry, hto, userAddress_addressToHash, ofNat_eq hamount, ofNat_eq htime]

theorem forcedEntry_of_toForcedTx {ε : Type} {bincode : Bincode} {e : ForcedTransaction}
    {tx : ForcedTx} (h : (toForcedTx bincode e : Run ε ForcedTx) = .ok tx) :
    forcedEntry tx = e := by
  obtain ⟨-, htime, hdecoded⟩ := toForcedTx_eq_ok h
  rw [forcedEntry, ofNat_eq htime, hdecoded, decodePosted_l2Calldata]

/-- Items that were read from a queue stand for a slice of it. -/
theorem ReadAt.map_entry {α β : Type} {queue : List β} {convert : β → Run Unit α} {first : ℕ}
    {items : List α} {entry : α → β} (h : ReadAt queue convert first items)
    (hentry : ∀ e x, convert e = .ok x → entry x = e) :
    items.map entry = (queue.drop first).take items.length := by
  refine List.ext_getElem? fun i ↦ ?_
  rw [List.getElem?_map, List.getElem?_take]
  split
  · rename_i hi
    obtain ⟨e, he, hconvert⟩ := h i items[i] (List.getElem?_eq_getElem hi)
    rw [List.getElem?_eq_getElem hi, Option.map_some, hentry e _ hconvert, List.getElem?_drop, he]
  · rename_i hi
    rw [List.getElem?_eq_none (Nat.not_lt.mp hi), Option.map_none]

namespace Included

/-- What L1 processes next is what the block was made of. -/
structure UpNext (l1 : Bridge) (b : Included) : Prop where
  root : b.block.preStateRoot = l1.stateRoot
  deposits : (l1.pendingDeposits.drop l1.processedDepositCount.toNat).take b.block.deposits.length
    = (l1.pendingDeposits.drop b.firstDeposit).take b.block.deposits.length
  forcedTxs :
    (l1.forcedTransactions.drop l1.processedForcedTxCount.toNat).take b.block.forcedTxs.length
      = (l1.forcedTransactions.drop b.firstForced).take b.block.forcedTxs.length

/-- A commitment has four bytes for a count. -/
def Counts (b : Included) : Prop :=
  b.block.deposits.length < 2 ^ 32 ∧ b.block.forcedTxs.length < 2 ^ 32

/-- L1 has processed the block. -/
structure ProcessedFrom (l1 l1' : Bridge) (b : Included) : Prop where
  root : l1'.stateRoot = b.block.postStateRoot
  deposits : l1'.processedDepositCount.toNat
    = l1.processedDepositCount.toNat + b.block.deposits.length
  forcedTxs : l1'.processedForcedTxCount.toNat
    = l1.processedForcedTxCount.toNat + b.block.forcedTxs.length

theorem FromL1.map_entries {bincode : Bincode} {l1 : Bridge} {b : Included}
    (h : b.FromL1 bincode l1) :
    b.block.deposits.map depositEntry
        = (l1.pendingDeposits.drop b.firstDeposit).take b.block.deposits.length ∧
      b.block.forcedTxs.map forcedEntry
        = (l1.forcedTransactions.drop b.firstForced).take b.block.forcedTxs.length :=
  ⟨h.deposits.map_entry fun _ _ ↦ depositEntry_of_toDeposit,
    h.forcedTxs.map_entry fun _ _ ↦ forcedEntry_of_toForcedTx⟩

end Included

/-- What the sequencer sends comes from a guest run on the block, and has its roots. -/
theorem run_of_publicValuesOf {env : Deployment} {block : PendingBlock} {bundle : ProofBundle}
    {publicValues : Bytes} (h : System.publicValuesOf env block bundle = some publicValues) :
    guestMain env.crypto (block.inputs bundle) = .ok publicValues ∧
      executeTransition env.crypto (block.inputs bundle) = .ok (block.postStateRoot,
        hashDeposits env.crypto block.deposits, hashForcedTxs env.crypto block.forcedTxs) := by
  obtain ⟨values, hvalues, h⟩ := Option.bind_eq_some_iff.mp h
  obtain ⟨pv, hdecode, h⟩ := Option.bind_eq_some_iff.mp h
  split at h
  · rename_i hroot
    obtain rfl := Option.some_inj.mp h
    have hguest : guestMain env.crypto (block.inputs bundle) = .ok values := by
      cases hrun : guestMain env.crypto (block.inputs bundle) with
      | error e => exact absurd (hrun ▸ hvalues) (by simp [Except.toOption])
      | ok out =>
        rw [hrun] at hvalues
        exact congrArg Except.ok (Option.some_inj.mp hvalues)
    refine ⟨hguest, ?_⟩
    obtain ⟨root, hrun, rfl⟩ := guestMain_eq_ok.mp hguest
    rw [Bridge.abiDecode_abiEncode, Option.some_inj] at hdecode
    rw [← hdecode] at hroot
    rw [← show root = block.postStateRoot from hroot]
    exact hrun
  · exact absurd h (by simp)

/-! ## One submission -/

section

variable {T : Type} {env : Deployment} {m : Monotree T} {bincode : Bincode} {s : System T}

/-- **When a block settles.**  In every state that the sequencer and L1 can reach, the proof of a
committed block is accepted exactly if it verifies, the counts fit into the commitments, and what L1
processes next is what the block was made of.  Then L1 has processed the block. -/
theorem settles_iff {tree : T} {head root : Hash}
    (hrun : Relation.ReflTransGen (Step env m bincode) (System.init tree head root) s)
    {b : Included} (hb : b ∈ s.committed) {bundle : ProofBundle} {publicValues proofBytes : Bytes}
    (hvalues : System.publicValuesOf env b.block bundle = some publicValues)
    (hkeccak : Set.InjOn (Bridge.first28 ∘ env.crypto.keccak256)
      (Bridge.batchHashed env s.l1 (b.block.inputs bundle))) :
    ((∃ l1, s.l1.updateState env publicValues proofBytes = some l1) ↔
        env.verifyProof env.rollupProgramVKey publicValues proofBytes = true ∧ b.Counts ∧
          b.UpNext s.l1) ∧
      ∀ l1, s.l1.updateState env publicValues proofBytes = some l1 → b.ProcessedFrom s.l1 l1 := by
  have hfetched := Fetched.run hrun
  obtain ⟨hguest, hexec⟩ := run_of_publicValuesOf hvalues
  obtain ⟨hdeposits, hforcedTxs⟩ :=
    (hfetched.fromL1 b ((committed_sublist s).subset hb)).map_entries
  have hbatch : ∀ {l1 : Bridge}, s.l1.updateState env publicValues proofBytes = some l1 →
      Bridge.Batch s.l1 l1 (b.block.inputs bundle) :=
    fun h ↦ Bridge.Batch.of_updateState hfetched.counted h hguest hkeccak (le_refl _)
  refine ⟨⟨?_, ?_⟩, fun l1 h ↦ ?_⟩
  · rintro ⟨l1, h⟩
    obtain ⟨_, _, _, _, _, _, _, _, _, hproof, _⟩ := Bridge.updateState_eq_some h
    obtain ⟨hroot, -, hcountd, hcountf, -⟩ := Bridge.run_of_updateState h hguest
    have hprocessed := hbatch h
    -- The lengths are what the commitments say, so they fit.
    have hlend := (UInt32.ofNat b.block.deposits.length).toNat_lt
    have hlenf := (UInt32.ofNat b.block.forcedTxs.length).toNat_lt
    rw [hprocessed.depositCount, Nat.add_left_cancel_iff] at hcountd
    rw [hprocessed.forcedTxCount, Nat.add_left_cancel_iff] at hcountf
    exact ⟨hproof, ⟨hcountd.trans_lt hlend, hcountf.trans_lt hlenf⟩, hroot,
      hprocessed.deposits.trans hdeposits, hprocessed.forcedTxs.trans hforcedTxs⟩
  · rintro ⟨hproof, ⟨hlend, hlenf⟩, hroot, hd, hf⟩
    obtain ⟨l1, h, -⟩ := Bridge.updateState_of_slices env s.l1 proofBytes hfetched.counted hexec
      hguest hproof hroot hlend hlenf (hd.trans hdeposits.symm) (hf.trans hforcedTxs.symm)
    exact ⟨l1, h⟩
  · obtain ⟨-, -, -, -, hrun'⟩ := Bridge.run_of_updateState h hguest
    rw [hexec, Except.ok.injEq, Prod.mk.injEq] at hrun'
    exact ⟨hrun'.1.symm, (hbatch h).depositCount, (hbatch h).forcedTxCount⟩

end

/-! ## A block of one skipped transaction -/

namespace Garbage

/-- What the sequencer takes the posted bytes for. -/
def skipped : ForcedTx := decodePosted .v1 [] 7

def noProofs : ProofBundle := ⟨[], [], [], [], []⟩

/-- What the block and L1 are like after a tick. -/
def ticked (s : System MemTree) (b : Included) : Bool :=
  decide (b.block.preStateRoot = Hash.default ∧ b.block.deposits = [] ∧
    b.block.forcedTxs = [skipped] ∧ b.firstForced = 0 ∧ s.l1.stateRoot = Hash.default ∧
    s.l1.processedForcedTxCount = 0 ∧ s.l1.pendingDeposits = [] ∧
    s.l1.forcedTransactions = [forcedEntry skipped])

theorem run_ticked : (start.run env m .v1 (force :: tick)).any (fun s ↦ s.committed.any fun b ↦
    ticked s b && (System.publicValuesOf env b.block noProofs).isSome) = true := by
  decide +kernel

/-- The strings hashed for the block. -/
def strings : List Bytes :=
  [[], forcedItem skipped, HashList.digests (Crypto.keccak256 .sha3Crate) [forcedItem skipped]]

set_option maxRecDepth 10000 in
theorem digests_nodup :
    (strings.map (Bridge.first28 ∘ Crypto.keccak256 .sha3Crate)).Nodup := by
  decide +kernel

theorem mem_strings {l1 : Bridge} {inp : TransitionInputs} (hd : l1.pendingDeposits = [])
    (hf : l1.forcedTransactions = [forcedEntry skipped]) (hind : inp.deposits = [])
    (hinf : inp.forcedTxs = [skipped]) : ∀ x ∈ Bridge.batchHashed env l1 inp, x ∈ strings := by
  have hpending : l1.pendingDeposits = [].map depositEntry := hd
  have hforced : l1.forcedTransactions = [skipped].map forcedEntry := hf
  refine Bridge.batchHashed_subset hpending hforced (hind ▸ List.infix_rfl)
    (hinf ▸ List.infix_rfl) (fun l hl ↦ ?_) fun l hl ↦ HashList.preimages_of_infix_singleton _ hl
  rw [List.infix_nil.mp hl]
  exact HashList.preimages_of_infix_singleton _ (List.nil_infix (l := [skipped]))

end Garbage

open Garbage in
theorem settles_iff_garbage : ∃ s b publicValues l1, b ∈ System.committed s ∧
    Relation.ReflTransGen (Step env m .v1) start s ∧
    s.l1.updateState env publicValues [] = some l1 ∧ b.ProcessedFrom s.l1 l1 := by
  obtain ⟨s, hrun, hany⟩ := (Option.any_eq_true _ _).mp run_ticked
  obtain ⟨b, hb, hview⟩ := List.any_eq_true.mp hany
  rw [Bool.and_eq_true, ticked, decide_eq_true_eq, Option.isSome_iff_exists] at hview
  obtain ⟨⟨hpre, hds, hfs, hfirst, hroot, hprocessed, hd, hf⟩, publicValues, hvalues⟩ := hview
  have hkeccak : Set.InjOn (Bridge.first28 ∘ env.crypto.keccak256)
      (Bridge.batchHashed env s.l1 (b.block.inputs noProofs)) :=
    fun _ hx _ hy h ↦ List.inj_on_of_nodup_map digests_nodup (mem_strings hd hf hds hfs _ hx)
      (mem_strings hd hf hds hfs _ hy) h
  obtain ⟨haccepted, hafter⟩ :
      ((∃ l1, s.l1.updateState env publicValues [] = some l1) ↔ _) ∧ _ :=
    settles_iff (run_steps hrun) hb hvalues hkeccak
  have hnext : b.UpNext s.l1 := by
    refine ⟨hpre.trans hroot.symm, ?_, ?_⟩
    · rw [hds]
      rfl
    · rw [hprocessed, hfirst]
      rfl
  have hcounts : b.Counts := by
    rw [Included.Counts, hds, hfs]
    decide
  obtain ⟨l1, h⟩ := haccepted.mpr ⟨rfl, hcounts, hnext⟩
  exact ⟨s, b, publicValues, l1, hb, run_steps hrun, h, hafter l1 h⟩

end TinyRollup
