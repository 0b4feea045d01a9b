import TinyRollup.Sequencer.Crash

/-!
# The queue of pending blocks

Block numbers come from a counter in memory, which every start takes from the disk, where it is
written together with the block.  So the `i`-th committed block has the number `i` whatever happens
to the process, and the prover worker, which removes the first block of the queue only, leaves the
rest of the chain (`Queued`).  Together with the roots (`Chained`) this is `pending_chain`.

The numbers are `u64`s that wrap; all of this is about runs with fewer blocks than that.
-/

set_option autoImplicit false

namespace TinyRollup

namespace OptimisticWorker

/-- The block that has its number and is not committed. -/
def counted? : OptimisticWorker → Option PendingBlock
  | .numbered block | .headMoved block | .drained block => some block
  | _ => none

theorem BeforeHeadroot.counted? {w : OptimisticWorker} (h : w.BeforeHeadroot) :
    w.counted? = none ∧ w ≠ .dead := by
  cases h <;> exact ⟨rfl, by simp⟩

theorem counted?_of_window? {w : OptimisticWorker} (h : w.window? = none) : w.counted? = none := by
  cases w <;> first | rfl | exact absurd h (by simp [window?])

theorem moved?_of_window? {w : OptimisticWorker} (h : w.window? = none) : w.moved? = none := by
  cases w <;> first | rfl | exact absurd h (by simp [window?])

end OptimisticWorker

namespace Node

variable {T : Type} {env : Deployment} {m : Monotree T} {bincode : Bincode} {l1Enabled : Bool}
  {e : NodeEvent} {n n' : Node T}

/-- The blocks of the queue and their numbers. -/
structure Queued (n : Node T) : Prop where
  storedCounter : n.disk.getBlockCounter = UInt64.ofNat n.committed.length
  numbers : ∀ i b, n.committed[i]? = some b → b.blockNumber = UInt64.ofNat i
  range : ∃ k ≤ n.committed.length, n.disk.pending.items = n.committed.drop k
  counter : n.worker ≠ .dead → n.worker.counted? = none →
    n.blockCounter = UInt64.ofNat n.committed.length
  counted : ∀ b, n.worker.counted? = some b → b.blockNumber = UInt64.ofNat n.committed.length ∧
    n.blockCounter = UInt64.ofNat (n.committed.length + 1)
  /-- The prover worker is at the first block. -/
  taken : ∀ b, n.prover.block? = some b → n.disk.pending.peek = some b

/-- There are fewer blocks than numbers. -/
def Bounded (n : Node T) : Prop := n.committed.length < 2 ^ 64 - 1

theorem queued_init (tree : T) (root : Hash) (l1 : Bridge) : (init tree root l1).Queued where
  storedCounter := rfl
  numbers _ _ h := absurd h (by simp [init])
  range := ⟨0, Nat.le_refl _, rfl⟩
  counter _ _ := rfl
  counted _ h := absurd h (by simp [init, OptimisticWorker.counted?])
  taken _ h := absurd h (by simp [init, ProverWorker.block?])

theorem Taken.committed_prefix (hstep : n.Taken env m bincode l1Enabled e n') :
    n.committed <+: n'.committed := by
  cases hstep with
  | submitTx tx => exact List.prefix_refl _
  | worker hstep =>
    rcases hstep.pending with ⟨-, -, heq⟩ | ⟨block, -, rfl⟩
    · rw [heq]
    · exact List.prefix_append _ _
  | prover hstep => rw [hstep.sameWorker.committed]
  | l1 hstep => rw [hstep.sameWorker.committed]
  | restart => exact List.prefix_refl _

theorem Bounded.of_taken (h : n'.Bounded) (hstep : n.Taken env m bincode l1Enabled e n') :
    n.Bounded :=
  Nat.lt_of_le_of_lt hstep.committed_prefix.length_le h

theorem Bounded.toNat_length (h : n.Bounded) :
    (UInt64.ofNat n.committed.length).toNat = n.committed.length := by
  rw [Bounded] at h
  rw [UInt64.toNat_ofNat', Nat.mod_eq_of_lt (by omega)]

/-- The number of a committed block is its position. -/
theorem Queued.toNat_number (h : n.Queued) (hbound : n.Bounded) {i : ℕ} {b : PendingBlock}
    (hb : n.committed[i]? = some b) : b.blockNumber.toNat = i := by
  have hi : i < n.committed.length := (List.getElem?_eq_some_iff.mp hb).1
  have hlt : i < 2 ^ 64 := by
    rw [Bounded] at hbound
    omega
  rw [h.numbers i b hb, UInt64.toNat_ofNat', Nat.mod_eq_of_lt hlt]

/-- A number names one block. -/
theorem Queued.eq_of_number (h : n.Queued) (hbound : n.Bounded) {b b' : PendingBlock}
    (hb : b ∈ n.committed) (hb' : b' ∈ n.committed) (heq : b.blockNumber = b'.blockNumber) :
    b = b' := by
  obtain ⟨i, hi⟩ := List.mem_iff_getElem?.mp hb
  obtain ⟨j, hj⟩ := List.mem_iff_getElem?.mp hb'
  have hij : i = j := by
    rw [← h.toNat_number hbound hi, ← h.toNat_number hbound hj, heq]
  subst hij
  exact Option.some_inj.mp (hi.symm.trans hj)

theorem Queued.number_lt (h : n.Queued) (hbound : n.Bounded) {b : PendingBlock}
    (hb : b ∈ n.committed) : b.blockNumber.toNat < n.committed.length := by
  obtain ⟨i, hi⟩ := List.mem_iff_getElem?.mp hb
  rw [h.toNat_number hbound hi]
  exact (List.getElem?_eq_some_iff.mp hi).1

/-- The number of the next block is the one after all others. -/
theorem Queued.toNat_counted (h : n.Queued) (hbound : n.Bounded) {block : PendingBlock}
    (hw : n.worker.counted? = some block) : block.blockNumber.toNat = n.committed.length := by
  rw [(h.counted block hw).1, hbound.toNat_length]

theorem Queued.mem_committed (h : n.Queued) {b : PendingBlock} (hb : b ∈ n.disk.pending) :
    b ∈ n.committed := by
  obtain ⟨k, -, hitems⟩ := h.range
  rw [KeyedQueue.mem_iff, hitems] at hb
  exact List.mem_of_mem_drop hb

/-- The block that the prover worker is at is the first one of the queue. -/
theorem Queued.mem_of_block? (h : n.Queued) {b : PendingBlock} (hb : n.prover.block? = some b) :
    b ∈ n.disk.pending ∧ b ∈ n.committed :=
  have hmem := KeyedQueue.mem_of_peek (h.taken b hb)
  ⟨hmem, h.mem_committed hmem⟩

/-! ## The steps of the workers -/

/-- A new block goes to the end of the queue. -/
theorem Queued.items_put (h : n.Queued) (hbound : n.Bounded) {block : PendingBlock}
    (hw : n.worker = .drained block) :
    (n.disk.pending.put block).items = n.disk.pending.items ++ [block] := by
  have hcounted : n.worker.counted? = some block := by
    rw [hw]
    rfl
  refine KeyedQueue.items_put_of_lt fun b hb ↦ ?_
  rw [h.toNat_counted hbound hcounted]
  exact h.number_lt hbound (h.mem_committed hb)

theorem Queued.commitBlock (h : n.Queued) {block : PendingBlock} (hw : n.worker = .drained block)
    (hbound : n.committed.length + 1 < 2 ^ 64 - 1) :
    Queued { n with
      disk := n.disk.commitOptimisticBlock block (block.blockNumber + 1)
      committed := n.committed ++ [block]
      worker := .sleeping } := by
  obtain ⟨hnumber, hcounter⟩ := h.counted block (by rw [hw]; rfl)
  obtain ⟨k, hk, hitems⟩ := h.range
  have hlen : (n.committed ++ [block]).length = n.committed.length + 1 := by simp
  have hput := h.items_put (Nat.lt_of_succ_lt hbound) hw
  refine ⟨?_, fun i b hb ↦ ?_, ⟨k, ?_, ?_⟩, fun _ _ ↦ ?_, fun b hb ↦ ?_, fun b hb ↦ ?_⟩
  · show block.blockNumber + 1 = UInt64.ofNat (n.committed ++ [block]).length
    rw [hnumber, hlen, UInt64.ofNat_add]
    rfl
  · rcases getElem?_concat_eq_some hb with hb | ⟨rfl, rfl⟩
    · exact h.numbers i b hb
    · exact hnumber
  · exact hk.trans (List.prefix_append _ _).length_le
  · show (n.disk.pending.put block).items = (n.committed ++ [block]).drop k
    rw [hput, hitems, List.drop_append_of_le_length hk]
  · show n.blockCounter = UInt64.ofNat (n.committed ++ [block]).length
    rw [hcounter, hlen]
  · exact absurd hb (by simp [OptimisticWorker.counted?])
  · have hpeek := h.taken b hb
    show (n.disk.pending.put block).items.head? = some b
    rw [hput, List.head?_append, show n.disk.pending.items.head? = some b from hpeek]
    rfl

theorem Queued.workerStep (h : n.Queued) (hbound : n'.Bounded)
    (hstep : n.WorkerStep env m bincode e n') : n'.Queued := by
  cases hstep with
  | commitBlock hw =>
    refine h.commitBlock hw ?_
    rw [Bounded] at hbound
    simpa using hbound
  | tick hw | fetches hw | nothingNew hw | copyTxs hw | readHead hw | execute hw _
  | setHeadroot hw =>
    have hcounter := h.counter (by rw [hw]; simp) (by rw [hw]; rfl)
    exact ⟨h.storedCounter, h.numbers, h.range, fun _ _ ↦ hcounter,
      fun b hb ↦ absurd hb (by simp [OptimisticWorker.counted?]), h.taken⟩
  | countBlock hw =>
    have hcounter := h.counter (by rw [hw]; simp) (by rw [hw]; rfl)
    refine ⟨h.storedCounter, h.numbers, h.range,
      fun _ hb ↦ absurd hb (by simp [OptimisticWorker.counted?]), fun b hb ↦ ?_, h.taken⟩
    obtain rfl := Option.some_inj.mp hb
    refine ⟨hcounter, ?_⟩
    show n.blockCounter + 1 = UInt64.ofNat (n.committed.length + 1)
    rw [hcounter, UInt64.ofNat_add]
    rfl
  | moveHead hw | drain hw _ =>
    have hcounted := h.counted _ (by rw [hw]; rfl)
    refine ⟨h.storedCounter, h.numbers, h.range,
      fun _ hb ↦ absurd hb (by simp [OptimisticWorker.counted?]), fun b hb ↦ ?_, h.taken⟩
    obtain rfl := Option.some_inj.mp hb
    exact hcounted
  | drainPanics | commitFails | fails =>
    exact ⟨h.storedCounter, h.numbers, h.range, fun hdead ↦ absurd rfl hdead,
      fun b hb ↦ absurd hb (by simp [OptimisticWorker.counted?]), h.taken⟩

/-- A step of the prover worker that leaves the queue as it is. -/
theorem Queued.of_prover (h : n.Queued) (hsame : SameWorker n n')
    (hpending : n'.disk.pending = n.disk.pending)
    (htaken : ∀ b, n'.prover.block? = some b → n.disk.pending.peek = some b) : n'.Queued where
  storedCounter := by
    rw [Disk.getBlockCounter, hsame.storedCounter, hsame.committed]
    exact h.storedCounter
  numbers := by
    rw [hsame.committed]
    exact h.numbers
  range := by
    rw [hsame.committed, hpending]
    exact h.range
  counter := by
    rw [hsame.worker, hsame.blockCounter, hsame.committed]
    exact h.counter
  counted := by
    rw [hsame.worker, hsame.blockCounter, hsame.committed]
    exact h.counted
  taken := by
    rw [hpending]
    exact htaken

theorem countRetry_block (block : PendingBlock) (retries : ℕ) :
    (n.countRetry block retries).prover.block? = some block ∧
      (n.countRetry block retries).disk = n.disk := by
  rcases n.countRetry_eq block retries with heq | heq <;> rw [heq] <;> exact ⟨rfl, rfl⟩

/-- Removing the block that the worker is at removes the first one. -/
theorem Queued.removePending (h : n.Queued) {block : PendingBlock}
    (hp : n.prover.block? = some block) :
    Queued { n with disk := n.disk.removePending block.blockNumber, prover := .sleeping } := by
  obtain ⟨k, hk, hitems⟩ := h.range
  have hpeek := h.taken block hp
  have herase : (n.disk.pending.erase block.blockNumber.toNat).items = n.disk.pending.items.tail :=
    KeyedQueue.items_erase_peek hpeek
  have hlt : k < n.committed.length := by
    by_contra hge
    rw [List.drop_eq_nil_of_le (Nat.not_lt.mp hge)] at hitems
    rw [KeyedQueue.peek, hitems] at hpeek
    exact absurd hpeek (by simp)
  refine ⟨h.storedCounter, h.numbers, ⟨k + 1, hlt, ?_⟩, h.counter, h.counted,
    fun b hb ↦ absurd hb (by simp [ProverWorker.block?])⟩
  show (n.disk.pending.erase block.blockNumber.toNat).items = n.committed.drop (k + 1)
  rw [herase, hitems, List.tail_drop]

theorem Queued.proverStep (h : n.Queued) (hstep : n.ProverStep env l1Enabled e n') : n'.Queued := by
  have hretry : ∀ (poisoned : Bool) (block : PendingBlock) (retries : ℕ),
      n.prover.block? = some block →
        SameWorker n ({ n with poisoned }.countRetry block retries) →
          ({ n with poisoned }.countRetry block retries).Queued := by
    intro poisoned block retries hp hsame
    refine h.of_prover hsame ?_ fun b hb ↦ h.taken b ?_
    · rw [(countRetry_block block retries).2]
    · rw [(countRetry_block block retries).1] at hb
      rw [hp]
      exact hb
  have hsame := hstep.sameWorker
  cases hstep with
  | peekPending _ hpeek =>
    refine h.of_prover hsame rfl fun b hb ↦ ?_
    obtain rfl := Option.some_inj.mp hb
    exact hpeek
  | proves hp | provesOffline hp | send hp | receiptAccepted hp | moveProven hp | pushFailed hp =>
    refine h.of_prover hsame rfl fun b hb ↦ h.taken b ?_
    rw [hp]
    exact hb
  | proveFails poisoned hp => exact hretry poisoned _ _ (by rw [hp]; rfl) hsame
  | receiptReverted hp _ => exact hretry n.poisoned _ _ (by rw [hp]; rfl) hsame
  | attemptFails hp =>
    exact hretry n.poisoned _ _ (ProverWorker.block?_of_attempt? hp) hsame
  | removePending hp =>
    refine h.removePending ?_
    rcases hp with hp | hp <;> rw [hp] <;> rfl
  | dies =>
    exact h.of_prover hsame rfl fun b hb ↦ absurd hb (by simp [ProverWorker.block?])

/-- **One step** keeps the numbers and the queue, also a stop at any point. -/
theorem Queued.step (h : n.Queued) (hbound : n'.Bounded)
    (hstep : n.Taken env m bincode l1Enabled e n') : n'.Queued := by
  cases hstep with
  | submitTx tx => exact ⟨h.storedCounter, h.numbers, h.range, h.counter, h.counted, h.taken⟩
  | worker hstep => exact h.workerStep hbound hstep
  | prover hstep => exact h.proverStep hstep
  | l1 hstep =>
    have hsame := hstep.sameWorker
    cases hstep <;> exact h.of_prover hsame rfl h.taken
  | restart =>
    exact ⟨h.storedCounter, h.numbers, h.range, fun _ _ ↦ h.storedCounter,
      fun b hb ↦ absurd hb (by simp [restart, OptimisticWorker.counted?]),
      fun b hb ↦ absurd hb (by simp [restart, ProverWorker.block?])⟩

theorem Reaches.queued {ok : Node T → NodeEvent → Prop} {tree : T} {root : Hash} {l1 : Bridge}
    (hrun : Reaches env m bincode l1Enabled ok (init tree root l1) n) (hbound : n.Bounded) :
    n.Queued :=
  hrun.invariant (I := fun k ↦ k.Bounded → k.Queued) (fun _ ↦ queued_init tree root l1)
    (fun hk _ hstep hbound ↦ (hk (hbound.of_taken hstep)).step hbound hstep) hbound

/-! ## The chain -/

/-- The process stops between ticks only, and the commit of a block does not fail. -/
def Clean (n : Node T) (e : NodeEvent) : Prop :=
  e = .restart ∨ e = .workerFails → n.worker.window? = none

theorem Clean.careful (h : n.Clean e) : n.Careful e := by
  rintro ⟨preRoot, newRoot, hwindow, -⟩
  refine ⟨fun he ↦ ?_, fun he ↦ ?_⟩
  · rw [h (Or.inl he)] at hwindow
    exact absurd hwindow (by simp)
  · rw [h (Or.inr he)] at hwindow
    exact absurd hwindow (by simp)

/-- A worker that is gone has left the counter with the blocks. -/
def LeftClean (n : Node T) : Prop :=
  n.worker = .dead → n.blockCounter = UInt64.ofNat n.committed.length

theorem LeftClean.taken (h : n.LeftClean) (hqueued : n.Queued) (hcopied : n.Copied)
    (hok : n.Clean e) (hstep : n.Taken env m bincode l1Enabled e n') : n'.LeftClean := by
  have hsame : SameWorker n n' → n'.LeftClean := by
    intro hsame hdead
    rw [hsame.worker] at hdead
    rw [hsame.blockCounter, hsame.committed]
    exact h hdead
  cases hstep with
  | submitTx tx => exact h
  | worker hstep =>
    cases hstep with
    | drainPanics hw hlength => exact absurd (hcopied.drain_le hw) hlength
    | commitFails hw =>
      have hwindow := hok (Or.inr rfl)
      rw [hw] at hwindow
      exact absurd hwindow (by simp [OptimisticWorker.window?])
    | fails tree poisoned hw => exact fun _ ↦ hqueued.counter hw.counted?.2 hw.counted?.1
    | _ => exact fun hdead ↦ absurd hdead (by simp)
  | prover hstep => exact hsame hstep.sameWorker
  | l1 hstep => exact hsame hstep.sameWorker
  | restart => exact fun hdead ↦ absurd hdead (by simp [restart])

theorem Reaches.leftClean {tree : T} {root : Hash} {l1 : Bridge}
    (hrun : Reaches env m bincode l1Enabled Clean (init tree root l1) n) (hbound : n.Bounded) :
    n.LeftClean := by
  refine (hrun.invariant (I := fun k ↦ k.Copied ∧ (k.Bounded → k.Queued ∧ k.LeftClean))
    ⟨?_, fun _ ↦ ⟨queued_init tree root l1, ?_⟩⟩ fun hk hok hstep ↦
      ⟨hk.1.taken hstep, fun hb ↦ ?_⟩).2 hbound |>.2
  · exact fun txs htxs ↦ absurd htxs (by simp [init, OptimisticWorker.copied?])
  · exact fun hdead ↦ absurd hdead (by simp [init])
  · obtain ⟨hq, hl⟩ := hk.2 (hb.of_taken hstep)
    exact ⟨hq.step hb hstep, hl.taken hq hk.1 hok hstep⟩

/-- The blocks from `k` on have the numbers from `k` on. -/
theorem Queued.map_number (h : n.Queued) (hbound : n.Bounded) (k : ℕ) :
    (n.committed.drop k).map (fun b ↦ b.blockNumber.toNat)
      = List.range' k (n.committed.length - k) := by
  refine List.ext_getElem (by simp) fun i hi _ ↦ ?_
  rw [List.length_map, List.length_drop] at hi
  have hget : n.committed[k + i]? = some n.committed[k + i] := List.getElem?_eq_getElem _
  rw [List.getElem_map, List.getElem_drop, List.getElem_range', h.toNat_number hbound hget,
    Nat.one_mul]

/-- **The pending queue is a contiguous linked chain.**  Whenever the optimistic worker is not in
the middle of a commit: the queue holds the blocks numbered from some `k` up to the counter, which
is the same on disk and in memory, every block starts from the root of the block before it, and the
heads are at the root of the last block. -/
theorem pending_chain {tree : T} {root : Hash} {l1 : Bridge}
    (hrun : Reaches env m bincode l1Enabled Clean (init tree root l1) n) (hbound : n.Bounded)
    (hw : n.worker.window? = none) :
    (∃ k ≤ n.committed.length, n.disk.pending.items = n.committed.drop k ∧
        n.disk.pending.items.map (fun b ↦ b.blockNumber.toNat)
          = List.range' k (n.committed.length - k)) ∧
      n.disk.getBlockCounter.toNat = n.committed.length ∧
      n.blockCounter.toNat = n.committed.length ∧
      (∀ i b b', n.committed[i]? = some b → n.committed[i + 1]? = some b' →
        b'.preStateRoot = b.postStateRoot) ∧
      ∀ b, n.committed.getLast? = some b →
        n.heads.optimistic = b.postStateRoot ∧ n.disk.headroot = some b.postStateRoot := by
  have hqueued := hrun.queued hbound
  have hcareful := Reaches.mono hrun fun _ _ hok ↦ Clean.careful hok
  obtain ⟨-, hchained⟩ := hcareful.chained
  have hcounter : n.blockCounter = UInt64.ofNat n.committed.length := by
    by_cases hdead : n.worker = .dead
    · exact hrun.leftClean hbound hdead
    · exact hqueued.counter hdead (OptimisticWorker.counted?_of_window? hw)
  refine ⟨?_, ?_, ?_, fun i b b' hb hb' ↦ ?_, fun b hb ↦ ?_⟩
  · obtain ⟨k, hk, hitems⟩ := hqueued.range
    exact ⟨k, hk, hitems, by rw [hitems, hqueued.map_number hbound]⟩
  · rw [hqueued.storedCounter, hbound.toNat_length]
  · rw [hcounter, hbound.toNat_length]
  · rw [hchained.linked (i + 1) b' hb', List.take_add_one, hb, Option.toList_some, tip_concat]
  · have htip : tip root n.committed = b.postStateRoot := by
      rw [tip, hb]
      rfl
    rw [hchained.optimistic, hchained.headroot, hw, OptimisticWorker.moved?_of_window? hw, htip]
    exact ⟨rfl, rfl⟩

end Node

/-! ## Three blocks

The block of an undecodable forced transaction is proven, sent to L1 and removed, and two more
blocks are made. -/

namespace ThreeBlocks

open ByteString (zeros)
open Requests (env m start sleeps)

def force : NodeEvent :=
  .callL1 (.forceTransaction
    { sender := zeros 20, value := 10 ^ 15, timestamp := 7 } [])

/-- The optimistic worker from one sleep to the next. -/
def makeBlock : List NodeEvent :=
  LostBlock.fetch ++ [.readHead, .execute .cached, .setHeadroot, .countBlock, .moveHead, .drain,
    .commitBlock]

/-- The prover worker proves the next block and sends it to L1. -/
def prove : List NodeEvent := [.peekPending, .prove, .send [], .mine 0]

/-- The worker hears of the transaction and removes the block, and two more blocks are made. -/
def settle : List NodeEvent :=
  [.getReceipt, .moveProven, .removePending] ++ force :: makeBlock ++ makeBlock

def numbers (q : BlockQueue) : List UInt64 := q.items.map PendingBlock.blockNumber

theorem run_settle : (start.run env m .v1 true (force :: makeBlock ++ prove ++ settle)).map
    (fun n ↦ (sleeps n, numbers n.disk.pending, n.committed.length)) = some (true, [1, 2], 3) := by
  decide +kernel

end ThreeBlocks

open ThreeBlocks Requests in
/-- The process is started again after the third block. -/
theorem pending_chain_threeBlocks : ∃ n : Node MemTree, n.committed.length = 3 ∧
    numbers n.disk.pending = [1, 2] ∧
    (∃ k ≤ 3, n.disk.pending.items = n.committed.drop k ∧
      n.disk.pending.items.map (fun b ↦ b.blockNumber.toNat) = List.range' k (3 - k)) ∧
    n.blockCounter.toNat = 3 ∧
    ∀ i b b', n.committed[i]? = some b → n.committed[i + 1]? = some b' →
      b'.preStateRoot = b.postStateRoot := by
  obtain ⟨n, hrun, hview⟩ := Option.map_eq_some_iff.mp run_settle
  obtain ⟨hsleeps, hrest⟩ := Prod.mk.inj hview
  obtain ⟨hnumbers, hlength⟩ := Prod.mk.inj hrest
  have hreaches : Node.Reaches env m .v1 true Node.Clean start n :=
    Node.reaches_of_run (by simp [force, makeBlock, prove, settle, LostBlock.fetch, Node.Clean])
      hrun
  have hrestart : Node.Reaches env m .v1 true Node.Clean start n.restart :=
    hreaches.tail ⟨.restart, fun _ ↦ by rw [worker_of_sleeps hsleeps]; rfl, rfl⟩
  have hlength' : n.restart.committed.length = 3 := hlength
  have hbound : n.restart.Bounded := by
    rw [Node.Bounded, hlength']
    omega
  obtain ⟨hqueue, -, hcounter, hlinks, -⟩ := Node.pending_chain hrestart hbound rfl
  rw [hlength'] at hqueue hcounter
  exact ⟨n.restart, hlength', hnumbers, hqueue, hcounter, hlinks⟩

end TinyRollup
