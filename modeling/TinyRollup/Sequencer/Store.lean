import TinyRollup.Sequencer.Node

/-!
# The block queue store

`BlockQueueStore` of the sequencer, over the column families of a RocksDB.  A column family is
iterated in the bytewise order of its keys, and the keys of the blocks are the eight bytes of their
numbers, most significant first.

`peek_pending_least` says what this is good for: after any calls, `peek_pending` returns the block
that was written last under the least number that is still pending.  The process keeps the same
queues sorted by number; `toStore` is the store it stands for, and its operations are the ones of
the store (`toStore_commitOptimisticBlock` and the lemmas after it).

A value is the serialized block in the source and the block itself here: `bincode` reads back what
it has written.
-/

set_option autoImplicit false

namespace TinyRollup

open ByteString Stf

/-! ## Keys -/

/-- Bytes in numeric order. -/
instance instLinearOrderUInt8 : LinearOrder UInt8 where
  le := (· ≤ ·)
  lt := (· < ·)
  le_refl := UInt8.le_refl
  le_trans _ _ _ := UInt8.le_trans
  le_antisymm _ _ := UInt8.le_antisymm
  le_total := UInt8.le_total
  lt_iff_le_not_ge a b := by
    show a < b ↔ a ≤ b ∧ ¬ b ≤ a
    rw [UInt8.not_le, and_iff_right_of_imp UInt8.le_of_lt]
  toDecidableLE a b := inferInstanceAs (Decidable (a ≤ b))
  toDecidableLT a b := inferInstanceAs (Decidable (a < b))
  toDecidableEq := inferInstance

/-- `block_number.to_be_bytes()`. -/
def blockKey (blockNumber : UInt64) : Bytes := beBytes 8 blockNumber.toNat

theorem blockKey_lt (a b : UInt64) : blockKey a < blockKey b ↔ a.toNat < b.toNat := by
  have hlt : ∀ x : UInt64, x.toNat % 256 ^ 8 = x.toNat := fun x ↦ Nat.mod_eq_of_lt x.toNat_lt
  rw [blockKey, blockKey, lt_iff_beNat_lt (by simp), beNat_beBytes, beNat_beBytes, hlt, hlt]

theorem blockKey_le (a b : UInt64) : blockKey a ≤ blockKey b ↔ a ≤ b := by
  rw [← not_lt, blockKey_lt, UInt64.le_iff_toNat_le, Nat.not_lt]

theorem blockKey_inj {a b : UInt64} : blockKey a = blockKey b ↔ a = b := by
  rw [le_antisymm_iff, blockKey_le, blockKey_le]
  exact ⟨fun h ↦ UInt64.le_antisymm h.1 h.2, fun h ↦ h ▸ ⟨UInt64.le_refl _, UInt64.le_refl _⟩⟩

/-! ## The store -/

/-- A column family of blocks. -/
abbrev Column := KeyedQueue fun e : Bytes × PendingBlock ↦ e.1

structure BlockQueueStore where
  pending : Column
  failed : Column
  /-- The value of `block_counter`. -/
  blockCounter : Option Bytes

namespace BlockQueueStore

/-- `open_db` on an empty directory. -/
def new : BlockQueueStore where
  pending := .empty
  failed := .empty
  blockCounter := none

def pushPending (s : BlockQueueStore) (block : PendingBlock) : BlockQueueStore :=
  { s with pending := s.pending.put (blockKey block.blockNumber, block) }

def peekPending (s : BlockQueueStore) : Option PendingBlock := s.pending.peek.map Prod.snd

def removePending (s : BlockQueueStore) (blockNumber : UInt64) : BlockQueueStore :=
  { s with pending := s.pending.erase (blockKey blockNumber) }

def pushFailed (s : BlockQueueStore) (block : PendingBlock) : BlockQueueStore :=
  { s with failed := s.failed.put (blockKey block.blockNumber, block) }

/-- `u64::from_be_bytes(value.try_into().unwrap_or_default())`. -/
def getBlockCounter (s : BlockQueueStore) : UInt64 :=
  match s.blockCounter with
  | some value => if value.length = 8 then UInt64.ofNat (beNat value) else 0
  | none => 0

def setBlockCounter (s : BlockQueueStore) (count : UInt64) : BlockQueueStore :=
  { s with blockCounter := some (beBytes 8 count.toNat) }

/-- One batch of two writes. -/
def commitOptimisticBlock (s : BlockQueueStore) (block : PendingBlock)
    (nextBlockNumber : UInt64) : BlockQueueStore :=
  { s with
    pending := s.pending.put (blockKey block.blockNumber, block)
    blockCounter := some (beBytes 8 nextBlockNumber.toNat) }

end BlockQueueStore

/-! ## The queues of the process -/

theorem entry_lt_iff (a b : PendingBlock) :
    @LT.lt Bytes Preorder.toLT (blockKey a.blockNumber) (blockKey b.blockNumber) ↔
      a.blockNumber.toNat < b.blockNumber.toNat :=
  blockKey_lt a.blockNumber b.blockNumber

/-- A queue of blocks as it is stored. -/
def columnOf (q : BlockQueue) : Column :=
  q.recode (fun b ↦ (blockKey b.blockNumber, b)) (by exact entry_lt_iff)

theorem columnOf_put (q : BlockQueue) (b : PendingBlock) :
    columnOf (q.put b) = (columnOf q).put (blockKey b.blockNumber, b) :=
  KeyedQueue.recode_put (by exact entry_lt_iff) q b

/-- A number of some block is needed, because a queue is erased by numbers and a column by keys. -/
theorem columnOf_erase (q : BlockQueue) (n : UInt64) :
    columnOf (q.erase n.toNat) = (columnOf q).erase (blockKey n) :=
  KeyedQueue.recode_erase (by exact entry_lt_iff) q
    { blockNumber := n, txs := [], deposits := [], forcedTxs := [], preStateRoot := Hash.default,
      postStateRoot := Hash.default }

theorem columnOf_peek (q : BlockQueue) : (columnOf q).peek.map Prod.snd = q.peek := by
  rw [columnOf, KeyedQueue.peek_recode, Option.map_map]
  exact Option.map_id_apply

namespace Disk

variable {T : Type} (d : Disk T)

/-- The store behind the queues of the process. -/
def toStore : BlockQueueStore where
  pending := columnOf d.pending
  failed := columnOf d.failed
  blockCounter := d.blockCounter.map fun n ↦ beBytes 8 n.toNat

theorem toStore_new (tree : T) : (Disk.new tree).toStore = .new := rfl

theorem toStore_commitOptimisticBlock (block : PendingBlock) (n : UInt64) :
    (d.commitOptimisticBlock block n).toStore = d.toStore.commitOptimisticBlock block n := by
  rw [toStore, commitOptimisticBlock, columnOf_put]
  rfl

theorem toStore_removePending (n : UInt64) :
    (d.removePending n).toStore = d.toStore.removePending n := by
  rw [toStore, removePending, columnOf_erase]
  rfl

theorem toStore_pushFailed (block : PendingBlock) :
    (d.pushFailed block).toStore = d.toStore.pushFailed block := by
  rw [toStore, pushFailed, columnOf_put]
  rfl

theorem peekPending_toStore : d.toStore.peekPending = d.pending.peek := columnOf_peek d.pending

theorem getBlockCounter_toStore : d.toStore.getBlockCounter = d.getBlockCounter := by
  rw [BlockQueueStore.getBlockCounter, toStore, getBlockCounter]
  cases d.blockCounter with
  | none => rfl
  | some n =>
    have hlt : n.toNat < 256 ^ 8 := n.toNat_lt
    simp only [Option.map_some, length_beBytes, if_true, beNat_beBytes, Option.getD_some]
    rw [Nat.mod_eq_of_lt hlt, UInt64.ofNat_toNat]

end Disk

/-! ## Any sequence of calls -/

/-- A call that writes to the store. -/
inductive StoreCall
  | pushPending (block : PendingBlock)
  | commitOptimisticBlock (block : PendingBlock) (nextBlockNumber : UInt64)
  | removePending (blockNumber : UInt64)
  | pushFailed (block : PendingBlock)
  | setBlockCounter (count : UInt64)

namespace StoreCall

/-- The block that is written to the pending family. -/
def written? : StoreCall → Option PendingBlock
  | pushPending block | commitOptimisticBlock block _ => some block
  | _ => none

/-- The number whose entry in the pending family is written or deleted. -/
def number? : StoreCall → Option UInt64
  | pushPending block | commitOptimisticBlock block _ => some block.blockNumber
  | removePending blockNumber => some blockNumber
  | _ => none

end StoreCall

namespace BlockQueueStore

def exec (s : BlockQueueStore) : StoreCall → BlockQueueStore
  | .pushPending block => s.pushPending block
  | .commitOptimisticBlock block n => s.commitOptimisticBlock block n
  | .removePending blockNumber => s.removePending blockNumber
  | .pushFailed block => s.pushFailed block
  | .setBlockCounter count => s.setBlockCounter count

/-- The store after some calls. -/
def after (calls : List StoreCall) : BlockQueueStore := calls.foldl exec new

theorem after_concat (calls : List StoreCall) (call : StoreCall) :
    after (calls ++ [call]) = (after calls).exec call := by
  rw [after, List.foldl_append]
  rfl

end BlockQueueStore

/-- The block was written to the pending family, and nothing has happened to its number since. -/
def StillPending (calls : List StoreCall) (block : PendingBlock) : Prop :=
  ∃ earlier call later, calls = earlier ++ call :: later ∧ call.written? = some block ∧
    ∀ x ∈ later, x.number? ≠ some block.blockNumber

theorem stillPending_nil (block : PendingBlock) : ¬ StillPending [] block := by
  rintro ⟨earlier, call, later, h, -⟩
  exact absurd h (by simp)

/-- The last call writes the block, or leaves its number alone. -/
theorem stillPending_concat {calls : List StoreCall} {call : StoreCall} {block : PendingBlock} :
    StillPending (calls ++ [call]) block ↔
      call.written? = some block ∨
        (StillPending calls block ∧ call.number? ≠ some block.blockNumber) := by
  constructor
  · rintro ⟨earlier, x, later, h, hwritten, hlater⟩
    rcases List.eq_nil_or_concat later with rfl | ⟨init, last, rfl⟩
    · obtain ⟨-, hx⟩ := List.append_inj' h rfl
      exact Or.inl ((List.singleton_inj.mp hx) ▸ hwritten)
    · rw [List.concat_eq_append] at h hlater
      have h' : calls ++ [call] = (earlier ++ x :: init) ++ [last] := by
        rw [h, List.append_assoc, List.cons_append]
      obtain ⟨hcalls, hlast⟩ := List.append_inj' h' rfl
      rw [List.forall_mem_append] at hlater
      refine Or.inr ⟨⟨earlier, x, init, hcalls, hwritten, hlater.1⟩, ?_⟩
      rw [List.singleton_inj.mp hlast]
      exact hlater.2 last (List.mem_singleton_self last)
  · rintro (hwritten | ⟨⟨earlier, x, later, rfl, hwritten, hlater⟩, hcall⟩)
    · exact ⟨calls, call, [], rfl, hwritten, by simp⟩
    · refine ⟨earlier, x, later ++ [call], by simp, hwritten, ?_⟩
      rw [List.forall_mem_append]
      exact ⟨hlater, List.forall_mem_singleton.mpr hcall⟩

namespace BlockQueueStore

/-- **One call** on the entries of the pending family. -/
theorem mem_pending_exec {s : BlockQueueStore} {call : StoreCall} {e : Bytes × PendingBlock}
    (hkey : ∀ x ∈ s.pending, x.1 = blockKey x.2.blockNumber) :
    e ∈ (s.exec call).pending ↔
      (e.1 = blockKey e.2.blockNumber ∧ call.written? = some e.2) ∨
        (e ∈ s.pending ∧ call.number? ≠ some e.2.blockNumber) := by
  have hput : ∀ block : PendingBlock, e ∈ s.pending.put (blockKey block.blockNumber, block) ↔
      (e.1 = blockKey e.2.blockNumber ∧ some block = some e.2) ∨
        (e ∈ s.pending ∧ some block.blockNumber ≠ some e.2.blockNumber) := by
    intro block
    rw [KeyedQueue.mem_put]
    refine or_congr ⟨?_, ?_⟩ (and_congr_right fun he ↦ ?_)
    · rintro rfl
      exact ⟨rfl, rfl⟩
    · rintro ⟨hfst, hblock⟩
      obtain rfl := Option.some_inj.mp hblock
      exact Prod.ext hfst rfl
    · rw [hkey e he, ne_eq, blockKey_inj, ne_eq, Option.some_inj, eq_comm]
  have hsame : e ∈ s.pending ↔ (e.1 = blockKey e.2.blockNumber ∧ none = some e.2) ∨
      (e ∈ s.pending ∧ (none : Option UInt64) ≠ some e.2.blockNumber) := by
    simp
  cases call with
  | pushPending block => exact hput block
  | commitOptimisticBlock block n => exact hput block
  | removePending blockNumber =>
    show e ∈ s.pending.erase (blockKey blockNumber) ↔ _
    rw [KeyedQueue.mem_erase]
    constructor
    · rintro ⟨he, hne⟩
      rw [hkey e he, ne_eq, blockKey_inj] at hne
      exact Or.inr ⟨he, fun heq ↦ hne (Option.some_inj.mp heq).symm⟩
    · rintro (⟨-, hwritten⟩ | ⟨he, hne⟩)
      · exact absurd hwritten (by simp [StoreCall.written?])
      · refine ⟨he, ?_⟩
        rw [hkey e he, ne_eq, blockKey_inj]
        exact fun heq ↦ hne (congrArg some heq.symm)
  | pushFailed block => exact hsame
  | setBlockCounter count => exact hsame

/-- The entries of the pending family after any calls. -/
theorem mem_pending_after (calls : List StoreCall) (e : Bytes × PendingBlock) :
    e ∈ (after calls).pending ↔ e.1 = blockKey e.2.blockNumber ∧ StillPending calls e.2 := by
  induction calls using List.reverseRecOn generalizing e with
  | nil => exact iff_of_false List.not_mem_nil fun h ↦ stillPending_nil _ h.2
  | append_singleton calls call ih =>
    rw [after_concat, mem_pending_exec fun x hx ↦ ((ih x).mp hx).1, ih, stillPending_concat,
      and_or_left, and_assoc]

theorem mem_pending_of_stillPending {calls : List StoreCall} {block : PendingBlock}
    (h : StillPending calls block) :
    (blockKey block.blockNumber, block) ∈ (after calls).pending :=
  (mem_pending_after calls _).mpr ⟨rfl, h⟩

/-- A call that is not about the pending family leaves it as it is. -/
theorem pending_exec_of_none {call : StoreCall} (h : call.number? = none) (s : BlockQueueStore) :
    (s.exec call).pending = s.pending := by
  cases call with
  | pushFailed | setBlockCounter => rfl
  | _ => exact absurd h (by simp [StoreCall.number?])

theorem pending_exec_congr {s s' : BlockQueueStore} (h : s.pending = s'.pending)
    (call : StoreCall) : (s.exec call).pending = (s'.exec call).pending := by
  cases call with
  | pushPending block | commitOptimisticBlock block n =>
    exact congrArg (fun q : Column ↦ q.put (blockKey block.blockNumber, block)) h
  | removePending n => exact congrArg (fun q : Column ↦ q.erase (blockKey n)) h
  | pushFailed | setBlockCounter => exact h

theorem pending_after_filter (calls : List StoreCall) :
    (after (calls.filter fun call ↦ call.number?.isSome)).pending = (after calls).pending := by
  induction calls using List.reverseRecOn with
  | nil => rfl
  | append_singleton calls call ih =>
    rw [List.filter_append, after_concat]
    cases hnumber : call.number? with
    | none =>
      rw [List.filter_singleton, hnumber, pending_exec_of_none hnumber, ← ih]
      exact congrArg (fun l ↦ (after l).pending) (List.append_nil _)
    | some n =>
      rw [List.filter_singleton, hnumber, ← pending_exec_congr ih, ← after_concat]
      rfl

/-- **The pending queue is a priority queue.**  After any calls, `peek_pending` returns the block
that was written last under the least number still present, and nothing exactly if none is present;
`push_failed` and `set_block_counter` make no difference. -/
theorem peek_pending_least (calls : List StoreCall) :
    (∀ block, (after calls).peekPending = some block ↔
        StillPending calls block ∧
          ∀ block', StillPending calls block' → block.blockNumber ≤ block'.blockNumber) ∧
      ((after calls).peekPending = none ↔ ∀ block, ¬ StillPending calls block) ∧
      (after (calls.filter fun call ↦ call.number?.isSome)).peekPending
        = (after calls).peekPending := by
  refine ⟨fun block ↦ ?_, ?_, ?_⟩
  · rw [peekPending, Option.map_eq_some_iff]
    constructor
    · rintro ⟨e, he, rfl⟩
      obtain ⟨hmem, hleast⟩ := KeyedQueue.peek_eq_some_iff.mp he
      obtain ⟨hkey, hpending⟩ := (mem_pending_after calls e).mp hmem
      refine ⟨hpending, fun block' hblock' ↦ ?_⟩
      rw [← blockKey_le, ← hkey]
      exact hleast _ (mem_pending_of_stillPending hblock')
    · rintro ⟨hpending, hleast⟩
      refine ⟨_, KeyedQueue.peek_eq_some_iff.mpr
        ⟨mem_pending_of_stillPending hpending, fun e he ↦ ?_⟩, rfl⟩
      obtain ⟨hkey, hpending'⟩ := (mem_pending_after calls e).mp he
      rw [hkey, blockKey_le]
      exact hleast e.2 hpending'
  · rw [peekPending, Option.map_eq_none_iff, KeyedQueue.peek_eq_none_iff]
    constructor
    · exact fun hnone block hblock ↦ hnone _ (mem_pending_of_stillPending hblock)
    · exact fun hnone e he ↦ hnone e.2 ((mem_pending_after calls e).mp he).2
  · rw [peekPending, pending_after_filter, peekPending]

end BlockQueueStore

end TinyRollup
