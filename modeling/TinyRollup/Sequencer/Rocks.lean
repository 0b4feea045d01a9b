import TinyRollup.Core.Serialize
import TinyRollup.Sequencer.Store

/-!
# The bytes of the block queue store

The same store one level down: a RocksDB with three column families of byte strings.  A block is
written as the bytes of its format and has to be read back from them, which `peek_pending` may fail
to do.

`after_eq_toRocks` says that this store is the store of blocks, byte for byte, after any calls, and
`rocks_after` that what it returns is what was written.
-/

set_option autoImplicit false

namespace TinyRollup

open ByteString Codec Stf

/-- A column family. -/
abbrev ColumnFamily := KeyedQueue fun e : Bytes × Bytes ↦ e.1

structure RocksDb where
  metaCf : ColumnFamily
  pendingCf : ColumnFamily
  failedCf : ColumnFamily

namespace RocksDb

/-- `b"block_counter"`. -/
def counterKey : Bytes := "block_counter".toUTF8.toList

/-- `open_db` on an empty directory. -/
def openDb : RocksDb := ⟨.empty, .empty, .empty⟩

/-- The key and the value of a block. -/
def entry (block : PendingBlock) : Bytes × Bytes :=
  (blockKey block.blockNumber, PendingBlock.codec.encode block)

def counterEntry (count : UInt64) : Bytes × Bytes := (counterKey, beBytes 8 count.toNat)

def pushPending (db : RocksDb) (block : PendingBlock) : RocksDb :=
  { db with pendingCf := db.pendingCf.put (entry block) }

def peekPending (db : RocksDb) : Except String (Option PendingBlock) :=
  match db.pendingCf.peek with
  | some (_, value) =>
    match PendingBlock.codec.read value with
    | some block => .ok (some block)
    | none => .error "failed to deserialize block"
  | none => .ok none

def removePending (db : RocksDb) (blockNumber : UInt64) : RocksDb :=
  { db with pendingCf := db.pendingCf.erase (blockKey blockNumber) }

def pushFailed (db : RocksDb) (block : PendingBlock) : RocksDb :=
  { db with failedCf := db.failedCf.put (entry block) }

/-- `u64::from_be_bytes(value.try_into().unwrap_or_default())`. -/
def getBlockCounter (db : RocksDb) : UInt64 :=
  match db.metaCf.get counterKey with
  | some (_, value) => if value.length = 8 then UInt64.ofNat (beNat value) else 0
  | none => 0

def setBlockCounter (db : RocksDb) (count : UInt64) : RocksDb :=
  { db with metaCf := db.metaCf.put (counterEntry count) }

/-- One batch of two writes. -/
def commitOptimisticBlock (db : RocksDb) (block : PendingBlock) (nextBlockNumber : UInt64) :
    RocksDb :=
  { db with
    pendingCf := db.pendingCf.put (entry block)
    metaCf := db.metaCf.put (counterEntry nextBlockNumber) }

def exec (db : RocksDb) : StoreCall → RocksDb
  | .pushPending block => db.pushPending block
  | .commitOptimisticBlock block n => db.commitOptimisticBlock block n
  | .removePending blockNumber => db.removePending blockNumber
  | .pushFailed block => db.pushFailed block
  | .setBlockCounter count => db.setBlockCounter count

/-- The database after some calls. -/
def after (calls : List StoreCall) : RocksDb := calls.foldl exec openDb

theorem after_concat (calls : List StoreCall) (call : StoreCall) :
    after (calls ++ [call]) = (after calls).exec call := by
  rw [after, List.foldl_append]
  rfl

end RocksDb

namespace StoreCall

/-- The block that is serialized. -/
def block? : StoreCall → Option PendingBlock
  | pushPending block | commitOptimisticBlock block _ | pushFailed block => some block
  | _ => none

/-- The number that is written under the counter key. -/
def counter? : StoreCall → Option UInt64
  | commitOptimisticBlock _ n | setBlockCounter n => some n
  | _ => none

end StoreCall

/-! ## The store of blocks and the store of bytes -/

theorem entry_fst_lt (a b : Bytes × PendingBlock) :
    @LT.lt Bytes Preorder.toLT (a.1, PendingBlock.codec.encode a.2).1
      (b.1, PendingBlock.codec.encode b.2).1 ↔ @LT.lt Bytes Preorder.toLT a.1 b.1 :=
  Iff.rfl

/-- A column of blocks as it is stored. -/
def Column.bytes (q : Column) : ColumnFamily :=
  q.recode (fun e ↦ (e.1, PendingBlock.codec.encode e.2)) (by exact entry_fst_lt)

theorem Column.bytes_put (q : Column) (block : PendingBlock) :
    Column.bytes (q.put (blockKey block.blockNumber, block))
      = (Column.bytes q).put (RocksDb.entry block) :=
  KeyedQueue.recode_put (by exact entry_fst_lt) q _

theorem Column.bytes_erase (q : Column) (n : UInt64) :
    Column.bytes (q.erase (blockKey n)) = (Column.bytes q).erase (blockKey n) :=
  KeyedQueue.recode_erase (by exact entry_fst_lt) q
    (blockKey n, ⟨n, [], [], [], Hash.default, Hash.default⟩)

namespace BlockQueueStore

/-- The database behind the store. -/
def toRocks (s : BlockQueueStore) : RocksDb where
  metaCf :=
    match s.blockCounter with
    | some value => KeyedQueue.empty.put (RocksDb.counterKey, value)
    | none => .empty
  pendingCf := Column.bytes s.pending
  failedCf := Column.bytes s.failed

theorem metaCf_put (s : BlockQueueStore) (value : Bytes) :
    s.toRocks.metaCf.put (RocksDb.counterKey, value)
      = KeyedQueue.empty.put (RocksDb.counterKey, value) := by
  rw [toRocks]
  cases s.blockCounter with
  | none => rfl
  | some old =>
    refine KeyedQueue.ext ?_
    show KeyedQueue.insertItem _ (RocksDb.counterKey, value) [(RocksDb.counterKey, old)] = _
    rw [KeyedQueue.insertItem, if_neg (lt_irrefl _), if_pos rfl]
    rfl

/-- **One call** on the blocks is the call on the bytes. -/
theorem toRocks_exec (s : BlockQueueStore) (call : StoreCall) :
    (s.exec call).toRocks = s.toRocks.exec call := by
  cases call with
  | pushPending block =>
    show RocksDb.mk _ (Column.bytes (s.pending.put _)) _ = _
    rw [Column.bytes_put]
    rfl
  | commitOptimisticBlock block n =>
    show RocksDb.mk _ (Column.bytes (s.pending.put _)) _ = RocksDb.mk (s.toRocks.metaCf.put _) _ _
    rw [Column.bytes_put, RocksDb.counterEntry, metaCf_put]
    rfl
  | removePending n =>
    show RocksDb.mk _ (Column.bytes (s.pending.erase _)) _ = _
    rw [Column.bytes_erase]
    rfl
  | pushFailed block =>
    show RocksDb.mk _ _ (Column.bytes (s.failed.put _)) = _
    rw [Column.bytes_put]
    rfl
  | setBlockCounter count =>
    show _ = RocksDb.mk (s.toRocks.metaCf.put _) _ _
    rw [RocksDb.counterEntry, metaCf_put]
    rfl

theorem after_eq_toRocks (calls : List StoreCall) :
    RocksDb.after calls = (after calls).toRocks := by
  induction calls using List.reverseRecOn with
  | nil => rfl
  | append_singleton calls call ih =>
    rw [RocksDb.after_concat, ih, ← toRocks_exec, ← after_concat]

/-! ## What is in the store -/

/-- The entry was written by one of the calls. -/
def WrittenBy (calls : List StoreCall) (e : Bytes × PendingBlock) : Prop :=
  e.1 = blockKey e.2.blockNumber ∧ ∃ call ∈ calls, call.block? = some e.2

theorem WrittenBy.concat {calls : List StoreCall} {e : Bytes × PendingBlock}
    (h : WrittenBy calls e) (call : StoreCall) : WrittenBy (calls ++ [call]) e := by
  obtain ⟨hkey, x, hx, hblock⟩ := h
  exact ⟨hkey, x, List.mem_append_left _ hx, hblock⟩

theorem writtenBy_last {calls : List StoreCall} {call : StoreCall} {block : PendingBlock}
    (h : call.block? = some block) :
    WrittenBy (calls ++ [call]) (blockKey block.blockNumber, block) :=
  ⟨rfl, call, List.mem_append_right _ (List.mem_singleton_self call), h⟩

/-- A call writes at most its own block to either family. -/
theorem mem_exec {s : BlockQueueStore} {call : StoreCall} {e : Bytes × PendingBlock}
    (h : e ∈ (s.exec call).pending ∨ e ∈ (s.exec call).failed) :
    (e ∈ s.pending ∨ e ∈ s.failed) ∨
      ∃ block, call.block? = some block ∧ e = (blockKey block.blockNumber, block) := by
  cases call with
  | pushPending block | commitOptimisticBlock block _ =>
    rcases h with h | h
    · rcases KeyedQueue.mem_put.mp h with rfl | ⟨h, -⟩
      · exact Or.inr ⟨block, rfl, rfl⟩
      · exact Or.inl (Or.inl h)
    · exact Or.inl (Or.inr h)
  | removePending n =>
    rcases h with h | h
    · exact Or.inl (Or.inl (KeyedQueue.mem_erase.mp h).1)
    · exact Or.inl (Or.inr h)
  | pushFailed block =>
    rcases h with h | h
    · exact Or.inl (Or.inl h)
    · rcases KeyedQueue.mem_put.mp h with rfl | ⟨h, -⟩
      · exact Or.inr ⟨block, rfl, rfl⟩
      · exact Or.inl (Or.inr h)
  | setBlockCounter count => exact Or.inl h

theorem writtenBy_after (calls : List StoreCall) {e : Bytes × PendingBlock}
    (h : e ∈ (after calls).pending ∨ e ∈ (after calls).failed) : WrittenBy calls e := by
  induction calls using List.reverseRecOn with
  | nil => exact absurd (h.elim id id) List.not_mem_nil
  | append_singleton calls call ih =>
    rw [after_concat] at h
    rcases mem_exec h with h | ⟨block, hblock, rfl⟩
    · exact (ih h).concat call
    · exact writtenBy_last hblock

/-- The counter is what was written under it last. -/
theorem blockCounter_after (calls : List StoreCall) :
    (after calls).blockCounter
      = (calls.filterMap StoreCall.counter?).getLast?.map fun n ↦ beBytes 8 n.toNat := by
  induction calls using List.reverseRecOn with
  | nil => rfl
  | append_singleton calls call ih =>
    rw [after_concat, List.filterMap_append]
    cases call with
    | commitOptimisticBlock _ n | setBlockCounter n =>
      rw [List.getLast?_append]
      rfl
    | pushPending | removePending | pushFailed =>
      show (after calls).blockCounter = _
      rw [ih]
      exact congrArg (fun l : List UInt64 ↦ l.getLast?.map _) (List.append_nil _).symm

theorem getBlockCounter_toRocks (s : BlockQueueStore) :
    s.toRocks.getBlockCounter = s.getBlockCounter := by
  rw [RocksDb.getBlockCounter, getBlockCounter, toRocks]
  cases s.blockCounter with
  | none => rfl
  | some value =>
    have hget : (KeyedQueue.empty.put (RocksDb.counterKey, value) : ColumnFamily).get
        RocksDb.counterKey = some (RocksDb.counterKey, value) :=
      KeyedQueue.get_put_self _ (RocksDb.counterKey, value)
    rw [hget]

end BlockQueueStore

open BlockQueueStore in
/-- **The bytes of the store read back.**  After any calls, `peek_pending` deserializes without an
error and returns what the store of blocks returns, every value of the two block families is the
bytes of a block that was written under its number, and the counter is the one written last. -/
theorem rocks_after {calls : List StoreCall}
    (h : ∀ call ∈ calls, ∀ block, call.block? = some block → block.Sized) :
    (RocksDb.after calls).peekPending = .ok (after calls).peekPending ∧
      (∀ e, e ∈ (RocksDb.after calls).pendingCf ∨ e ∈ (RocksDb.after calls).failedCf →
        ∃ block, PendingBlock.codec.read e.2 = some block ∧ e.1 = blockKey block.blockNumber ∧
          ∃ call ∈ calls, call.block? = some block) ∧
      (RocksDb.after calls).getBlockCounter
        = (calls.filterMap StoreCall.counter?).getLast?.getD 0 := by
  have hread : ∀ e, e ∈ (after calls).pending ∨ e ∈ (after calls).failed →
      PendingBlock.codec.read (PendingBlock.codec.encode e.2) = some e.2 := by
    intro e he
    obtain ⟨-, call, hcall, hblock⟩ := writtenBy_after calls he
    exact read_encode (PendingBlock.codec_valid_iff.mpr (h call hcall e.2 hblock))
  rw [after_eq_toRocks]
  refine ⟨?_, ?_, ?_⟩
  · rw [RocksDb.peekPending, peekPending, toRocks]
    have hpeek : (Column.bytes (after calls).pending).peek
        = (after calls).pending.peek.map fun e ↦ (e.1, PendingBlock.codec.encode e.2) :=
      KeyedQueue.peek_recode (by exact entry_fst_lt) _
    rw [hpeek]
    cases hfirst : (after calls).pending.peek with
    | none => rfl
    | some e =>
      simp only [Option.map_some, hread e (Or.inl (KeyedQueue.mem_of_peek hfirst))]
  · have hbytes : ∀ {q : Column} {e : Bytes × Bytes}, e ∈ Column.bytes q →
        ∃ x ∈ q, (x.1, PendingBlock.codec.encode x.2) = e := fun he ↦ List.mem_map.mp he
    rintro e (he | he)
    · obtain ⟨x, hx, rfl⟩ := hbytes he
      obtain ⟨hkey, hcall⟩ := writtenBy_after calls (Or.inl hx)
      exact ⟨x.2, hread x (Or.inl hx), hkey, hcall⟩
    · obtain ⟨x, hx, rfl⟩ := hbytes he
      obtain ⟨hkey, hcall⟩ := writtenBy_after calls (Or.inr hx)
      exact ⟨x.2, hread x (Or.inr hx), hkey, hcall⟩
  · rw [getBlockCounter_toRocks, getBlockCounter, blockCounter_after]
    cases (calls.filterMap StoreCall.counter?).getLast? with
    | none => rfl
    | some n =>
      have hlt : n.toNat < 256 ^ 8 := n.toNat_lt
      simp only [Option.map_some, length_beBytes, if_true, beNat_beBytes, Option.getD_some]
      rw [Nat.mod_eq_of_lt hlt, UInt64.ofNat_toNat]

namespace OneBlock

/-- A block with one forced transaction of three bytes. -/
def block : PendingBlock where
  blockNumber := 7
  txs := []
  deposits := []
  forcedTxs := [⟨Hash.ofByte 1, Hash.ofByte 2, 0, 1, 5, 9, [1, 2, 3]⟩]
  preStateRoot := Hash.default
  postStateRoot := Hash.ofByte 3

abbrev calls : List StoreCall := [.commitOptimisticBlock block 8, .pushFailed block]

theorem sized : ∀ call ∈ calls, ∀ b, call.block? = some b → b.Sized := by
  have hblock : block.Sized := ⟨by decide, by decide, by decide, by decide⟩
  intro call hcall b hb
  rcases List.mem_pair.mp hcall with rfl | rfl
  · exact Option.some_inj.mp hb ▸ hblock
  · exact Option.some_inj.mp hb ▸ hblock

end OneBlock

open OneBlock in
theorem rocks_after_one_block : (RocksDb.after calls).peekPending = .ok (some block) ∧
    (RocksDb.after calls).getBlockCounter = 8 :=
  ⟨(rocks_after sized).1, (rocks_after sized).2.2⟩

end TinyRollup
