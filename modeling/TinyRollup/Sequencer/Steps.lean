import TinyRollup.Bridge.Steps
import TinyRollup.Sequencer.System

/-!
# What a step of the sequencer does

`Fetch.next_spec` says what a fetch has read when it is through: the entries of its queue from the
processed counter on, as it was when the fetch began.

`Move` lists what a step can do to the optimistic worker and to what it works on, and `step_move`
says that every step is one of these, so that an invariant of the worker has to be checked for eight
moves.
-/

set_option autoImplicit false

namespace TinyRollup

open ByteString Word Stf

/-! ## What a fetch has read -/

/-- The items are the entries of the queue from a position on. -/
def ReadAt {α β : Type} (queue : List β) (convert : β → Run Unit α) (first : ℕ) (items : List α) :
    Prop :=
  ∀ (i : ℕ) (x : α), items[i]? = some x → ∃ e, queue[first + i]? = some e ∧ convert e = .ok x

theorem ReadAt.mono {α β : Type} {queue queue' : List β} {convert : β → Run Unit α} {first : ℕ}
    {items : List α} (h : ReadAt queue convert first items) (hpre : queue <+: queue') :
    ReadAt queue' convert first items := by
  intro i x hx
  obtain ⟨e, he, hconvert⟩ := h i x hx
  obtain ⟨rest, rfl⟩ := hpre
  obtain ⟨hlt, -⟩ := List.getElem?_eq_some_iff.mp he
  exact ⟨e, by rw [List.getElem?_append_left hlt, he], hconvert⟩

theorem toU64_eq_some {x : U256} {y : UInt64}
    (h : (toU64 x : Run Unit UInt64).toOption = some y) : y.toNat = x.toNat := by
  rw [toU64] at h
  split at h
  · rename_i hlt
    rw [← Option.some_inj.mp h, UInt64.toNat_ofNat']
    exact Nat.mod_eq_of_lt hlt
  · exact absurd h (by simp [Run.panic, Except.toOption])

theorem u256_toNat (x : UInt64) : (u256 x).toNat = x.toNat := by
  rw [u256, BitVec.toNat_ofNat, Nat.mod_eq_of_lt]
  exact Nat.lt_of_lt_of_le x.toNat_lt (by decide)

/-- What `getDeposits` and `getForcedTransactions` return. -/
theorem readRange_spec {α : Type} {queue : List α} {queueCount processed start count : U256}
    {items : List α} (hcounted : Bridge.QueueCounted queue queueCount processed)
    (h : ((checkedAdd start count).bind fun last ↦
      if last.toNat ≤ queueCount.toNat then Bridge.readSlice queue start count else none)
        = some items) :
    items = (queue.drop start.toNat).take count.toNat := by
  obtain ⟨last, hlast, h⟩ := Option.bind_eq_some_iff.mp h
  split at h
  · rename_i hle
    rw [toNat_of_checkedAdd hlast, hcounted.count] at hle
    rw [Bridge.readSlice, Bridge.readSlice_eq queue _ _ hle] at h
    exact (Option.some_inj.mp h).symm
  · exact absurd h (by simp)

namespace Fetch

variable {α β : Type}

/-- The items of a fetch that is through. -/
def ReadFrom (queue : List β) (convert : β → Run Unit α) : Fetch α → Prop
  | .done p items => ReadAt queue convert p.toNat items
  | _ => True

/-- The processed counter, once it was read. -/
def processedCount? : Fetch α → Option UInt64
  | .start => none
  | .processed p | .counted p _ | .done p _ => some p

theorem ReadFrom.mono {queue queue' : List β} {convert : β → Run Unit α} {f : Fetch α}
    (h : f.ReadFrom queue convert) (hpre : queue <+: queue') : f.ReadFrom queue' convert := by
  cases f with
  | done p items => exact ReadAt.mono h hpre
  | _ => trivial

/-- One request of a fetch: the first one reads the processed counter, and the last one the entries
from there on. -/
theorem next_spec {processedCount l1Count : U256} {queue : List β} {convert : β → Run Unit α}
    {getRange : U256 → U256 → Option (List β)}
    (hrange : ∀ start count items, getRange start count = some items →
      items = (queue.drop start.toNat).take count.toNat) {f f' : Fetch α}
    (h : f.next processedCount l1Count getRange convert = some f') :
    f'.ReadFrom queue convert ∧
      (f'.processedCount? = f.processedCount? ∨
        f = .start ∧ ∀ p, f'.processedCount? = some p → p.toNat = processedCount.toNat) := by
  cases f with
  | start =>
    obtain ⟨p, hp, rfl⟩ := Option.map_eq_some_iff.mp h
    refine ⟨trivial, Or.inr ⟨rfl, fun q hq ↦ ?_⟩⟩
    obtain rfl := Option.some_inj.mp hq
    exact toU64_eq_some hp
  | processed p =>
    obtain ⟨n, -, rfl⟩ := Option.map_eq_some_iff.mp h
    exact ⟨trivial, Or.inl rfl⟩
  | counted p n =>
    rw [next] at h
    split at h
    · obtain ⟨fromL1, hfrom, h⟩ := Option.bind_eq_some_iff.mp h
      obtain ⟨items, hitems, h⟩ := Option.bind_eq_some_iff.mp h
      obtain rfl := Option.some_inj.mp h
      refine ⟨fun i x hx ↦ ?_, Or.inl rfl⟩
      have hmapM : fromL1.mapM convert = .ok items := by
        cases hmap : fromL1.mapM convert with
        | error e => exact absurd (hmap ▸ hitems) (by simp [Except.toOption])
        | ok items' =>
          rw [hmap] at hitems
          exact congrArg Except.ok (Option.some_inj.mp hitems)
      obtain ⟨e, he, hconvert⟩ := Run.mapM_eq_ok hmapM i x hx
      rw [hrange _ _ _ hfrom, u256_toNat, u256_toNat] at he
      refine ⟨e, ?_, hconvert⟩
      rw [List.getElem?_take] at he
      split at he
      · rwa [List.getElem?_drop] at he
      · exact absurd he (by simp)
    · obtain rfl := Option.some_inj.mp h
      exact ⟨fun i x hx ↦ absurd hx (by simp), Or.inl rfl⟩
  | done p items => exact absurd h (by simp [next])

end Fetch

theorem fetchNewDeposits_spec {l1 : Bridge} (hcounted : l1.Counted) {f f' : Fetch Deposit}
    (h : fetchNewDeposits l1 f = some f') : f'.ReadFrom l1.pendingDeposits toDeposit :=
  (Fetch.next_spec (fun _ _ _ hget ↦ readRange_spec hcounted.deposits hget) h).1

theorem fetchNewForcedTxs_spec {bincode : Bincode} {l1 : Bridge} (hcounted : l1.Counted)
    {f f' : Fetch ForcedTx} (h : fetchNewForcedTxs bincode l1 f = some f') :
    f'.ReadFrom l1.forcedTransactions (toForcedTx bincode) ∧
      (f'.processedCount? = f.processedCount? ∨
        f = .start ∧ ∀ p, f'.processedCount? = some p →
          p.toNat = l1.processedForcedTxCount.toNat) :=
  Fetch.next_spec (fun _ _ _ hget ↦ readRange_spec hcounted.forcedTxs hget) h

/-! ## What a step does to the optimistic worker -/

section

variable {T : Type} (env : Deployment) (m : Monotree T) (bincode : Bincode)

/-- The steps as the optimistic worker sees them. -/
inductive Move (e : Event) : System T → System T → Prop
  /-- L1, the mempool or the prover. -/
  | elsewhere {s s' : System T} (hl1 : Bridge.Steps env s.l1 s'.l1) (htree : s'.tree = s.tree)
      (hheadroot : s'.headroot = s.headroot) (hoptimistic : s'.optimistic = s.optimistic)
      (hworker : s'.worker = s.worker) (hcommitted : s'.committed = s.committed) : Move e s s'
  | tick {s : System T} (hworker : s.worker = .sleeping) :
      Move e s { s with worker := .fetching .start .start }
  | fetchDeposits {s : System T} {d d' : Fetch Deposit} {f : Fetch ForcedTx}
      (hworker : s.worker = .fetching d f) (hnext : fetchNewDeposits s.l1 d = some d') :
      Move e s { s with worker := .fetching d' f }
  | fetchForcedTxs {s : System T} {d : Fetch Deposit} {f f' : Fetch ForcedTx}
      (he : e = .fetchForcedTxs) (hworker : s.worker = .fetching d f)
      (hnext : fetchNewForcedTxs bincode s.l1 f = some f') :
      Move e s { s with worker := .fetching d f' }
  | nothingNew {s : System T} {d : Fetch Deposit} {f : Fetch ForcedTx}
      (hworker : s.worker = .fetching d f) : Move e s { s with worker := .sleeping }
  | made {s : System T} {p q : UInt64} {deposits : List Deposit} {forcedTxs : List ForcedTx}
      {order : IterOrder} {root : Hash} {tree : T} {blockCounter : UInt64}
      (hworker : s.worker = .fetching (.done p deposits) (.done q forcedTxs))
      (hbatch : applyOptimisticBatch (Core.getAccount m bincode) m env.crypto order s.tree
        (some s.optimistic) s.mempool deposits forcedTxs = (.ok root, tree)) :
      Move e s { s with
        tree
        headroot := root
        blockCounter
        worker := .made
          { block := s.nextBlock deposits forcedTxs root
            firstDeposit := p.toNat
            firstForced := q.toNat } }
  | committed {s : System T} {b : Included} (hworker : s.worker = .made b) :
      Move e s { s with
        optimistic := b.block.postStateRoot
        mempool := s.mempool.drop b.block.txs.length
        pending := s.pending ++ [b.block]
        committed := s.committed ++ [b]
        worker := .sleeping }
  /-- The worker is gone, possibly in the middle of a batch. -/
  | died {s s' : System T} (hl1 : s'.l1 = s.l1)
      (htree : s'.tree = s.tree ∨ BatchOn m bincode env.crypto s.tree s'.tree)
      (hheadroot : s'.headroot = s.headroot) (hworker : s'.worker = .dead)
      (hcommitted : s'.committed = s.committed) : Move e s s'

end

section

variable {T : Type} {env : Deployment} {m : Monotree T} {bincode : Bincode} {e : Event}
  {s s' : System T}

theorem callL1_steps (call : Call) : Bridge.Steps env s.l1 (s.callL1 env call).l1 := by
  rw [System.callL1]
  cases h : s.l1.exec env call with
  | none => exact .refl
  | some l1 => exact Bridge.exec_steps env call _ _ h

theorem move_attemptFails (block : PendingBlock) (retries : ℕ) (poisoned : Bool) :
    Move env m bincode e s ({ s with poisoned }.attemptFails block retries) := by
  rw [System.attemptFails]
  split
  · exact .elsewhere .refl rfl rfl rfl rfl rfl
  · exact .elsewhere .refl rfl rfl rfl rfl rfl

theorem move_fetchDeposits (h : s.fetchDeposits = some s') : Move env m bincode e s s' := by
  rw [System.fetchDeposits] at h
  split at h
  · rename_i d f hworker
    split at h
    · exact absurd h (by simp)
    · rename_i hnext
      rw [← Option.some_inj.mp h]
      exact .fetchDeposits hworker hnext
    · rw [← Option.some_inj.mp h]
      exact .died rfl (Or.inl rfl) rfl rfl rfl
  · exact absurd h (by simp)

theorem move_fetchForcedTxs (h : s.fetchForcedTxs bincode = some s') :
    Move env m bincode .fetchForcedTxs s s' := by
  rw [System.fetchForcedTxs] at h
  split at h
  · rename_i d f hworker
    split at h
    · exact absurd h (by simp)
    · rename_i hnext
      rw [← Option.some_inj.mp h]
      exact .fetchForcedTxs rfl hworker hnext
    · rw [← Option.some_inj.mp h]
      exact .died rfl (Or.inl rfl) rfl rfl rfl
  · exact absurd h (by simp)

theorem move_makeBlock {order : IterOrder} (h : s.makeBlock env m bincode order = some s') :
    Move env m bincode e s s' := by
  rw [System.makeBlock] at h
  split at h
  swap
  · exact absurd h (by simp)
  rename_i p deposits q forcedTxs hworker
  split at h
  · rw [← Option.some_inj.mp h]
    exact .nothingNew hworker
  split at h
  · rw [← Option.some_inj.mp h]
    exact .died rfl (Or.inl rfl) rfl rfl rfl
  split at h
  · rename_i root tree hbatch
    rw [← Option.some_inj.mp h]
    exact .made hworker hbatch
  · rename_i e tree hbatch
    rw [← Option.some_inj.mp h]
    exact .died rfl (Or.inr ⟨order, _, _, _, _, congrArg Prod.snd hbatch⟩) rfl rfl rfl
  · rename_i msg tree hbatch
    rw [← Option.some_inj.mp h]
    exact .died rfl (Or.inr ⟨order, _, _, _, _, congrArg Prod.snd hbatch⟩) rfl rfl rfl

theorem move_workerFails : Move env m bincode e s s.workerFails := by
  rw [System.workerFails]
  split
  · exact .died rfl (Or.inl rfl) rfl rfl rfl
  · exact .died rfl (Or.inl rfl) rfl rfl rfl

theorem move_processAndProve {proofBytes : Bytes}
    (h : s.processAndProve env m bincode proofBytes = some s') : Move env m bincode e s s' := by
  rw [System.processAndProve] at h
  split at h
  swap
  · exact absurd h (by simp)
  split at h
  · rw [← Option.some_inj.mp h]
    exact move_attemptFails _ _ s.poisoned
  split at h
  · rw [← Option.some_inj.mp h]
    exact move_attemptFails _ _ true
  · rw [← Option.some_inj.mp h]
    exact move_attemptFails _ _ s.poisoned
  split at h
  · rw [← Option.some_inj.mp h]
    exact move_attemptFails _ _ s.poisoned
  · rw [← Option.some_inj.mp h]
    exact .elsewhere .refl rfl rfl rfl rfl rfl

/-- **Every step is a move.** -/
theorem step_move (h : s.step env m bincode e = some s') : Move env m bincode e s s' := by
  cases e with
  | callL1 call =>
    rw [← Option.some_inj.mp h]
    exact .elsewhere (callL1_steps call) rfl rfl rfl rfl rfl
  | mine i =>
    simp only [System.step, System.mine] at h
    split at h
    · rw [← Option.some_inj.mp h]
      exact .elsewhere (callL1_steps _) rfl rfl rfl rfl rfl
    · exact absurd h (by simp)
  | submitTx tx =>
    rw [← Option.some_inj.mp h]
    exact .elsewhere .refl rfl rfl rfl rfl rfl
  | tick =>
    simp only [System.step] at h
    split at h
    · rename_i hworker
      rw [← Option.some_inj.mp h]
      exact .tick hworker
    · exact absurd h (by simp)
  | fetchDeposits => exact move_fetchDeposits h
  | fetchForcedTxs => exact move_fetchForcedTxs h
  | makeBlock order => exact move_makeBlock h
  | commitOptimisticBlock =>
    simp only [System.step, System.commitOptimisticBlock] at h
    split at h
    · rename_i hworker
      rw [← Option.some_inj.mp h]
      exact .committed hworker
    · exact absurd h (by simp)
  | workerFails =>
    rw [← Option.some_inj.mp h]
    exact move_workerFails
  | peekPending =>
    simp only [System.step, System.peekPending] at h
    split at h
    · rw [← Option.some_inj.mp h]
      exact .elsewhere .refl rfl rfl rfl rfl rfl
    · exact absurd h (by simp)
  | processAndProve proofBytes => exact move_processAndProve h
  | confirm =>
    simp only [System.step, System.confirm] at h
    split at h
    · split at h
      · rw [← Option.some_inj.mp h]
        exact .elsewhere .refl rfl rfl rfl rfl rfl
      · exact absurd h (by simp)
    · exact absurd h (by simp)
  | proverFails =>
    simp only [System.step, System.proverFails] at h
    split at h
    · rw [← Option.some_inj.mp h]
      exact move_attemptFails _ _ s.poisoned
    · rw [← Option.some_inj.mp h]
      exact move_attemptFails _ _ s.poisoned
    · exact absurd h (by simp)
  | proverDies =>
    rw [← Option.some_inj.mp h]
    exact .elsewhere .refl rfl rfl rfl rfl rfl

end

end TinyRollup
