import TinyRollup.Sequencer.Steps

/-!
# The entries of the L1 queues in the blocks

Each entry of an L1 queue should be in at most one of the blocks that the optimistic worker commits.
A tick reads the entries from the processed counter on, and the counter only moves when a proof is
mined.  A tick that comes before reads the entries of the last block again.

For forced transactions that is all there is to it: by `entries_enter_once` no entry enters twice in
a run in which every tick finds the entries of the earlier blocks processed, `Settled`.  For
deposits no entry enters twice in any run, `deposits_enter_once`, and for no good reason: the second
block would credit an account that is in the tree, which the executor cannot read, so the block is
not made.
-/

set_option autoImplicit false

namespace TinyRollup

open ByteString Word Stf

/-! ## The entries of a block -/

namespace Included

/-- The block has the deposit at this position of the queue. -/
def HasDeposit (b : Included) (i : ℕ) : Prop :=
  b.firstDeposit ≤ i ∧ i < b.firstDeposit + b.block.deposits.length

/-- The block has the forced transaction at this position of the queue. -/
def HasForced (b : Included) (i : ℕ) : Prop :=
  b.firstForced ≤ i ∧ i < b.firstForced + b.block.forcedTxs.length

/-- The entries of the block are those of the queues at its positions. -/
structure FromL1 (bincode : Bincode) (l1 : Bridge) (b : Included) : Prop where
  deposits : ReadAt l1.pendingDeposits toDeposit b.firstDeposit b.block.deposits
  forcedTxs : ReadAt l1.forcedTransactions (toForcedTx bincode) b.firstForced b.block.forcedTxs

theorem FromL1.mono {bincode : Bincode} {l1 l1' : Bridge} {b : Included} (h : b.FromL1 bincode l1)
    (hext : Bridge.Extends l1 l1') : b.FromL1 bincode l1' :=
  ⟨h.deposits.mono hext.deposits, h.forcedTxs.mono hext.forcedTxs⟩

end Included

/-- Nothing enters the chain of blocks twice. -/
def DepositsOnce (blocks : List Included) : Prop :=
  blocks.Pairwise fun b b' ↦ ∀ i, ¬ (b.HasDeposit i ∧ b'.HasDeposit i)

def ForcedOnce (blocks : List Included) : Prop :=
  blocks.Pairwise fun b b' ↦ ∀ i, ¬ (b.HasForced i ∧ b'.HasForced i)

/-- The block that was made and is not committed yet. -/
def Worker.made? : Worker → List Included
  | .made b => [b]
  | .sleeping | .fetching _ _ | .dead => []

def System.blocks {T : Type} (s : System T) : List Included := s.committed ++ s.worker.made?

/-- A deposit of a block is the deposit that the entry of the queue says. -/
theorem Included.FromL1.deposit_eq {bincode : Bincode} {l1 : Bridge} {b b' : Included} {i : ℕ}
    (h : b.FromL1 bincode l1) (h' : b'.FromL1 bincode l1) (hi : b.HasDeposit i)
    (hi' : b'.HasDeposit i) : ∃ d ∈ b.block.deposits, d ∈ b'.block.deposits := by
  obtain ⟨hle, hlt⟩ := hi
  obtain ⟨hle', hlt'⟩ := hi'
  have hd := List.getElem?_eq_getElem (l := b.block.deposits) (i := i - b.firstDeposit) (by omega)
  have hd' :=
    List.getElem?_eq_getElem (l := b'.block.deposits) (i := i - b'.firstDeposit) (by omega)
  obtain ⟨e, he, hconvert⟩ := h.deposits _ _ hd
  obtain ⟨e', he', hconvert'⟩ := h'.deposits _ _ hd'
  rw [Nat.add_sub_cancel' hle] at he
  rw [Nat.add_sub_cancel' hle'] at he'
  obtain rfl := Option.some_inj.mp (he.symm.trans he')
  have hsame := Except.ok.inj (hconvert.symm.trans hconvert')
  exact ⟨_, List.mem_of_getElem? hd, hsame ▸ List.mem_of_getElem? hd'⟩

/-! ## Where the entries come from -/

section

variable {T : Type} {env : Deployment} {m : Monotree T} {bincode : Bincode}
  {laws : MonotreeLaws m} {c : Crypto} {e : Event} {s s' : System T}

/-- What the worker has fetched so far. -/
def Worker.Reads (bincode : Bincode) (l1 : Bridge) : Worker → Prop
  | .fetching d f =>
    d.ReadFrom l1.pendingDeposits toDeposit ∧
      f.ReadFrom l1.forcedTransactions (toForcedTx bincode)
  | .sleeping | .made _ | .dead => True

theorem Worker.Reads.mono {l1 l1' : Bridge} {w : Worker} (h : w.Reads bincode l1)
    (hext : Bridge.Extends l1 l1') : w.Reads bincode l1' := by
  cases w with
  | fetching d f => exact ⟨h.1.mono hext.deposits, h.2.mono hext.forcedTxs⟩
  | _ => trivial

/-- The blocks have entries of the queues of L1, whatever the tree is. -/
structure Fetched (bincode : Bincode) (s : System T) : Prop where
  counted : s.l1.Counted
  fromL1 : ∀ b ∈ s.blocks, b.FromL1 bincode s.l1
  worker : s.worker.Reads bincode s.l1

theorem blocks_of_worker {w : Worker} (h : s.worker = w) : s.blocks = s.committed ++ w.made? := by
  rw [System.blocks, h]

theorem committed_sublist (s : System T) : s.committed.Sublist s.blocks :=
  List.sublist_append_left _ _

theorem fetched_init (bincode : Bincode) (tree : T) (head root : Hash) :
    Fetched bincode (System.init tree head root) where
  counted := Bridge.counted_init root
  fromL1 b hb := absurd hb (by simp [System.blocks, System.init, Worker.made?])
  worker := trivial

/-- A move that leaves the blocks. -/
theorem Fetched.of_blocks (h : Fetched bincode s) (hcounted : s'.l1.Counted)
    (hext : Bridge.Extends s.l1 s'.l1) (hblocks : s'.blocks <+: s.blocks)
    (hworker : s'.worker.Reads bincode s'.l1) : Fetched bincode s' :=
  ⟨hcounted, fun b hb ↦ (h.fromL1 b (hblocks.subset hb)).mono hext, hworker⟩

theorem Fetched.move (h : Fetched bincode s) (hmove : Move env m bincode e s s') :
    Fetched bincode s' := by
  have hreads := h.worker
  cases hmove with
  | elsewhere hl1 htree hheadroot hoptimistic hworker hcommitted =>
    refine h.of_blocks (hl1.counted h.counted) hl1.extends ?_ ?_
    · rw [System.blocks, System.blocks, hworker, hcommitted]
    · rw [hworker]
      exact hreads.mono hl1.extends
  | tick hworker =>
    refine h.of_blocks h.counted (.refl _) ?_ ⟨trivial, trivial⟩
    rw [blocks_of_worker hworker]
    exact List.prefix_rfl
  | fetchDeposits hworker hnext =>
    rw [hworker] at hreads
    refine h.of_blocks h.counted (.refl _) ?_ ⟨fetchNewDeposits_spec h.counted hnext, hreads.2⟩
    rw [blocks_of_worker hworker]
    exact List.prefix_rfl
  | fetchForcedTxs he hworker hnext =>
    rw [hworker] at hreads
    refine h.of_blocks h.counted (.refl _) ?_
      ⟨hreads.1, (fetchNewForcedTxs_spec h.counted hnext).1⟩
    rw [blocks_of_worker hworker]
    exact List.prefix_rfl
  | nothingNew hworker =>
    refine h.of_blocks h.counted (.refl _) ?_ trivial
    rw [blocks_of_worker hworker]
    exact List.prefix_rfl
  | made hworker hbatch =>
    rw [hworker] at hreads
    refine ⟨h.counted, fun b hb ↦ ?_, trivial⟩
    rcases List.mem_append.mp hb with hb | hb
    · exact h.fromL1 b ((committed_sublist s).subset hb)
    · rw [List.mem_singleton.mp hb]
      exact ⟨hreads.1, hreads.2⟩
  | @committed b hworker =>
    refine h.of_blocks h.counted (.refl _) ?_ trivial
    rw [blocks_of_worker hworker, System.blocks, Worker.made?, Worker.made?, List.append_nil]
  | died hl1 htree hheadroot hworker hcommitted =>
    refine h.of_blocks (hl1 ▸ h.counted) (hl1 ▸ .refl _) ?_ ?_
    · rw [blocks_of_worker hworker, hcommitted, Worker.made?, List.append_nil]
      exact List.prefix_append _ _
    · rw [hworker]
      trivial

/-- One step of the system. -/
def Step (env : Deployment) (m : Monotree T) (bincode : Bincode) (s s' : System T) : Prop :=
  ∃ e, s.step env m bincode e = some s'

theorem run_steps : ∀ {events : List Event} {s : System T},
    s.run env m bincode events = some s' → Relation.ReflTransGen (Step env m bincode) s s'
  | [], _, h => Option.some_inj.mp h ▸ .refl
  | e :: _, _, h => by
    obtain ⟨s₁, hstep, hrun⟩ := Option.bind_eq_some_iff.mp h
    exact .head ⟨e, hstep⟩ (run_steps hrun)

/-- **The entries of the blocks are entries of the queues**, in every run. -/
theorem Fetched.run {tree : T} {head root : Hash}
    (hrun : Relation.ReflTransGen (Step env m bincode) (System.init tree head root) s) :
    Fetched bincode s := by
  induction hrun with
  | refl => exact fetched_init bincode tree head root
  | tail _ hstep ih =>
    obtain ⟨e, hstep⟩ := hstep
    exact ih.move (step_move hstep)

/-! ## The deposits -/

/-- The head of the worker is the root on disk. -/
def HeadInv (s : System T) : Worker → Prop
  | .sleeping | .fetching _ _ => s.optimistic = s.headroot
  | .made b => b.block.postStateRoot = s.headroot
  | .dead => True

/-- What holds in every run: the deposits of the blocks were made to accounts that are in the
tree now. -/
structure Inv (laws : MonotreeLaws m) (c : Crypto) (s : System T) : Prop where
  deposits : DepositsOnce s.blocks
  accounts : ∃ a, Holds laws c s.tree s.headroot a ∧
    ∀ b ∈ s.blocks, ∀ d ∈ b.block.deposits, a d.to_ ≠ none
  head : HeadInv s s.worker

theorem inv_init {tree : T} {head : Hash} {a : AccountMap} (hstart : Holds laws c tree head a)
    (root : Hash) : Inv laws c (System.init tree head root) where
  deposits := List.Pairwise.nil
  accounts := ⟨a, hstart,
    fun b hb ↦ absurd hb (by simp [System.blocks, System.init, Worker.made?])⟩
  head := rfl

/-- A move that leaves the blocks and the accounts. -/
theorem Inv.of_blocks (h : Inv laws c s)
    (hkeeps : ∀ a, Holds laws c s.tree s.headroot a → Holds laws c s'.tree s'.headroot a)
    (hblocks : s'.blocks <+: s.blocks) (hhead : HeadInv s' s'.worker) : Inv laws c s' := by
  obtain ⟨a, hholds, ha⟩ := h.accounts
  exact ⟨h.deposits.sublist hblocks.sublist,
    ⟨a, hkeeps a hholds, fun b hb ↦ ha b (hblocks.subset hb)⟩, hhead⟩

theorem HeadInv.congr {w : Worker} (h : HeadInv s w) (hheadroot : s'.headroot = s.headroot)
    (hoptimistic : s'.optimistic = s.optimistic) : HeadInv s' w := by
  cases w with
  | sleeping | fetching => exact hoptimistic.trans (Eq.trans h hheadroot.symm)
  | made b => exact Eq.trans h hheadroot.symm
  | dead => trivial

/-- A batch is only made of deposits to accounts that are not in the tree. -/
theorem Inv.made (h : Inv laws env.crypto s) (hfetched : Fetched bincode s)
    (hshort : bincode.RefusesShort) {p q : UInt64} {deposits : List Deposit}
    {forcedTxs : List ForcedTx} {order : IterOrder} {root : Hash} {tree : T} {blockCounter : UInt64}
    (hworker : s.worker = .fetching (.done p deposits) (.done q forcedTxs))
    (hbatch : applyOptimisticBatch (Core.getAccount m bincode) m env.crypto order s.tree
      (some s.optimistic) s.mempool deposits forcedTxs = (.ok root, tree)) :
    Inv laws env.crypto { s with
      tree
      headroot := root
      blockCounter
      worker := .made
        { block := s.nextBlock deposits forcedTxs root
          firstDeposit := p.toNat
          firstForced := q.toNat } } := by
  obtain ⟨a, hholds, ha⟩ := h.accounts
  have hoptimistic := h.head
  have hreads := hfetched.worker
  rw [hworker] at hoptimistic hreads
  have hblocks : s.blocks = s.committed := by
    rw [blocks_of_worker hworker, Worker.made?, List.append_nil]
  rw [show s.optimistic = s.headroot from hoptimistic] at hbatch
  obtain ⟨ex, hops, hholds'⟩ := hholds.applied hshort hbatch
  have hopened := hholds.deposits_opened hshort hops
  have hnew : Included.FromL1 bincode s.l1
      { block := s.nextBlock deposits forcedTxs root
        firstDeposit := p.toNat
        firstForced := q.toNat } := ⟨hreads.1, hreads.2⟩
  have hfrom := hfetched.fromL1
  have honce := h.deposits
  rw [hblocks] at hfrom honce ha
  refine ⟨?_, ⟨ex.view a, hholds', ?_⟩, rfl⟩
  · refine List.pairwise_append.mpr ⟨honce, List.pairwise_singleton _ _, ?_⟩
    rintro b hb b' hb' i ⟨hi, hi'⟩
    rw [List.mem_singleton.mp hb'] at hi'
    -- The entry was made a deposit of `b`, so its account is in the tree.
    obtain ⟨d, hd, hd'⟩ := (hfrom b hb).deposit_eq hnew hi hi'
    exact ha b hb d hd (hopened d hd').1
  · intro b hb d hd
    rcases List.mem_append.mp hb with hb | hb
    · have had := ha b hb d hd
      rw [BlockExecutor.view]
      simp [had]
    · rw [List.mem_singleton.mp hb] at hd
      exact (hopened d hd).2

theorem Inv.move (h : Inv laws env.crypto s) (hfetched : Fetched bincode s)
    (hshort : bincode.RefusesShort) (hmove : Move env m bincode e s s') :
    Inv laws env.crypto s' := by
  have hhead := h.head
  cases hmove with
  | elsewhere hl1 htree hheadroot hoptimistic hworker hcommitted =>
    refine h.of_blocks (fun a ha ↦ by rwa [htree, hheadroot]) ?_ ?_
    · rw [System.blocks, System.blocks, hworker, hcommitted]
    · rw [hworker]
      exact hhead.congr hheadroot hoptimistic
  | tick hworker | fetchDeposits hworker | fetchForcedTxs _ hworker | nothingNew hworker =>
    rw [hworker] at hhead
    refine h.of_blocks (fun _ ha ↦ ha) ?_ hhead
    rw [blocks_of_worker hworker]
    exact List.prefix_rfl
  | made hworker hbatch => exact h.made hfetched hshort hworker hbatch
  | @committed b hworker =>
    rw [hworker] at hhead
    refine h.of_blocks (fun _ ha ↦ ha) ?_ hhead
    rw [blocks_of_worker hworker, System.blocks, Worker.made?, Worker.made?, List.append_nil]
  | died hl1 htree hheadroot hworker hcommitted =>
    refine h.of_blocks (fun a ha ↦ ?_) ?_ ?_
    · rw [hheadroot]
      rcases htree with htree | hbatch
      · rwa [htree]
      · exact ha.batchOn hbatch
    · rw [blocks_of_worker hworker, hcommitted, Worker.made?, List.append_nil]
      exact List.prefix_append _ _
    · rw [hworker]
      trivial

theorem Inv.run (hshort : bincode.RefusesShort) {tree : T} {head root : Hash} {a : AccountMap}
    (hstart : Holds laws env.crypto tree head a)
    (hrun : Relation.ReflTransGen (Step env m bincode) (System.init tree head root) s) :
    Inv laws env.crypto s := by
  induction hrun with
  | refl => exact inv_init hstart root
  | tail hrun hstep ih =>
    obtain ⟨e, hstep⟩ := hstep
    exact ih.move (Fetched.run hrun) hshort (step_move hstep)

/-- No deposit of L1 enters twice, in any run. -/
theorem deposits_enter_once (hshort : bincode.RefusesShort) {tree : T} {head root : Hash}
    {a : AccountMap} (hstart : Holds laws env.crypto tree head a)
    (hrun : Relation.ReflTransGen (Step env m bincode) (System.init tree head root) s) :
    DepositsOnce s.committed :=
  (Inv.run hshort hstart hrun).deposits.sublist (committed_sublist s)

/-! ## Runs in which the ticks wait -/

/-- The forced transactions of the committed blocks are processed on L1. -/
def Settled (s : System T) : Prop :=
  ∀ b ∈ s.committed, ∀ i, b.HasForced i → i < s.l1.processedForcedTxCount.toNat

instance (s : System T) : Decidable (Settled s) :=
  decidable_of_iff (∀ b ∈ s.committed, ∀ i ∈ List.range' b.firstForced b.block.forcedTxs.length,
    i < s.l1.processedForcedTxCount.toNat) <| by
      simp only [Settled, Included.HasForced, List.mem_range'_1]

/-- The event reads the processed counter of the forced transactions. -/
def Event.readsForced : Event → System T → Bool
  | .fetchForcedTxs, s =>
    match s.worker with
    | .fetching _ .start => true
    | _ => false
  | _, _ => false

/-- The counter is not read before the forced transactions of the committed blocks are processed. -/
def Event.Waits (e : Event) (s : System T) : Prop := e.readsForced s = true → Settled s

instance (e : Event) (s : System T) : Decidable (e.Waits s) :=
  inferInstanceAs (Decidable (_ → _))

/-- A step that waits. -/
def WaitingStep (env : Deployment) (m : Monotree T) (bincode : Bincode) (s s' : System T) : Prop :=
  ∃ e, s.step env m bincode e = some s' ∧ e.Waits s

/-- A sequence of events that wait; `none` if one of them does not. -/
def System.runWaiting (env : Deployment) (m : Monotree T) (bincode : Bincode) (s : System T) :
    List Event → Option (System T)
  | [] => some s
  | e :: events =>
    if e.Waits s then (s.step env m bincode e).bind fun s ↦ s.runWaiting env m bincode events
    else none

theorem runWaiting_steps : ∀ {events : List Event} {s : System T},
    s.runWaiting env m bincode events = some s' →
      Relation.ReflTransGen (WaitingStep env m bincode) s s'
  | [], _, h => Option.some_inj.mp h ▸ .refl
  | e :: _, s, h => by
    rw [System.runWaiting] at h
    split at h
    · rename_i hwaits
      obtain ⟨s₁, hstep, hrun⟩ := Option.bind_eq_some_iff.mp h
      exact .head ⟨e, hstep, hwaits⟩ (runWaiting_steps hrun)
    · exact absurd h (by simp)

theorem steps_of_waiting (h : Relation.ReflTransGen (WaitingStep env m bincode) s s') :
    Relation.ReflTransGen (Step env m bincode) s s' :=
  h.lift id fun _ _ ⟨e, hstep, _⟩ ↦ ⟨e, hstep⟩

/-- The processed counter that the worker has read is past the committed blocks. -/
def Past (s : System T) : Worker → Prop
  | .fetching _ f => ∀ p, f.processedCount? = some p →
      ∀ b ∈ s.committed, ∀ i, b.HasForced i → i < p.toNat
  | _ => True

structure WaitingInv (s : System T) : Prop where
  forced : ForcedOnce s.blocks
  past : Past s s.worker

theorem WaitingInv.move (h : WaitingInv s) (hcounted : s.l1.Counted)
    (hmove : Move env m bincode e s s')
    (hwaits : e.Waits s) : WaitingInv s' := by
  obtain ⟨hforced, hpast⟩ := h
  cases hmove with
  | elsewhere hl1 htree hheadroot hoptimistic hworker hcommitted =>
    refine ⟨?_, ?_⟩
    · rwa [System.blocks, hworker, hcommitted]
    · rw [hworker]
      cases hw : s.worker with
      | fetching d f =>
        rw [hw] at hpast
        intro p hp b hb
        exact hpast p hp b (hcommitted ▸ hb)
      | _ => trivial
  | tick hworker =>
    rw [blocks_of_worker hworker] at hforced
    exact ⟨hforced, fun p hp ↦ absurd hp (by simp [Fetch.processedCount?])⟩
  | fetchDeposits hworker hnext =>
    rw [blocks_of_worker hworker] at hforced
    rw [hworker] at hpast
    exact ⟨hforced, hpast⟩
  | @fetchForcedTxs d f f' he hworker hnext =>
    rw [blocks_of_worker hworker] at hforced
    rw [hworker] at hpast
    refine ⟨hforced, fun p hp b hb i hi ↦ ?_⟩
    rcases (fetchNewForcedTxs_spec hcounted hnext).2 with hsame | ⟨rfl, hread⟩
    · exact hpast p (hsame ▸ hp) b hb i hi
    · rw [hread p hp]
      exact hwaits (by rw [he, Event.readsForced, hworker]) b hb i hi
  | nothingNew hworker =>
    rw [blocks_of_worker hworker] at hforced
    exact ⟨hforced, trivial⟩
  | @made p q deposits forcedTxs order root tree blockCounter hworker hbatch =>
    rw [blocks_of_worker hworker, Worker.made?, List.append_nil] at hforced
    rw [hworker] at hpast
    refine ⟨List.pairwise_append.mpr ⟨hforced, List.pairwise_singleton _ _, ?_⟩, trivial⟩
    rintro b hb b' hb' i ⟨hi, hi'⟩
    rw [List.mem_singleton.mp hb'] at hi'
    have hlt := hpast q rfl b hb i hi
    have hle : q.toNat ≤ i := hi'.1
    omega
  | committed hworker =>
    rw [blocks_of_worker hworker, Worker.made?] at hforced
    refine ⟨?_, trivial⟩
    rwa [System.blocks, Worker.made?, List.append_nil]
  | died hl1 htree hheadroot hworker hcommitted =>
    refine ⟨?_, ?_⟩
    · rw [blocks_of_worker hworker, hcommitted, Worker.made?, List.append_nil]
      exact hforced.sublist (List.sublist_append_left _ _)
    · rw [hworker]
      trivial

theorem WaitingInv.run {tree : T} {head root : Hash}
    (hrun : Relation.ReflTransGen (WaitingStep env m bincode) (System.init tree head root) s) :
    WaitingInv s := by
  induction hrun with
  | refl => exact ⟨List.Pairwise.nil, trivial⟩
  | tail hrun hstep ih =>
    obtain ⟨e, hstep, hwaits⟩ := hstep
    exact ih.move (Fetched.run (steps_of_waiting hrun)).counted (step_move hstep) hwaits

/-- **No entry of an L1 queue enters twice** in a run in which every tick waits for the blocks
before it.  The run starts from a head root with accounts, as the one of an empty state tree
(`holds_empty`). -/
theorem entries_enter_once (hshort : bincode.RefusesShort) {tree : T} {head root : Hash}
    {a : AccountMap} (hstart : Holds laws env.crypto tree head a)
    (hrun : Relation.ReflTransGen (WaitingStep env m bincode) (System.init tree head root) s) :
    DepositsOnce s.committed ∧ ForcedOnce s.committed ∧
      ∀ b ∈ s.committed, b.FromL1 bincode s.l1 := by
  have hsteps := steps_of_waiting hrun
  exact ⟨deposits_enter_once hshort hstart hsteps,
    (WaitingInv.run hrun).forced.sublist (committed_sublist s),
    fun b hb ↦ (Fetched.run hsteps).fromL1 b ((committed_sublist s).subset hb)⟩

end

/-! ## An entry that enters twice

Somebody forces a transaction that does not decode, and two ticks come before it is proved. -/

namespace Garbage

abbrev env : Deployment where
  crypto := .sha3Crate
  verifyProof _ _ _ := true
  rollupProgramVKey := Hash.default
  merkleVerify _ _ _ := false

abbrev m : Monotree MemTree := MemTree.monotree .sha3Crate

abbrev start : System MemTree := System.init [] Hash.default Hash.default

theorem holds_start : Holds (MemTree.laws env.crypto) env.crypto start.tree start.headroot
    fun _ ↦ none :=
  holds_empty _ _

def force : Event :=
  .callL1 (.forceTransaction
    { sender := zeros 20, value := 10 ^ 15, timestamp := 7 } [])

/-- The optimistic worker from one sleep to the next. -/
def tick : List Event :=
  [.tick, .fetchDeposits, .fetchDeposits, .fetchDeposits, .fetchForcedTxs, .fetchForcedTxs,
    .fetchForcedTxs, .makeBlock .cached, .commitOptimisticBlock]

/-- The prover worker from one sleep to the next. -/
def prove : List Event := [.peekPending, .processAndProve [], .mine 0, .confirm]

/-- The positions of the forced transactions in the blocks. -/
def positions (s : System MemTree) : List (ℕ × ℕ) :=
  s.committed.map fun b ↦ (b.firstForced, b.block.forcedTxs.length)

theorem run_twice : (start.run env m .v1 (force :: tick ++ tick)).map positions
    = some [(0, 1), (0, 1)] := by
  decide +kernel

theorem runWaiting_proved :
    (start.runWaiting env m .v1 (force :: tick ++ prove ++ force :: tick)).map positions
      = some [(0, 1), (1, 1)] := by
  decide +kernel

end Garbage

open Garbage in
/-- The first entry of the queue of forced transactions is in both blocks. -/
theorem garbage_enters_twice :
    ∃ s, Relation.ReflTransGen (Step env m .v1) start s ∧ positions s = [(0, 1), (0, 1)] ∧
      ¬ ForcedOnce s.committed := by
  obtain ⟨s, hrun, hpositions⟩ := Option.map_eq_some_iff.mp run_twice
  refine ⟨s, run_steps hrun, hpositions, fun honce ↦ ?_⟩
  obtain ⟨b, blocks, hcommitted, hb, hblocks⟩ := List.map_eq_cons_iff.mp hpositions
  obtain ⟨b', hcommitted', hb'⟩ := List.map_eq_singleton_iff.mp hblocks
  rw [hcommitted, hcommitted', ForcedOnce, List.pairwise_pair] at honce
  have hzero : ∀ x : Included, (x.firstForced, x.block.forcedTxs.length) = (0, 1) →
      x.HasForced 0 := by
    intro x hx
    obtain ⟨hfirst, hlength⟩ := Prod.mk.inj hx
    exact ⟨hfirst.le, by omega⟩
  exact honce 0 ⟨hzero b hb, hzero b' hb'⟩

open Garbage in
/-- Two entries in two blocks, the second one made after the first was proved.  Blocks that the
guest proves leave the root where it is. -/
theorem entries_enter_once_garbage :
    ∃ s, Relation.ReflTransGen (WaitingStep env m .v1) start s ∧ positions s = [(0, 1), (1, 1)] ∧
      DepositsOnce s.committed ∧ ForcedOnce s.committed ∧
      ∀ b ∈ s.committed, b.FromL1 .v1 s.l1 := by
  obtain ⟨s, hrun, hpositions⟩ := Option.map_eq_some_iff.mp runWaiting_proved
  have hsteps := runWaiting_steps hrun
  exact ⟨s, hsteps, hpositions,
    entries_enter_once Bincode.v1_refusesShort holds_start hsteps⟩

end TinyRollup
