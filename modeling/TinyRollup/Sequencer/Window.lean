import TinyRollup.Sequencer.Mempool
import TinyRollup.Sequencer.Steps

/-!
# The entries that a fetch asks for

`fetch_new_deposits` and `fetch_new_forced_txs` read two counters and then the entries between them,
in three requests, while anyone calls the bridge.  The window is valid all the same
(`fetch_window_valid`): the queues only grow and the processed counter never passes the count.

Whether the entries can be used is another matter.  The contract counts in 256 bits and the
sequencer in 64, and an amount that does not fit makes the fetch panic.  `all_fetched_iff` says
exactly when a fetch gets through.
-/

set_option autoImplicit false

namespace TinyRollup

open ByteString Word Stf
open UInt64 (Fits)

/-! ## The window -/

/-- The window between two counters that were read. -/
structure ValidWindow {β : Type} (getRange : U256 → U256 → Option (List β)) (queue : List β)
    (processedCount l1Count : UInt64) : Prop where
  le : processedCount ≤ l1Count
  /-- The subtraction does not wrap. -/
  sub : (l1Count - processedCount).toNat = l1Count.toNat - processedCount.toNat
  /-- The entries are there. -/
  there : l1Count.toNat ≤ queue.length
  /-- The request does not revert, and it returns them. -/
  range : getRange (u256 processedCount) (u256 (l1Count - processedCount))
    = some ((queue.take l1Count.toNat).drop processedCount.toNat)

/-- A queue that returns the ranges it has. -/
def Serves {β : Type} (getRange : U256 → U256 → Option (List β)) (queue : List β) : Prop :=
  ∀ start count : U256, start.toNat + count.toNat ≤ queue.length →
    getRange start count = some ((queue.drop start.toNat).take count.toNat)

theorem serves_deposits {s : Bridge} (h : s.Counted) : Serves s.getDeposits s.pendingDeposits :=
  fun _ _ hle ↦ h.deposits.readRange hle

theorem serves_forcedTxs {s : Bridge} (h : s.Counted) :
    Serves s.getForcedTransactions s.forcedTransactions :=
  fun _ _ hle ↦ h.forcedTxs.readRange hle

theorem Serves.window {β : Type} {getRange : U256 → U256 → Option (List β)} {queue : List β}
    (h : Serves getRange queue) {p n : UInt64} (hle : p ≤ n) (hthere : n.toNat ≤ queue.length) :
    ValidWindow getRange queue p n := by
  have hle' := UInt64.le_iff_toNat_le.mp hle
  have hsub := UInt64.toNat_sub_of_le n p hle
  refine ⟨hle, hsub, hthere, ?_⟩
  rw [h _ _ (by rw [u256_toNat, u256_toNat]; omega), u256_toNat, u256_toNat, hsub, List.drop_take]

namespace Fetch

variable {α β : Type} {processedCount l1Count : U256} {convert : β → Run Unit α}
  {getRange : U256 → U256 → Option (List β)}

theorem next_start {p : UInt64}
    (h : next processedCount l1Count getRange convert .start = some (.processed p)) :
    p.toNat = processedCount.toNat := by
  obtain ⟨q, hq, heq⟩ := Option.map_eq_some_iff.mp h
  obtain rfl := processed.inj heq
  exact toU64_eq_some hq

theorem next_processed {p n : UInt64}
    (h : next processedCount l1Count getRange convert (.processed p) = some (.counted p n)) :
    n.toNat = l1Count.toNat := by
  obtain ⟨q, hq, heq⟩ := Option.map_eq_some_iff.mp h
  obtain ⟨-, rfl⟩ := counted.inj heq
  exact toU64_eq_some hq

/-- The last request of a fetch converts the entries in its window. -/
theorem next_counted {queue : List β} {p n : UInt64}
    (h : p ≤ n → ValidWindow getRange queue p n) :
    next processedCount l1Count getRange convert (.counted p n)
      = (((queue.take n.toNat).drop p.toNat).mapM convert).toOption.map (.done p) := by
  rw [next]
  split
  · rename_i hlt
    rw [(h (UInt64.le_of_lt hlt)).range, Option.bind_eq_bind, Option.bind_some,
      Option.map_eq_bind]
    rfl
  · rename_i hge
    have hempty : (queue.take n.toNat).drop p.toNat = [] := by
      rw [UInt64.lt_iff_toNat_lt] at hge
      rw [List.drop_eq_nil_iff, List.length_take]
      omega
    rw [hempty]
    rfl

end Fetch

/-- One queue at the three requests of a fetch. -/
theorem window_valid {β : Type} {queue₀ queue₁ queue₂ : List β}
    {count₀ processed₀ count₁ processed₁ : U256} {getRange : U256 → U256 → Option (List β)}
    (h₀ : Bridge.QueueCounted queue₀ count₀ processed₀)
    (h₁ : Bridge.QueueCounted queue₁ count₁ processed₁) (h₂ : Serves getRange queue₂)
    (h₀₁ : queue₀ <+: queue₁) (h₁₂ : queue₁ <+: queue₂) {p n : UInt64}
    (hp : p.toNat = processed₀.toNat) (hn : n.toNat = count₁.toNat) :
    ValidWindow getRange queue₂ p n := by
  have hlen₀ := h₀₁.length_le
  have hlen₁ := h₁₂.length_le
  have hprocessed := h₀.processed
  have hcount₀ := h₀.count
  have hcount₁ := h₁.count
  refine h₂.window (UInt64.le_iff_toNat_le.mpr ?_) ?_
  · omega
  · omega

/-- **The window of a fetch is valid**, whatever is called on the bridge between its requests: at
`s₀` the processed counter is read, at `s₁` the count, and at `s₂` the range, whose entries the
fetch converts. -/
theorem fetch_window_valid {env : Deployment} (bincode : Bincode) {root : Hash} {s₀ s₁ s₂ : Bridge}
    (h₀ : Bridge.Steps env (Bridge.init root) s₀) (h₁ : Bridge.Steps env s₀ s₁)
    (h₂ : Bridge.Steps env s₁ s₂) :
    (∀ p n, fetchNewDeposits s₀ .start = some (.processed p) →
        fetchNewDeposits s₁ (.processed p) = some (.counted p n) →
        ValidWindow s₂.getDeposits s₂.pendingDeposits p n ∧
          fetchNewDeposits s₂ (.counted p n)
            = (((s₂.pendingDeposits.take n.toNat).drop p.toNat).mapM toDeposit :
                Run Unit _).toOption.map (.done p)) ∧
      ∀ p n, fetchNewForcedTxs bincode s₀ .start = some (.processed p) →
        fetchNewForcedTxs bincode s₁ (.processed p) = some (.counted p n) →
        ValidWindow s₂.getForcedTransactions s₂.forcedTransactions p n ∧
          fetchNewForcedTxs bincode s₂ (.counted p n)
            = (((s₂.forcedTransactions.take n.toNat).drop p.toNat).mapM (toForcedTx bincode) :
                Run Unit _).toOption.map (.done p) := by
  have hcounted₀ := h₀.counted (Bridge.counted_init root)
  have hcounted₁ := h₁.counted hcounted₀
  have hcounted₂ := h₂.counted hcounted₁
  constructor
  · intro p n hp hn
    have hwindow : ValidWindow s₂.getDeposits s₂.pendingDeposits p n :=
      window_valid hcounted₀.deposits hcounted₁.deposits (serves_deposits hcounted₂)
        h₁.extends.deposits h₂.extends.deposits (Fetch.next_start hp) (Fetch.next_processed hn)
    exact ⟨hwindow, Fetch.next_counted fun _ ↦ hwindow⟩
  · intro p n hp hn
    have hwindow : ValidWindow s₂.getForcedTransactions s₂.forcedTransactions p n :=
      window_valid hcounted₀.forcedTxs hcounted₁.forcedTxs (serves_forcedTxs hcounted₂)
        h₁.extends.forcedTxs h₂.extends.forcedTxs (Fetch.next_start hp) (Fetch.next_processed hn)
    exact ⟨hwindow, Fetch.next_counted fun _ ↦ hwindow⟩

/-! ### A deposit in between -/

namespace BusyBridge

abbrev user : Msg := { sender := zeros 20, value := 10, timestamp := 7 }

def entry : L1Deposit := { user := user.sender, amount := 10, timestamp := 7 }

/-- What the sequencer makes of it. -/
def fetched : Deposit := { to_ := addressToHash user.sender, amount := 10, timestamp := 7 }

/-- The bridge after `n` deposits. -/
def after (n : ℕ) : Bridge :=
  { Bridge.init Hash.default with
    pendingDeposits := List.replicate n entry
    depositCount := BitVec.ofNat 256 n }

theorem step_zero (env : Deployment) : Bridge.Step env (after 0) (after 1) :=
  .deposit (show (after 0).deposit user = some (after 1) from rfl)

theorem step_one (env : Deployment) : Bridge.Step env (after 1) (after 2) :=
  .deposit (show (after 1).deposit user = some (after 2) from rfl)

end BusyBridge

open BusyBridge Requests in
/-- The first deposit is counted, and a second one is made before the range is read. -/
theorem fetch_window_valid_busy : (after 2).pendingDeposits.length = 2 ∧
    ValidWindow (after 2).getDeposits (after 2).pendingDeposits 0 1 ∧
    fetchNewDeposits (after 2) (.counted 0 1) = some (.done 0 [fetched]) := by
  obtain ⟨hwindow, hfetch⟩ := (fetch_window_valid .v1 .refl (.single (step_zero env))
    (.single (step_one env))).1 0 1 rfl rfl
  refine ⟨rfl, hwindow, ?_⟩
  rw [hfetch]
  rfl

/-! ## Whether the entries fit -/

namespace Fetch

variable {α β : Type}

/-- The three requests of a fetch, with L1 as it is. -/
def atOnce (next : Fetch α → Option (Fetch α)) : Option (Fetch α) :=
  (next .start).bind fun f ↦ (next f).bind next

/-- The fetch returns, with one item for each unprocessed entry, in order. -/
def Complete (next : Fetch α → Option (Fetch α)) (R : β → α → Prop) (unprocessed : List β) : Prop :=
  ∃ p items, atOnce next = some (.done p items) ∧ List.Forall₂ R unprocessed items

variable {queue : List β} {queueCount processed : U256} {convert : β → Run Unit α}
  {getRange : U256 → U256 → Option (List β)}

/-- A fetch with both counters in range is the conversion of the unprocessed entries. -/
theorem atOnce_of_fits (hcount : queueCount.toNat = queue.length) (hserves : Serves getRange queue)
    (hp : Fits processed.toNat) (hn : Fits queue.length) :
    atOnce (next processed queueCount getRange convert)
      = ((queue.drop processed.toNat).mapM convert).toOption.map
          (.done (UInt64.ofNat processed.toNat)) := by
  have hp' : (UInt64.ofNat processed.toNat).toNat = processed.toNat := UInt64.toNat_ofNat_of_lt' hp
  have hn' : (UInt64.ofNat queueCount.toNat).toNat = queue.length := by
    rw [hcount]
    exact UInt64.toNat_ofNat_of_lt' hn
  have hstart : next processed queueCount getRange convert .start
      = some (.processed (UInt64.ofNat processed.toNat)) := by
    rw [next, toU64_of_fits hp]
    rfl
  have hprocessed : next processed queueCount getRange convert
        (.processed (UInt64.ofNat processed.toNat))
      = some (.counted (UInt64.ofNat processed.toNat) (UInt64.ofNat queueCount.toNat)) := by
    rw [next, toU64_of_fits (hcount ▸ hn)]
    rfl
  rw [atOnce, hstart, Option.bind_some, hprocessed, Option.bind_some,
    next_counted fun hle ↦ hserves.window hle hn'.le, hp', hn', List.take_length]

/-- A fetch that returns has read both counters. -/
theorem fits_of_atOnce {f : Fetch α} (hcount : queueCount.toNat = queue.length)
    (h : atOnce (next processed queueCount getRange convert) = some f) :
    Fits processed.toNat ∧ Fits queue.length := by
  obtain ⟨f₁, h₁, h⟩ := Option.bind_eq_some_iff.mp h
  obtain ⟨p, hp, rfl⟩ := Option.map_eq_some_iff.mp h₁
  obtain ⟨f₂, h₂, -⟩ := Option.bind_eq_some_iff.mp h
  obtain ⟨n, hn, -⟩ := Option.map_eq_some_iff.mp h₂
  rw [← toU64_eq_some hp, ← hcount, ← toU64_eq_some hn]
  exact ⟨p.fits_toNat, n.fits_toNat⟩

/-- **When a fetch gets through**: exactly if the counters and the unprocessed entries fit. -/
theorem complete_iff {R : β → α → Prop} {Fit : β → Prop}
    (hcount : queueCount.toNat = queue.length) (hserves : Serves getRange queue)
    (hfit : ∀ e, Fit e → ∃ x, convert e = .ok x) (hR : ∀ e x, convert e = .ok x → Fit e ∧ R e x) :
    Complete (next processed queueCount getRange convert) R (queue.drop processed.toNat) ↔
      Fits processed.toNat ∧ Fits queue.length ∧ ∀ e ∈ queue.drop processed.toNat, Fit e := by
  constructor
  · rintro ⟨p, items, h, -⟩
    obtain ⟨hp, hn⟩ := fits_of_atOnce hcount h
    rw [atOnce_of_fits hcount hserves hp hn] at h
    obtain ⟨ys, hys, -⟩ := Option.map_eq_some_iff.mp h
    refine ⟨hp, hn, fun e he ↦ ?_⟩
    cases hmap : (queue.drop processed.toNat).mapM convert with
    | error e => exact absurd (hmap ▸ hys) (by simp [Except.toOption])
    | ok zs =>
      obtain ⟨x, hx⟩ := Run.exists_mapM_eq_ok.mp ⟨zs, hmap⟩ e he
      exact (hR e x hx).1
  · rintro ⟨hp, hn, hall⟩
    obtain ⟨ys, hys⟩ := Run.exists_mapM_eq_ok.mpr fun e he ↦ hfit e (hall e he)
    refine ⟨UInt64.ofNat processed.toNat, ys, ?_,
      Run.mapM_forall₂ hys fun e _ x hx ↦ (hR e x hx).2⟩
    rw [atOnce_of_fits hcount hserves hp hn, hys]
    rfl

end Fetch

/-- A call of `deposit` or `forceTransaction`. -/
inductive Posts : Bridge → Bridge → Prop
  | deposit {s s' : Bridge} (msg : Msg) (h : s.deposit msg = some s') : Posts s s'
  | forceTransaction {s s' : Bridge} (msg : Msg) (l2TxData : Bytes)
      (h : s.forceTransaction msg l2TxData = some s') : Posts s s'

theorem Posts.step {s s' : Bridge} (env : Deployment) (h : Posts s s') : Bridge.Step env s s' := by
  cases h with
  | deposit msg h => exact .deposit h
  | forceTransaction msg l2TxData h => exact .forceTransaction h

/-- Both fetches return what was posted and not processed. -/
def AllFetched (bincode : Bincode) (l1 : Bridge) : Prop :=
  Fetch.Complete (fetchNewDeposits l1) FetchedAs
      (l1.pendingDeposits.drop l1.processedDepositCount.toNat) ∧
    Fetch.Complete (fetchNewForcedTxs bincode l1) (ForcedAs bincode)
      (l1.forcedTransactions.drop l1.processedForcedTxCount.toNat)

/-- The counters, the unprocessed amounts and the unprocessed timestamps are below `2 ^ 64`. -/
structure AllFit (l1 : Bridge) : Prop where
  deposits : Fits l1.processedDepositCount.toNat ∧ Fits l1.pendingDeposits.length ∧
    ∀ d ∈ l1.pendingDeposits.drop l1.processedDepositCount.toNat,
      Fits d.amount.toNat ∧ Fits d.timestamp.toNat
  forcedTxs : Fits l1.processedForcedTxCount.toNat ∧ Fits l1.forcedTransactions.length ∧
    ∀ f ∈ l1.forcedTransactions.drop l1.processedForcedTxCount.toNat, Fits f.timestamp.toNat

theorem deposits_complete_iff (l1 : Bridge)
    (hcount : l1.depositCount.toNat = l1.pendingDeposits.length)
    (hserves : Serves l1.getDeposits l1.pendingDeposits) :
    Fetch.Complete (fetchNewDeposits l1) FetchedAs
        (l1.pendingDeposits.drop l1.processedDepositCount.toNat) ↔
      Fits l1.processedDepositCount.toNat ∧ Fits l1.pendingDeposits.length ∧
        ∀ d ∈ l1.pendingDeposits.drop l1.processedDepositCount.toNat,
          Fits d.amount.toNat ∧ Fits d.timestamp.toNat :=
  Fetch.complete_iff hcount hserves (fun _ ↦ toDeposit_of_fits) fun _ _ ↦ toDeposit_eq_ok

theorem forcedTxs_complete_iff (bincode : Bincode) (l1 : Bridge)
    (hcount : l1.forcedTxCount.toNat = l1.forcedTransactions.length)
    (hserves : Serves l1.getForcedTransactions l1.forcedTransactions) :
    Fetch.Complete (fetchNewForcedTxs bincode l1) (ForcedAs bincode)
        (l1.forcedTransactions.drop l1.processedForcedTxCount.toNat) ↔
      Fits l1.processedForcedTxCount.toNat ∧ Fits l1.forcedTransactions.length ∧
        ∀ f ∈ l1.forcedTransactions.drop l1.processedForcedTxCount.toNat,
          Fits f.timestamp.toNat :=
  Fetch.complete_iff hcount hserves (fun _ ↦ toForcedTx_of_fits bincode) fun _ _ ↦ toForcedTx_eq_ok

/-- **When everything that was posted can be fetched**, for any processed counters. -/
theorem all_fetched_iff (bincode : Bincode) {root : Hash} {s : Bridge}
    (h : Relation.ReflTransGen Posts (Bridge.init root) s)
    (processedDepositCount processedForcedTxCount : U256) :
    AllFetched bincode { s with processedDepositCount, processedForcedTxCount } ↔
      AllFit { s with processedDepositCount, processedForcedTxCount } := by
  let env : Deployment := ⟨Crypto.sha3Crate, fun _ _ _ ↦ false, Hash.default, fun _ _ _ ↦ false⟩
  have hsteps : Bridge.Steps env (Bridge.init root) s := h.lift id fun _ _ hpost ↦ hpost.step env
  have hcounted := hsteps.counted (Bridge.counted_init root)
  have hdeposits := deposits_complete_iff
    { s with processedDepositCount, processedForcedTxCount }
    hcounted.deposits.count fun _ _ hle ↦ hcounted.deposits.readRange hle
  have hforcedTxs := forcedTxs_complete_iff bincode
    { s with processedDepositCount, processedForcedTxCount }
    hcounted.forcedTxs.count fun _ _ hle ↦ hcounted.forcedTxs.readRange hle
  constructor
  · rintro ⟨hd, hf⟩
    exact ⟨hdeposits.mp hd, hforcedTxs.mp hf⟩
  · rintro ⟨hd, hf⟩
    exact ⟨hdeposits.mpr hd, hforcedTxs.mpr hf⟩

/-! ### A large deposit

One deposit of `2 ^ 64` wei, which is about 18.4 ether. -/

namespace LargeDeposit

open Requests (env m start)

abbrev value : U256 := 0x10000000000000000#256

def msg : Msg := { sender := zeros 20, value, timestamp := 7 }

def entry : L1Deposit := { user := msg.sender, amount := value, timestamp := 7 }

def l1 : Bridge :=
  { Bridge.init Hash.default with pendingDeposits := [entry], depositCount := 1 }

theorem posts : Relation.ReflTransGen Posts (Bridge.init Hash.default) l1 :=
  .single (.deposit msg rfl)

theorem counted : Bridge.QueueCounted l1.pendingDeposits l1.depositCount 0 :=
  ⟨rfl, Nat.zero_le _, by decide⟩

theorem serves : Serves l1.getDeposits l1.pendingDeposits :=
  fun _ _ hle ↦ counted.readRange hle

theorem toDeposit_entry :
    (toDeposit entry : Run Unit Deposit) = Run.panic "Uint conversion error" := by
  rw [toDeposit, toU64, if_neg (by decide)]
  rfl

/-- The next tick of the optimistic worker. -/
def events : List NodeEvent :=
  [.callL1 (.deposit msg), .tick, .fetchDeposits, .fetchDeposits, .fetchDeposits]

def dead (n : Node MemTree) : Bool :=
  match n.worker with
  | .dead => true
  | _ => false

theorem run_events : (start.run env m .v1 true events).map dead = some true := rfl

end LargeDeposit

open LargeDeposit Requests in
/-- The deposit is accepted by the bridge, it cannot be converted, and the worker is gone. -/
theorem large_deposit_panics :
    Relation.ReflTransGen Posts (Bridge.init Hash.default) l1 ∧
      (toDeposit entry : Run Unit Deposit) = Run.panic "Uint conversion error" ∧
      (start.run env m .v1 true LargeDeposit.events).map dead = some true ∧
      ¬ AllFetched .v1 { l1 with processedDepositCount := 0, processedForcedTxCount := 0 } := by
  refine ⟨posts, toDeposit_entry, LargeDeposit.run_events, ?_⟩
  rintro ⟨hdeposits, -⟩
  have hfits := (deposits_complete_iff
    { l1 with processedDepositCount := 0, processedForcedTxCount := 0 } rfl serves).mp hdeposits
  exact absurd (hfits.2.2 entry List.mem_cons_self).1 (by decide)

open LargeDeposit in
theorem all_fetched_iff_large :
    AllFetched .v1 { l1 with processedDepositCount := 0, processedForcedTxCount := 0 } ↔
      AllFit { l1 with processedDepositCount := 0, processedForcedTxCount := 0 } :=
  all_fetched_iff .v1 posts 0 0

end TinyRollup
