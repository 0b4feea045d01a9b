import TinyRollup.Core.Cache
import TinyRollup.Core.Roots
import TinyRollup.Stf.Named

/-!
# The bundle of a block

The guest finds the proofs of an operation by position, in lists that the loops of the generator
have filled, one push in each of their branches.  `Core.MadeFor` says what the branches push for an
operation, and `bundle_aligned` that the guest finds these proofs where it looks for them: in every
iteration the ones that the generator has made when it met the same operation of the block.  So no
position is out of range, and every proof carries the account that the operation names.
-/

set_option autoImplicit false

namespace TinyRollup

open ByteString Stf

/-! ## What the generator makes for an operation -/

section

variable {T : Type} (m : Monotree T) (bincode : Bincode) (c : Crypto) (tree : T)

/-- The proofs that the generator makes for an operation when it meets it at a root. -/
inductive Core.MadeFor (root : Hash) : Op → List MerkleProof → Prop
  /-- Also of a deposit that overflows the balance. -/
  | deposit {d : Deposit} {p : MerkleProof}
      (hp : Core.buildStfProof m bincode tree root d.to_ = .ok p) : MadeFor root (.deposit d) [p]
  | dummy {tx : ForcedTx} (h : tx.from_ = Hash.default) :
      MadeFor root (.forced tx) [Core.dummyProof tx.from_, Core.dummyProof tx.to_]
  /-- The sender of a transaction cannot be read. -/
  | skipped {tx : Transaction} {e : CoreError}
      (h : Core.getAccount m bincode tree (some root) tx.from_ = Run.err e) :
      MadeFor root (.transaction tx) [Core.dummyProof tx.from_, Core.dummyProof tx.to_]
  | failure {op : Op} {t : Transfer} {p q : MerkleProof} {a : Account} (h : op.transfer = some t)
      (hp : Core.buildStfProof m bincode tree root t.from_ = .ok p)
      (hq : Core.buildStfProof m bincode tree root t.to_ = .ok q)
      (hresult : transfer p.account q.account t.nonce t.fee t.amount = .ok (.failure a)) :
      MadeFor root op [p, q]
  /-- The proof of the recipient is made a second time, at the root after the debit. -/
  | success {op : Op} {t : Transfer} {p r q : MerkleProof} {a b : Account}
      (h : op.transfer = some t) (hp : Core.buildStfProof m bincode tree root t.from_ = .ok p)
      (hr : Core.buildStfProof m bincode tree root t.to_ = .ok r)
      (hresult : transfer p.account r.account t.nonce t.fee t.amount = .ok (.success a b))
      (hq : Core.buildStfProof m bincode tree (computeNewRoot c p (a.hash c)) t.to_ = .ok q) :
      MadeFor root op [p, q]

/-- The generator arrives at this root with the first `n` operations of the block. -/
def PendingBlock.RootAfter (block : PendingBlock) (n : ℕ) (root : Hash) : Prop :=
  (block.ops.take n).foldlM (Core.nextRoot m bincode c tree) block.preStateRoot = .ok root

/-- The accounts of the tree are stored under their own id. -/
def StoredUnderId : Prop :=
  ∀ (root key leaf : Hash) (a : Account), m.get tree (some root) key = .ok (some leaf) →
    bincode.account leaf.toList = some a → a.id = key

end

/-- The addresses that an operation names, in the order of its proofs. -/
def Op.addresses : Op → List Hash
  | .deposit d => [d.to_]
  | .forced tx => [tx.from_, tx.to_]
  | .transaction tx => [tx.from_, tx.to_]

theorem Op.addresses_of_transfer {op : Op} {t : Transfer} (h : op.transfer = some t) :
    op.addresses = [t.from_, t.to_] := by
  obtain ⟨tx, rfl, -, rfl⟩ | ⟨tx, rfl, rfl⟩ := Op.transfer_eq_some h
  · rfl
  · rfl

section

variable {T : Type} {m : Monotree T} {bincode : Bincode} {c : Crypto} {tree : T} {root : Hash}

theorem StoredUnderId.getAccount (h : StoredUnderId m bincode tree) {key : Hash} {a : Account}
    (ha : Core.getAccount m bincode tree (some root) key = .ok a) : a.id = key := by
  rw [Core.getAccount] at ha
  split at ha
  · exact absurd ha (by simp [Run.err])
  · obtain ⟨found, hfound, ha⟩ := Run.bind_eq_ok.mp ha
    obtain ⟨leaf, hleaf, ha⟩ := Run.bind_eq_ok.mp ha
    rw [Run.okOr_eq_ok] at hleaf ha
    rw [Run.mapErr_eq_ok, hleaf] at hfound
    exact h root key leaf a hfound ha

/-- A proof carries the account of the key that it was built for. -/
theorem StoredUnderId.buildStfProof (h : StoredUnderId m bincode tree) {key : Hash}
    {p : MerkleProof} (hp : Core.buildStfProof m bincode tree root key = .ok p) :
    p.account.id = key := by
  rw [Core.buildStfProof] at hp
  obtain ⟨a, ha, hp⟩ := Run.bind_eq_ok.mp hp
  obtain ⟨raw, -, hp⟩ := Run.bind_eq_ok.mp hp
  obtain ⟨siblings, -, hp⟩ := Run.bind_eq_ok.mp hp
  rw [← Run.pure_eq_ok.mp hp]
  exact BlockExecutor.id_of_orNew (fun _ hget ↦ h.getAccount hget) ha

theorem Core.MadeFor.ids (hstored : StoredUnderId m bincode tree) {op : Op}
    {ps : List MerkleProof} (h : Core.MadeFor m bincode c tree root op ps) :
    ps.map (fun p ↦ p.account.id) = op.addresses := by
  cases h with
  | deposit hp => rw [List.map_singleton, hstored.buildStfProof hp, Op.addresses]
  | dummy _ => rfl
  | skipped _ => rfl
  | failure h hp hq _ =>
    rw [List.map_cons, List.map_singleton, hstored.buildStfProof hp, hstored.buildStfProof hq,
      Op.addresses_of_transfer h]
  | success h hp _ _ hq =>
    rw [List.map_cons, List.map_singleton, hstored.buildStfProof hp, hstored.buildStfProof hq,
      Op.addresses_of_transfer h]

/-! ## One iteration of the generator -/

theorem generateDeposit_made {st st' : Hash × List MerkleProof} {d : Deposit}
    (h : Core.generateDeposit m bincode c tree st d = .ok st') :
    ∃ p, st'.2 = st.2 ++ [p] ∧ Core.MadeFor m bincode c tree st.1 (.deposit d) [p] := by
  obtain ⟨p, hp, hpush⟩ := generateDeposit_eq_ok h
  exact ⟨p, hpush, .deposit hp⟩

/-- An iteration pushes one proof on either list, the ones made for its operation. -/
def Core.Pushes (m : Monotree T) (bincode : Bincode) (c : Crypto) (tree : T) (op : Op)
    (st st' : Core.ProofState) : Prop :=
  ∃ p q, st'.proofsFrom = st.proofsFrom ++ [p] ∧ st'.proofsTo = st.proofsTo ++ [q] ∧
    Core.MadeFor m bincode c tree st.currentRoot op [p, q]

theorem generateTransfer_pushes {st st' : Core.ProofState} {op : Op} {t : Transfer}
    (ht : op.transfer = some t)
    (h : Core.generateTransfer m bincode c tree st t.from_ t.to_
      (fun a b ↦ transfer a b t.nonce t.fee t.amount) = .ok st') :
    Core.Pushes m bincode c tree op st st' := by
  obtain ⟨p, r, hp, hr, ⟨a, hres, rfl⟩ | ⟨a, b, q, hres, hq, rfl⟩⟩ := generateTransfer_eq_ok h
  · exact ⟨p, r, rfl, rfl, .failure ht hp hr hres⟩
  · exact ⟨p, q, rfl, rfl, .success ht hp hr hres hq⟩

theorem generateForced_pushes {st st' : Core.ProofState} {tx : ForcedTx}
    (h : Core.generateForced m bincode c tree st tx = .ok st') :
    Core.Pushes m bincode c tree (.forced tx) st st' := by
  rw [Core.generateForced] at h
  split at h
  · rename_i hdummy
    rw [← Run.pure_eq_ok.mp h]
    exact ⟨_, _, rfl, rfl, .dummy hdummy⟩
  · rename_i hreal
    have htransfer : (Op.forced tx).transfer
        = some ⟨tx.from_, tx.to_, tx.nonce, tx.fee, tx.amount⟩ := if_neg hreal
    exact generateTransfer_pushes htransfer h

theorem generateTx_pushes {st st' : Core.ProofState} {tx : Transaction}
    (h : Core.generateTx m bincode c tree st tx = .ok st') :
    Core.Pushes m bincode c tree (.transaction tx) st st' := by
  rw [Core.generateTx] at h
  split at h
  · exact absurd h (by simp [Run.panic])
  · rename_i e hget
    rw [← Run.pure_eq_ok.mp h]
    exact ⟨_, _, rfl, rfl, .skipped hget⟩
  · have htransfer : (Op.transaction tx).transfer
        = some ⟨tx.from_, tx.to_, tx.nonce, tx.fee, tx.amount⟩ := rfl
    exact generateTransfer_pushes htransfer h

/-! ## The loops of the generator -/

/-- The roots that a loop has gone through up to one of its iterations. -/
theorem foldlM_roots {σ α : Type} {f : σ → α → Run CoreError σ} {g : σ → Hash} {op : α → Op}
    (hmap : ∀ s x, (f s x).map g = Core.nextRoot m bincode c tree (g s) (op x)) {xs : List α}
    {s s' : σ} (h : xs.foldlM f s = .ok s') :
    (xs.map op).foldlM (Core.nextRoot m bincode c tree) (g s) = .ok (g s') := by
  rw [List.foldlM_map, ← Run.foldlM_map (fun s x _ ↦ hmap s x) s, h]
  rfl

/-- The loop over deposits. -/
theorem deposits_made {ds : List Deposit} {st' : Hash × List MerkleProof}
    (h : ds.foldlM (Core.generateDeposit m bincode c tree) (root, []) = .ok st') :
    st'.2.length = ds.length ∧ ∀ i d, ds[i]? = some d → ∃ r p,
      ((ds.take i).map Op.deposit).foldlM (Core.nextRoot m bincode c tree) root = .ok r ∧
        Core.MadeFor m bincode c tree r (.deposit d) [p] ∧ st'.2[i]? = some p := by
  have hpush : ∀ d ∈ ds, ∀ s s', Core.generateDeposit m bincode c tree s d = .ok s' →
      ∃ p, s'.2 = s.2 ++ [p] := fun d _ s s' hstep ↦
    have ⟨p, hp, _⟩ := generateDeposit_made hstep
    ⟨p, hp⟩
  constructor
  · obtain ⟨ps, hps, hlength⟩ := Run.foldlM_push hpush h
    rw [hps, List.nil_append, hlength]
  · intro i d hd
    obtain ⟨t, t', htake, hstep, hdrop⟩ := Run.foldlM_at h hd
    obtain ⟨p, hp, hmade⟩ := generateDeposit_made hstep
    exact ⟨t.1, p, foldlM_roots (g := Prod.fst) generateDeposit_map htake, hmade,
      Run.getElem?_of_push hpush rfl (List.getElem?_eq_some_iff.mp hd).1 htake hdrop hp⟩

/-- A loop whose iterations push one proof on either list. -/
theorem transfers_made {α : Type} {f : Core.ProofState → α → Run CoreError Core.ProofState}
    {op : α → Op} (hmap : ∀ st x, (f st x).map Core.ProofState.currentRoot
      = Core.nextRoot m bincode c tree st.currentRoot (op x))
    (hpush : ∀ st st' x, f st x = .ok st' → Core.Pushes m bincode c tree (op x) st st')
    {xs : List α} {st' : Core.ProofState} (h : xs.foldlM f ⟨root, [], []⟩ = .ok st') :
    st'.proofsFrom.length = xs.length ∧ st'.proofsTo.length = xs.length ∧
      ∀ i x, xs[i]? = some x → ∃ r p q,
        ((xs.take i).map op).foldlM (Core.nextRoot m bincode c tree) root = .ok r ∧
          Core.MadeFor m bincode c tree r (op x) [p, q] ∧
          st'.proofsFrom[i]? = some p ∧ st'.proofsTo[i]? = some q := by
  have hfrom : ∀ x ∈ xs, ∀ s s', f s x = .ok s' →
      ∃ p, s'.proofsFrom = s.proofsFrom ++ [p] := fun x _ s s' hstep ↦
    have ⟨p, _, hp, _⟩ := hpush s s' x hstep
    ⟨p, hp⟩
  have hto : ∀ x ∈ xs, ∀ s s', f s x = .ok s' →
      ∃ q, s'.proofsTo = s.proofsTo ++ [q] := fun x _ s s' hstep ↦
    have ⟨_, q, _, hq, _⟩ := hpush s s' x hstep
    ⟨q, hq⟩
  refine ⟨?_, ?_, fun i x hx ↦ ?_⟩
  · obtain ⟨ps, hps, hlength⟩ := Run.foldlM_push hfrom h
    rw [hps, List.nil_append, hlength]
  · obtain ⟨qs, hqs, hlength⟩ := Run.foldlM_push hto h
    rw [hqs, List.nil_append, hlength]
  · obtain ⟨t, t', htake, hstep, hdrop⟩ := Run.foldlM_at h hx
    obtain ⟨p, q, hp, hq, hmade⟩ := hpush t t' x hstep
    have hi := (List.getElem?_eq_some_iff.mp hx).1
    exact ⟨t.currentRoot, p, q, foldlM_roots (g := Core.ProofState.currentRoot) hmap htake, hmade,
      Run.getElem?_of_push hfrom rfl hi htake hdrop hp,
      Run.getElem?_of_push hto rfl hi htake hdrop hq⟩

end

/-! ## Where the guest looks -/

/-- The operation of an iteration. -/
def Item.op : Item → Op
  | .deposit d _ => .deposit d
  | .forced tx _ => .forced tx
  | .transaction tx _ => .transaction tx

/-- What an iteration finds where it looks for proofs. -/
def Item.entries (inp : TransitionInputs) : Item → List (Option MerkleProof)
  | .deposit _ i => [inp.proofsDeposits[i]?]
  | .forced _ i => [inp.proofsForcedFrom[i]?, inp.proofsForcedTo[i]?]
  | .transaction _ i => [inp.proofsTxsFrom[i]?, inp.proofsTxsTo[i]?]

/-- The iteration of the guest for an operation that is handed its own proofs and no others. -/
def Op.stepWith (c : Crypto) (ps : List MerkleProof) (currentRoot : Hash) : Op → Run StfError Hash
  | .deposit d => depositStep c ps currentRoot (d, 0)
  | .forced tx => forcedStep c ps (ps.drop 1) currentRoot (tx, 0)
  | .transaction tx => txStep c ps (ps.drop 1) currentRoot (tx, 0)

section

variable {c : Crypto} {inp : TransitionInputs} {x : Item}

theorem transferStep_congr {proofsFrom proofsTo proofsFrom' proofsTo' : List MerkleProof} {i j : ℕ}
    (hfrom : proofsFrom[i]? = proofsFrom'[j]?) (hto : proofsTo[i]? = proofsTo'[j]?) (to_ : Hash)
    (apply : Account → Account → Except StfError TransactionResult) (root : Hash) :
    transferStep c proofsFrom proofsTo i to_ apply root
      = transferStep c proofsFrom' proofsTo' j to_ apply root := by
  simp only [transferStep, Run.index, hfrom, hto]

theorem Item.getElem?_entries {ps : List MerkleProof} (h : x.entries inp = ps.map some) {i : ℕ}
    {e : Option MerkleProof} (he : (x.entries inp)[i]? = some e) : e = ps[i]? := by
  rw [h, List.getElem?_map, Option.map_eq_some_iff] at he
  obtain ⟨p, hp, rfl⟩ := he
  exact hp.symm

/-- The iteration is that of its operation with the proofs that it finds: it sees no others. -/
theorem Item.step_eq_stepWith {ps : List MerkleProof} (h : x.entries inp = ps.map some)
    (root : Hash) : x.step c inp root = x.op.stepWith c ps root := by
  cases x with
  | deposit d i =>
    have hproof : inp.proofsDeposits[i]? = ps[0]? := getElem?_entries h rfl
    simp only [step, op, Op.stepWith, depositStep, Run.index, hproof]
  | forced tx i =>
    have hfrom : inp.proofsForcedFrom[i]? = ps[0]? := getElem?_entries h rfl
    have hto : inp.proofsForcedTo[i]? = (ps.drop 1)[0]? := by
      rw [List.getElem?_drop]
      exact getElem?_entries h rfl
    simp only [step, op, Op.stepWith, forcedStep, transferStep_congr hfrom hto]
  | transaction tx i =>
    have hfrom : inp.proofsTxsFrom[i]? = ps[0]? := getElem?_entries h rfl
    have hto : inp.proofsTxsTo[i]? = (ps.drop 1)[0]? := by
      rw [List.getElem?_drop]
      exact getElem?_entries h rfl
    simp only [step, op, Op.stepWith, txStep, transferStep_congr hfrom hto]

/-- An iteration that finds the proofs of the accounts it names writes to no others. -/
theorem Item.writes_named {ps : List MerkleProof} (h : x.entries inp = ps.map some)
    (hids : ps.map (fun p ↦ p.account.id) = x.op.addresses) : ∀ w ∈ x.writes inp, w.Named := by
  have hid : ∀ {i : ℕ} {p : MerkleProof} {k : Hash}, (x.entries inp)[i]? = some (some p) →
      x.op.addresses[i]? = some k → p.account.id = k := by
    intro i p k hp hk
    rw [← hids, List.getElem?_map, ← getElem?_entries h hp, Option.map_some] at hk
    exact Option.some_inj.mp hk
  cases x with
  | deposit d i =>
    exact depositWrites_named.mpr fun p hp ↦
      hid (i := 0) (by rw [entries, List.getElem?_cons_zero, hp]) rfl
  | forced tx i =>
    refine forcedWrites_named.mpr fun _ p hp ↦ ⟨?_, fun _ q hq ↦ ?_⟩
    · exact hid (i := 0) (by rw [entries, List.getElem?_cons_zero, hp]) rfl
    · exact hid (i := 1) (by rw [entries, List.getElem?_cons_succ, List.getElem?_cons_zero, hq]) rfl
  | transaction tx i =>
    refine transferWrites_named.mpr fun p hp ↦ ⟨?_, fun _ q hq ↦ ?_⟩
    · exact hid (i := 0) (by rw [entries, List.getElem?_cons_zero, hp]) rfl
    · exact hid (i := 1) (by rw [entries, List.getElem?_cons_succ, List.getElem?_cons_zero, hq]) rfl

theorem not_panicsWith_checkProof {msg : String} {p : MerkleProof} {root : Hash} :
    ¬ (checkProof c p root).PanicsWith msg := by
  rw [checkProof]
  split <;> simp

theorem not_panicsWith_transferStep {msg : String} {proofsFrom proofsTo : List MerkleProof} {i : ℕ}
    {p q : MerkleProof} (hfrom : proofsFrom[i]? = some p) (hto : proofsTo[i]? = some q) (to_ : Hash)
    (apply : Account → Account → Except StfError TransactionResult) (root : Hash) :
    ¬ (transferStep c proofsFrom proofsTo i to_ apply root).PanicsWith msg := by
  rw [transferStep, Run.index_eq_ok.mpr hfrom, Run.ok_bind, Run.panicsWith_bind]
  rintro (hcheck | ⟨-, -, hrest⟩)
  · exact not_panicsWith_checkProof hcheck
  · obtain hresult | ⟨res, -, hrest⟩ := Run.panicsWith_bind.mp hrest
    · exact Run.not_panicsWith_ofExcept hresult
    · cases res with
      | success a b =>
        simp only [Run.index_eq_ok.mpr hto, Run.ok_bind, Run.panicsWith_bind,
          not_panicsWith_checkProof, Run.not_panicsWith_pure, and_false, exists_false,
          or_self] at hrest
      | failure a => exact Run.not_panicsWith_pure hrest

/-- An iteration that finds its proofs does not panic. -/
theorem Item.not_panicsWith_step {msg : String} {ps : List MerkleProof}
    (h : x.entries inp = ps.map some) (root : Hash) : ¬ (x.step c inp root).PanicsWith msg := by
  have hfound : ∀ e ∈ x.entries inp, ∃ p, e = some p := by
    intro e he
    rw [h] at he
    obtain ⟨p, -, hp⟩ := List.mem_map.mp he
    exact ⟨p, hp.symm⟩
  cases x with
  | deposit d i =>
    obtain ⟨p, hp⟩ := hfound _ (List.mem_singleton_self _)
    rw [step, depositStep, Run.index_eq_ok.mpr hp, Run.ok_bind, Run.panicsWith_bind]
    rintro (hcheck | ⟨-, -, hrest⟩)
    · exact not_panicsWith_checkProof hcheck
    · obtain happly | ⟨a, -, hrest⟩ := Run.panicsWith_bind.mp hrest
      · exact Run.not_panicsWith_ofExcept happly
      · exact Run.not_panicsWith_pure hrest
  | forced tx i =>
    simp only [entries, List.forall_mem_cons] at hfound
    obtain ⟨⟨p, hp⟩, ⟨q, hq⟩, -⟩ := hfound
    rw [step, forcedStep]
    split
    · exact Run.not_panicsWith_pure
    · exact not_panicsWith_transferStep hp hq _ _ _
  | transaction tx i =>
    simp only [entries, List.forall_mem_cons] at hfound
    obtain ⟨⟨p, hp⟩, ⟨q, hq⟩, -⟩ := hfound
    exact not_panicsWith_transferStep hp hq tx.to_ (fun a b ↦ applyTransaction a b tx) root

/-- A guest that finds its proofs does not panic. -/
theorem not_panicsWith_executeTransition {msg : String}
    (h : ∀ x ∈ items inp, ∃ ps : List MerkleProof, x.entries inp = ps.map some) :
    ¬ (executeTransition c inp).PanicsWith msg := by
  rw [executeTransition_eq_items, Run.panicsWith_map]
  refine Run.not_panicsWith_foldlM (fun x hx root ↦ ?_) _
  obtain ⟨ps, hps⟩ := h x hx
  exact Item.not_panicsWith_step hps root

theorem forall_getElem?_append {α : Type} {xs ys : List α} {P : ℕ → α → Prop} :
    (∀ n x, (xs ++ ys)[n]? = some x → P n x) ↔
      (∀ n x, xs[n]? = some x → P n x) ∧ ∀ n y, ys[n]? = some y → P (xs.length + n) y := by
  constructor
  · intro h
    refine ⟨fun n x hx ↦ h n x ?_, fun n y hy ↦ h _ y ?_⟩
    · rw [List.getElem?_append_left (List.getElem?_eq_some_iff.mp hx).1, hx]
    · rw [List.getElem?_append_right (Nat.le_add_right _ _), Nat.add_sub_cancel_left, hy]
  · rintro ⟨hxs, hys⟩ n z hz
    rcases Nat.lt_or_ge n xs.length with hn | hn
    · rw [List.getElem?_append_left hn] at hz
      exact hxs n z hz
    · rw [List.getElem?_append_right hn] at hz
      have hposition := hys _ z hz
      rwa [Nat.add_sub_cancel' hn] at hposition

/-- What holds at every position holds of the three lists. -/
theorem forall_getElem?_items {P : ℕ → Item → Prop} :
    (∀ n x, (items inp)[n]? = some x → P n x) ↔
      (∀ (i : ℕ) (d : Deposit), inp.deposits[i]? = some d → P i (.deposit d i)) ∧
        (∀ (i : ℕ) (tx : ForcedTx), inp.forcedTxs[i]? = some tx →
          P (inp.deposits.length + i) (.forced tx i)) ∧
        (∀ (i : ℕ) (tx : Transaction), inp.txs[i]? = some tx →
          P (inp.deposits.length + (inp.forcedTxs.length + i)) (.transaction tx i)) := by
  have hitems : ∀ {α : Type} {f : α × ℕ → Item} {xs : List α} {Q : ℕ → Item → Prop},
      (∀ n x, (xs.zipIdx.map f)[n]? = some x → Q n x) ↔
        ∀ (i : ℕ) (a : α), xs[i]? = some a → Q i (f (a, i)) := by
    intro α f xs Q
    simp only [List.getElem?_map, List.getElem?_zipIdx, Option.map_map, Option.map_eq_some_iff,
      Nat.zero_add, Function.comp_apply]
    constructor
    · exact fun h i a ha ↦ h i _ ⟨a, ha, rfl⟩
    · rintro h n _ ⟨a, ha, rfl⟩
      exact h n a ha
  simp only [items, forall_getElem?_append, hitems, List.length_map, List.length_zipIdx]

end

/-! ## The bundle -/

/-- One entry for every operation, in every list. -/
structure ProofBundle.OneEach (bundle : ProofBundle) (block : PendingBlock) : Prop where
  deposits : bundle.proofsDeposits.length = block.deposits.length
  forcedFrom : bundle.proofsForcedFrom.length = block.forcedTxs.length
  forcedTo : bundle.proofsForcedTo.length = block.forcedTxs.length
  txsFrom : bundle.proofsTxsFrom.length = block.txs.length
  txsTo : bundle.proofsTxsTo.length = block.txs.length

section

variable {T : Type} {m : Monotree T} {bincode : Bincode} {c : Crypto} {tree : T}
  {block : PendingBlock} {bundle : ProofBundle}

/-- The guest meets the operations of the block in their order. -/
theorem map_op_items : (items (block.inputs bundle)).map Item.op = block.ops := by
  have hmap : ∀ {α : Type} (f : α → Op) (xs : List α),
      xs.zipIdx.map (fun x ↦ f x.1) = xs.map f := by
    intro α f xs
    conv_rhs => rw [← List.zipIdx_map_fst 0 xs, List.map_map]
    rfl
  rw [PendingBlock.ops, blockOps, ← hmap Op.deposit, ← hmap Op.forced, ← hmap Op.transaction,
    items, List.map_append, List.map_append, List.map_map, List.map_map, List.map_map]
  rfl

/-- The guest finds the proofs that the generator has made when it met the operation. -/
theorem generated_entries
    (hgen : Core.generateProofsForBlock m bincode c tree block = .ok bundle) :
    bundle.OneEach block ∧
      ∀ n x, (items (block.inputs bundle))[n]? = some x → ∃ root ps,
        block.RootAfter m bincode c tree n root ∧ Core.MadeFor m bincode c tree root x.op ps ∧
          x.entries (block.inputs bundle) = ps.map some := by
  obtain ⟨ds, forced, txs, hds, hforced, htxs, rfl⟩ := generateProofsForBlock_eq_ok hgen
  obtain ⟨hdepositsLength, hdeposits⟩ := deposits_made hds
  obtain ⟨hforcedFrom, hforcedTo, hforcedTxs⟩ :=
    transfers_made generateForced_map (fun _ _ _ ↦ generateForced_pushes) hforced
  obtain ⟨htxsFrom, htxsTo, htransactions⟩ :=
    transfers_made generateTx_map (fun _ _ _ ↦ generateTx_pushes) htxs
  have hafterDeposits := foldlM_roots (g := Prod.fst) generateDeposit_map hds
  have hafterForced := foldlM_roots (g := Core.ProofState.currentRoot) generateForced_map hforced
  refine ⟨⟨hdepositsLength, hforcedFrom, hforcedTo, htxsFrom, htxsTo⟩, ?_⟩
  rw [forall_getElem?_items]
  refine ⟨fun i d hd ↦ ?_, fun i tx htx ↦ ?_, fun i tx htx ↦ ?_⟩
  · obtain ⟨r, p, hroot, hmade, hp⟩ := hdeposits i d hd
    refine ⟨r, [p], ?_, hmade, congrArg (fun e ↦ [e]) hp⟩
    rw [PendingBlock.RootAfter, PendingBlock.ops, blockOps, List.take_append_of_le_length,
      ← List.map_take]
    · exact hroot
    · rw [List.length_map]
      exact Nat.le_of_lt (List.getElem?_eq_some_iff.mp hd).1
  · obtain ⟨r, p, q, hroot, hmade, hp, hq⟩ := hforcedTxs i tx htx
    refine ⟨r, [p, q], ?_, hmade, by rw [Item.entries]; exact congrArg₂ (fun e f ↦ [e, f]) hp hq⟩
    have hi : i ≤ (block.forcedTxs.map Op.forced).length := by
      rw [List.length_map]
      exact Nat.le_of_lt (List.getElem?_eq_some_iff.mp htx).1
    rw [PendingBlock.RootAfter, PendingBlock.ops, blockOps, PendingBlock.inputs,
      ← List.length_map (f := Op.deposit), List.take_length_add_append,
      List.take_append_of_le_length hi, ← List.map_take]
    exact Run.foldlM_append_eq_ok.mpr ⟨_, hafterDeposits, hroot⟩
  · obtain ⟨r, p, q, hroot, hmade, hp, hq⟩ := htransactions i tx htx
    refine ⟨r, [p, q], ?_, hmade, by rw [Item.entries]; exact congrArg₂ (fun e f ↦ [e, f]) hp hq⟩
    rw [PendingBlock.RootAfter, PendingBlock.ops, blockOps, PendingBlock.inputs,
      ← List.length_map (f := Op.deposit), ← List.length_map (f := Op.forced),
      List.take_length_add_append, List.take_length_add_append, ← List.map_take]
    exact Run.foldlM_append_eq_ok.mpr
      ⟨_, hafterDeposits, Run.foldlM_append_eq_ok.mpr ⟨_, hafterForced, hroot⟩⟩

/-- A generated bundle is what an honest host supplies, so a run on it touches the accounts that its
operations name and no others. -/
theorem generated_touchesOnlyNamed (hstored : StoredUnderId m bincode tree)
    (hgen : Core.generateProofsForBlock m bincode c tree block = .ok bundle) {t : StateTree}
    (hroot : block.preStateRoot = t.root (stateDigest c))
    (hcf : CollisionFree c (hashedBy c t (writes (block.inputs bundle))) t)
    {root depositsHash forcedTxsHash : Hash}
    (hrun : executeTransition c (block.inputs bundle) = .ok (root, depositsHash, forcedTxsHash)) :
    TouchesOnlyNamed t (writes (block.inputs bundle)) := by
  have hreplay := executeTransition_replay hrun
  rw [show (block.inputs bundle).preStateRoot = t.root (stateDigest c) from hroot] at hreplay
  obtain ⟨hrewrites, -⟩ := Replay.rewrites (fun w hw p hp ↦ Or.inr ⟨w, hw, hp⟩) hcf hreplay
  refine hrewrites.touches_iff_named.mpr fun w hw ↦ ?_
  obtain ⟨x, hx, hwx⟩ := List.mem_flatMap.mp hw
  obtain ⟨n, hn⟩ := List.mem_iff_getElem?.mp hx
  obtain ⟨r, ps, -, hmade, hps⟩ := (generated_entries hgen).2 n x hn
  exact Item.writes_named hps (hmade.ids hstored) w hwx

/-- **The bundle is aligned with the block.**  Every list has one entry for every operation of its
kind.  In its `n`-th iteration the guest finds the proofs that the generator has made for the `n`-th
operation of the block, at the root where it met it; they carry the accounts that the operation
names, and no others are looked at.  From no root does the guest run out of a list. -/
theorem bundle_aligned (hstored : StoredUnderId m bincode tree)
    (hgen : Core.generateProofsForBlock m bincode c tree block = .ok bundle) :
    bundle.OneEach block ∧
      (∀ n x, (items (block.inputs bundle))[n]? = some x →
        block.ops[n]? = some x.op ∧ ∃ root ps, block.RootAfter m bincode c tree n root ∧
          Core.MadeFor m bincode c tree root x.op ps ∧
          ps.map (fun p ↦ p.account.id) = x.op.addresses ∧
          x.entries (block.inputs bundle) = ps.map some ∧
          ∀ r, x.step c (block.inputs bundle) r = x.op.stepWith c ps r) ∧
      ∀ (root : Hash) (msg : String),
        ¬ (executeTransition c { block.inputs bundle with preStateRoot := root }).PanicsWith
          msg := by
  obtain ⟨heach, hentries⟩ := generated_entries hgen
  refine ⟨heach, fun n x hx ↦ ⟨?_, ?_⟩, fun root msg ↦ ?_⟩
  · have hops : (items (block.inputs bundle)).map Item.op = block.ops := map_op_items
    rw [← hops, List.getElem?_map, hx, Option.map_some]
  · obtain ⟨root, ps, hroot, hmade, hps⟩ := hentries n x hx
    exact ⟨root, ps, hroot, hmade, hmade.ids hstored, hps, Item.step_eq_stepWith hps⟩
  · refine not_panicsWith_executeTransition fun x hx ↦ ?_
    obtain ⟨n, hn⟩ := List.mem_iff_getElem?.mp hx
    obtain ⟨-, ps, -, -, hps⟩ := hentries n x hn
    exact ⟨ps, hps⟩

end

/-! ## A block with all kinds of entries

A deposit that overflows, a dummy, a payment of Alice to Bob, and a transaction of Bob, who cannot
be read.  The tree has the roots that the generator comes to. -/

namespace MixedBlock

open FirstDeposit (c alice account)

def bob : Hash := Hash.ofByte 2

/-- Alice after the payment. -/
def debitedAlice : Account := { id := alice, balance := 8, nonce := 1 }

def paidBob : Account := { id := bob, balance := 1, nonce := 0 }

def tree : MemTree :=
  [(account.hash c, [(alice, account.hash c)]),
    (debitedAlice.hash c, [(alice, debitedAlice.hash c)]),
    (paidBob.hash c, [(bob, paidBob.hash c)])]

def block : PendingBlock where
  blockNumber := 1
  txs :=
    [{ from_ := alice, to_ := bob, nonce := 0, fee := 1, amount := 1 },
      { from_ := bob, to_ := alice, nonce := 0, fee := 0, amount := 1 }]
  deposits := [{ to_ := alice, amount := 0xffffffffffffffff, timestamp := 0 }]
  forcedTxs :=
    [{ from_ := Hash.default, to_ := bob, nonce := 0, fee := 0, amount := 0, timestamp := 0
       l2Calldata := [] }]
  preStateRoot := account.hash c
  postStateRoot := paidBob.hash c

def bundle : ProofBundle where
  proofsDeposits := [⟨account, []⟩]
  proofsForcedFrom := [Core.dummyProof Hash.default]
  proofsForcedTo := [Core.dummyProof bob]
  proofsTxsFrom := [⟨account, []⟩, Core.dummyProof bob]
  proofsTxsTo := [Core.dummyProof bob, Core.dummyProof alice]

deriving instance DecidableEq for ProofBundle

theorem generateProofsForBlock_block :
    Core.generateProofsForBlock (MemTree.monotree c) Payment.decoder c tree block
      = .ok bundle := by
  decide +kernel

/-- The leaf that the decoder knows is found under Alice only. -/
theorem key_eq_alice {root key : Hash}
    (h : (MemTree.monotree c).get tree (some root) key = .ok (some (account.hash c))) :
    key = alice := by
  have hsingle : ∀ {k v : Hash}, List.lookup key [(k, v)] = some (account.hash c) →
      key = k ∧ v = account.hash c := by
    intro k v hv
    rw [MemTree.lookup_cons_eq] at hv
    by_cases hk : key = k
    · rw [if_pos hk] at hv
      exact ⟨hk, Option.some_inj.mp hv⟩
    · rw [if_neg hk] at hv
      exact absurd hv (by simp)
  simp only [MemTree.monotree] at h
  split at h
  · exact absurd h (by simp)
  · rename_i es hes
    have hlookup := Except.ok.inj h
    have hentries := MemTree.entriesAt_of_find hes
    rw [MemTree.entriesAt] at hentries
    split at hentries
    · rw [← Option.some_inj.mp hentries] at hlookup
      exact absurd hlookup (by simp)
    · obtain ⟨before, after, hsplit, -⟩ := List.lookup_eq_some_iff.mp hentries
      have hmem : (root, es) ∈ tree := hsplit ▸ List.mem_append_right _ List.mem_cons_self
      simp only [tree, List.mem_cons, List.not_mem_nil, or_false, Prod.mk.injEq] at hmem
      rcases hmem with ⟨-, rfl⟩ | ⟨-, rfl⟩ | ⟨-, rfl⟩
      · exact (hsingle hlookup).1
      · exact (hsingle hlookup).1
      · exact absurd (hsingle hlookup).2 (by decide +kernel)

theorem stored : StoredUnderId (MemTree.monotree c) Payment.decoder tree := by
  intro root key leaf a hget ha
  simp only [Payment.decoder] at ha
  split at ha
  · rename_i hleaf
    rw [List.Vector.toList_injective hleaf] at hget
    rw [key_eq_alice hget, ← Option.some_inj.mp ha]
    rfl
  · exact absurd ha (by simp)

end MixedBlock

open MixedBlock in
theorem bundle_aligned_mixed : bundle.OneEach block ∧
    ∀ (root : Hash) (msg : String), ¬ (executeTransition FirstDeposit.c
      { block.inputs bundle with preStateRoot := root }).PanicsWith msg := by
  obtain ⟨heach, -, hcalm⟩ := bundle_aligned stored MixedBlock.generateProofsForBlock_block
  exact ⟨heach, hcalm⟩

end TinyRollup
