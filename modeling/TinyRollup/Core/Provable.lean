import TinyRollup.Core.Chain

/-!
# Which blocks can be proven

A block that the executor has accepted should be provable: the generator should return its proofs,
and the guest should accept them and arrive at the same root.  `provable_iff` says that this happens
for blocks of dummies alone.  The reason is the same in the three loops.  By `Fresh`, the executor
accepts a first operation only if its account is not there (a present one it cannot read).  For such
an account the generator makes up a proof without siblings, and the guest refuses it, because the
digest of a new account is not the root of the tree (`Holds.new_ne_root`).
-/

set_option autoImplicit false

namespace TinyRollup

open ByteString Stf HashTree

/-- The proof made up for an account that is not there. -/
theorem verify_dummyProof {c : Crypto} {k root : Hash} :
    (Core.dummyProof k).verify c root = true ↔ (Account.new k).hash c = root :=
  verify_iff c (Core.dummyProof k) root

section

variable {T : Type} {m : Monotree T} {bincode : Bincode} {c : Crypto} {laws : MonotreeLaws m}
  {tree tree' tree'' : T} {root root' : Hash} {s : AccountMap}

/-! ## The root is not a new account -/

/-- What is hashed for new accounts with these keys, and for the accounts of the tree up to its
root. -/
def hashedAt (m : Monotree T) (c : Crypto) (tree : T) (root : Hash) (s : AccountMap)
    (keys : List Hash) : Set (Preimage Account Hash) :=
  {p | ∃ k ∈ keys, p = .leaf (Account.new k)} ∪
    {p | ∃ k a path, s k = some a ∧
      m.getMerkleProof tree (some root) k = .ok (some (rawPath path)) ∧
      p ∈ insert (.leaf a) (pathPreimages (stateDigest c) (a.hash c) path)}

/-- SHA3-256 has no collision among these strings, and no new account has the digest that stands for
the empty tree. -/
structure CollisionFreeAt (m : Monotree T) (c : Crypto) (tree : T) (root : Hash) (s : AccountMap)
    (keys : List Hash) : Prop where
  injOn : Set.InjOn c.sha3_256 (preimageBytes '' hashedAt m c tree root s keys)
  default_ne : ∀ k ∈ keys, (Account.new k).hash c ≠ Hash.default

theorem stepPreimage_ne_leaf (h : Hash) (st : Bool × Hash) (a : Account) :
    stepPreimage h st ≠ .leaf a := by
  rw [stepPreimage]
  split <;> simp

/-- The root of the tree is not the digest of an account that is not there. -/
theorem Holds.new_ne_root (h : Holds laws c tree root s) (hpresent : laws.ProvesPresent c)
    {keys : List Hash} (hcf : CollisionFreeAt m c tree root s keys) {k : Hash} (hk : k ∈ keys)
    (hnone : s k = none) :
    (Account.new k).hash c ≠ root := by
  intro heq
  by_cases hroot : root = Hash.default
  · exact hcf.default_ne k hk (heq.trans hroot)
  obtain ⟨k', a, ha⟩ := h.nonempty hroot
  have hleaf : laws.leaf tree root k' = some (a.hash c) := by rw [h.leaf, ha, Option.map_some]
  obtain ⟨path, hpath, hfold⟩ := hpresent tree root k' _ h.known hleaf
  have hinj := stateDigest_injOn hcf.injOn
  have hnew : Preimage.leaf (Account.new k) ∈ hashedAt m c tree root s keys := Or.inl ⟨k, hk, rfl⟩
  have hmem : ∀ p ∈ insert (Preimage.leaf a) (pathPreimages (stateDigest c) (a.hash c) path),
      p ∈ hashedAt m c tree root s keys := fun p hp ↦ Or.inr ⟨k', a, path, ha, hpath, hp⟩
  rcases List.eq_nil_or_concat path with rfl | ⟨init, st, rfl⟩
  · -- A tree of one account, which would have to be the new one.
    have hsame : Preimage.leaf (Account.new k) = Preimage.leaf a :=
      hinj hnew (hmem _ (Set.mem_insert _ _)) (heq.trans hfold.symm)
    obtain rfl := Preimage.leaf.inj hsame
    have hid : k = k' := h.keyed k' _ ha
    rw [hid, ha] at hnone
    exact absurd hnone (by simp)
  · rw [List.concat_eq_append, fold_concat] at hfold
    have hlast : stepPreimage (fold (stateDigest c) (a.hash c) init) st
        ∈ hashedAt m c tree root s keys := by
      refine hmem _ (Set.mem_insert_of_mem _ ?_)
      rw [List.concat_eq_append, pathPreimages_concat]
      exact Set.mem_insert _ _
    exact stepPreimage_ne_leaf _ _ _ (hinj hnew hlast (heq.trans hfold.symm)).symm

/-! ## The executor -/

/-- The sender of a transaction, the recipient of a deposit. -/
def Op.key : Op → Hash
  | .deposit d => d.to_
  | .forced tx => tx.from_
  | .transaction tx => tx.from_

/-- A forced transaction that is not executed. -/
def Op.Dummy (op : Op) : Prop := ∃ tx, op = .forced tx ∧ tx.from_ = Hash.default

/-- What an empty executor accepts is a dummy, or its account is not there. -/
theorem BlockExecutor.Fresh.notFound_of_ok {read : Reader T} {ex : BlockExecutor T}
    (hfresh : ex.Fresh) (h : Barren read) {op : Op} (hop : ¬ op.Dummy)
    (hok : (ex.applyOp read op).1 = .ok ()) : NotFound read ex.tree ex.root op.key := by
  cases op with
  | deposit d =>
    by_contra hfound
    obtain ⟨e, he⟩ := hfresh.applyDeposit_of_found h hfound
    rw [BlockExecutor.applyOp, he] at hok
    exact absurd hok (by simp)
  | forced tx =>
    have hfrom : tx.from_ ≠ Hash.default := fun heq ↦ hop ⟨tx, rfl, heq⟩
    rw [BlockExecutor.applyOp, BlockExecutor.applyForcedTx, if_neg hfrom] at hok
    rcases hfresh.applyTransfer h tx.from_ tx.to_ (fun a b ↦ Stf.applyForcedTx a b tx) with
      ⟨hnot, -⟩ | ⟨e, he⟩
    · exact hnot
    · rw [he] at hok
      exact absurd hok (by simp)
  | transaction tx =>
    rw [BlockExecutor.applyOp, BlockExecutor.applyTransaction] at hok
    rcases hfresh.applyTransfer h tx.from_ tx.to_ (fun a b ↦ Stf.applyTransaction a b tx) with
      ⟨hnot, -⟩ | ⟨e, he⟩
    · exact hnot
    · rw [he] at hok
      exact absurd hok (by simp)

/-- Without deposits nothing is cached, and every sender is absent. -/
theorem BlockExecutor.Fresh.applyOps_of_no_deposit {read : Reader T} {ex ex' : BlockExecutor T}
    (hfresh : ex.Fresh) (h : Barren read) {ops : List Op} (hops : ∀ d, Op.deposit d ∉ ops)
    (hok : ex.applyOps read ops = (.ok (), ex')) :
    ex' = ex ∧ ∀ op ∈ ops, ¬ op.Dummy → NotFound read ex.tree ex.root op.key := by
  induction ops with
  | nil => exact ⟨(Prod.mk.inj hok).2.symm, by simp⟩
  | cons op ops ih =>
    obtain ⟨hop, hrest⟩ := applyOps_cons_ok hok
    have hsame : (ex.applyOp read op).2 = ex := by
      refine hfresh.applyOp_of_not_opens h ?_
      rintro ⟨d, rfl, -⟩
      exact hops d (by simp)
    rw [hsame] at hrest
    obtain ⟨hex, hnot⟩ := ih (fun d hd ↦ hops d (List.mem_cons_of_mem _ hd)) hrest
    exact ⟨hex, List.forall_mem_cons.mpr ⟨fun hdummy ↦ hfresh.notFound_of_ok h hdummy hop, hnot⟩⟩

/-! ## The proofs of the generator -/

/-- An account that has not been committed has no proof. -/
theorem Holds.getProof_none (h : Holds laws c tree root s) (habsent : laws.ProvesNoAbsent)
    {k : Hash} (hnone : s k = none) :
    Core.getProof m tree root k = Run.err (.proofNotFound k) := by
  rw [Core.getProof]
  split
  · rfl
  · rename_i hroot
    have hleaf : laws.leaf tree root k = none := by rw [h.leaf, hnone, Option.map_none]
    rw [habsent tree root k hroot h.known hleaf]
    rfl

/-- The proof of a committed account folds to the root. -/
theorem Holds.getProof_some (h : Holds laws c tree root s) (hpresent : laws.ProvesPresent c)
    {k : Hash} {a : Account} (hsome : s k = some a) : ∃ path,
      m.getMerkleProof tree (some root) k = .ok (some (rawPath path)) ∧
        Core.getProof m tree root k = .ok (rawPath path) ∧
        fold (stateDigest c) (a.hash c) path = root := by
  have hleaf : laws.leaf tree root k = some (a.hash c) := by rw [h.leaf, hsome, Option.map_some]
  have hroot := h.root_ne_default hsome
  obtain ⟨path, hpath, hfold⟩ := hpresent tree root k _ h.known hleaf
  refine ⟨path, hpath, ?_, hfold⟩
  rw [Core.getProof, if_neg hroot, hpath]
  rfl

theorem Holds.buildStfProof (h : Holds laws c tree root s) (habsent : laws.ProvesNoAbsent)
    {k : Hash} (hnone : s k = none) :
    Core.buildStfProof m bincode tree root k = .ok (Core.dummyProof k) := by
  have haccount : Core.getAccount m bincode tree (some root) k = Run.err (.accountNotFound k) :=
    h.notFound hnone
  rw [Core.buildStfProof, haccount, h.getProof_none habsent hnone]
  rfl

/-- The deposit loop adds one proof for each deposit. -/
theorem generateDeposit_eq_ok {st st' : Hash × List MerkleProof} {d : Deposit}
    (h : Core.generateDeposit m bincode c tree st d = .ok st') :
    ∃ p, Core.buildStfProof m bincode tree st.1 d.to_ = .ok p ∧ st'.2 = st.2 ++ [p] := by
  rw [Core.generateDeposit] at h
  obtain ⟨p, hp, h⟩ := Run.bind_eq_ok.mp h
  refine ⟨p, hp, ?_⟩
  split at h
  · rw [← Run.pure_eq_ok.mp h]
  · rw [← Run.pure_eq_ok.mp h]
  · exact absurd h (by simp [Run.panic])

/-- A transfer adds one proof on either side.  That of the recipient is made again if the transfer
succeeds. -/
theorem generateTransfer_eq_ok {st st' : Core.ProofState} {from_ to_ : Hash}
    {apply : Account → Account → Except StfError TransactionResult}
    (h : Core.generateTransfer m bincode c tree st from_ to_ apply = .ok st') :
    ∃ p r, Core.buildStfProof m bincode tree st.currentRoot from_ = .ok p ∧
      Core.buildStfProof m bincode tree st.currentRoot to_ = .ok r ∧
      ((∃ a, apply p.account r.account = .ok (.failure a) ∧
          st' = st.push (computeNewRoot c p (a.hash c)) p r) ∨
        ∃ a b q, apply p.account r.account = .ok (.success a b) ∧
          Core.buildStfProof m bincode tree (computeNewRoot c p (a.hash c)) to_ = .ok q ∧
          st' = st.push (computeNewRoot c q (b.hash c)) p q) := by
  rw [Core.generateTransfer] at h
  obtain ⟨p, hp, h⟩ := Run.bind_eq_ok.mp h
  obtain ⟨r, hr, h⟩ := Run.bind_eq_ok.mp h
  obtain ⟨res, hres, h⟩ := Run.bind_eq_ok.mp h
  rw [Run.mapErr_eq_ok, Run.ofExcept_eq_ok] at hres
  refine ⟨p, r, hp, hr, ?_⟩
  cases res with
  | success a b =>
    obtain ⟨q, hq, h⟩ := Run.bind_eq_ok.mp h
    exact Or.inr ⟨a, b, q, hres, hq, (Run.pure_eq_ok.mp h).symm⟩
  | failure a => exact Or.inl ⟨a, hres, (Run.pure_eq_ok.mp h).symm⟩

theorem generateForced_eq_ok {st st' : Core.ProofState} {tx : ForcedTx}
    (h : Core.generateForced m bincode c tree st tx = .ok st') :
    (tx.from_ = Hash.default ∧
        st' = st.push st.currentRoot (Core.dummyProof tx.from_) (Core.dummyProof tx.to_)) ∨
      (tx.from_ ≠ Hash.default ∧
        ∃ p, Core.buildStfProof m bincode tree st.currentRoot tx.from_ = .ok p ∧
          st'.proofsFrom = st.proofsFrom ++ [p]) := by
  rw [Core.generateForced] at h
  split at h
  · rename_i hdummy
    exact Or.inl ⟨hdummy, (Run.pure_eq_ok.mp h).symm⟩
  · rename_i hdummy
    obtain ⟨p, r, hp, -, ⟨a, -, rfl⟩ | ⟨a, b, q, -, -, rfl⟩⟩ := generateTransfer_eq_ok h
    · exact Or.inr ⟨hdummy, p, hp, rfl⟩
    · exact Or.inr ⟨hdummy, p, hp, rfl⟩

/-- Of a transaction whose sender is not found nothing is generated but dummies. -/
theorem generateTx_of_notFound {st : Core.ProofState} {tx : Transaction}
    (h : NotFound (Core.getAccount m bincode) tree (some st.currentRoot) tx.from_) :
    Core.generateTx m bincode c tree st tx
      = .ok (st.push st.currentRoot (Core.dummyProof tx.from_) (Core.dummyProof tx.to_)) := by
  have hread : Core.getAccount m bincode tree (some st.currentRoot) tx.from_
      = .error (.err (.accountNotFound tx.from_)) := h
  rw [Core.generateTx, hread]
  rfl

theorem generateTx_grows (hread : Barren (Core.getAccount m bincode)) {st st' : Core.ProofState}
    {tx : Transaction} (h : Core.generateTx m bincode c tree st tx = .ok st') :
    st.proofsFrom <+: st'.proofsFrom := by
  rw [Core.generateTx] at h
  split at h
  · exact absurd h (by simp [Run.panic])
  · rw [← Run.pure_eq_ok.mp h]
    exact List.prefix_append _ _
  · rename_i a ha
    exact absurd ha (hread.ne_ok _ _ _ _)

theorem generateDeposits_grows {ds : List Deposit} {st st' : Hash × List MerkleProof}
    (h : ds.foldlM (Core.generateDeposit m bincode c tree) st = .ok st') : st.2 <+: st'.2 := by
  have hpush : ∀ d ∈ ds, ∀ x x', Core.generateDeposit m bincode c tree x d = .ok x' →
      ∃ p, x'.2 = x.2 ++ [p] := fun d _ x x' hstep ↦
    have ⟨p, _, hp⟩ := generateDeposit_eq_ok hstep
    ⟨p, hp⟩
  obtain ⟨ps, hps, -⟩ := Run.foldlM_push hpush h
  exact ⟨ps, hps.symm⟩

theorem generateForceds_grows {txs : List ForcedTx} {st st' : Core.ProofState}
    (h : txs.foldlM (Core.generateForced m bincode c tree) st = .ok st') :
    st.proofsFrom <+: st'.proofsFrom := by
  have hpush : ∀ tx ∈ txs, ∀ x x', Core.generateForced m bincode c tree x tx = .ok x' →
      ∃ p, x'.proofsFrom = x.proofsFrom ++ [p] := by
    intro tx _ x x' hstep
    rcases generateForced_eq_ok hstep with ⟨-, rfl⟩ | ⟨-, p, -, hp⟩
    · exact ⟨_, rfl⟩
    · exact ⟨p, hp⟩
  obtain ⟨ps, hps, -⟩ := Run.foldlM_push hpush h
  exact ⟨ps, hps.symm⟩

theorem generateTxs_grows (hread : Barren (Core.getAccount m bincode)) {txs : List Transaction}
    {st st' : Core.ProofState}
    (h : txs.foldlM (Core.generateTx m bincode c tree) st = .ok st') :
    st.proofsFrom <+: st'.proofsFrom :=
  Run.foldlM_invariant (I := fun x ↦ st.proofsFrom <+: x.proofsFrom)
    (fun _ _ _ _ hx hstep ↦ hx.trans (generateTx_grows hread hstep)) (List.prefix_refl _) h

theorem getElem?_of_prefix {α : Type} {xs ys : List α} {x : α} (h : xs ++ [x] <+: ys) :
    ys[xs.length]? = some x := by
  obtain ⟨zs, rfl⟩ := h
  rw [List.append_assoc, List.getElem?_append_right (Nat.le_refl _), Nat.sub_self]
  rfl

/-! ## The guest refuses the proofs -/

/-- A first deposit is refused. -/
theorem deposits_refused {d : Deposit} {ds : List Deposit} {st : Hash × List MerkleProof}
    (hbuild : Core.buildStfProof m bincode tree root d.to_ = .ok (Core.dummyProof d.to_))
    (hne : (Account.new d.to_).hash c ≠ root)
    (hgen : (d :: ds).foldlM (Core.generateDeposit m bincode c tree) (root, []) = .ok st) :
    (d :: ds).zipIdx.foldlM (depositStep c st.2) root ≠ .ok root' := by
  intro hguest
  obtain ⟨st₁, hfirst, hrest⟩ := Run.foldlM_cons_eq_ok.mp hgen
  obtain ⟨p, hp, hst₁⟩ := generateDeposit_eq_ok hfirst
  obtain rfl := Except.ok.inj (hbuild.symm.trans hp)
  have hproof : st.2[0]? = some (Core.dummyProof d.to_) := by
    have hgrows := generateDeposits_grows hrest
    rw [hst₁] at hgrows
    exact getElem?_of_prefix hgrows
  rw [List.zipIdx_cons] at hguest
  obtain ⟨r₁, hstep, -⟩ := Run.foldlM_cons_eq_ok.mp hguest
  obtain ⟨q, a, hq, hverify, -⟩ := depositStep_eq_ok.mp hstep
  obtain rfl := Option.some_inj.mp (hproof.symm.trans hq)
  exact hne (verify_dummyProof.mp hverify)

/-- The forced transactions that the guest takes with these proofs are dummies, and the root stays
what it was. -/
theorem forced_dummies {proofsTo : List MerkleProof} {txs : List ForcedTx}
    (hbuild : ∀ tx ∈ txs, tx.from_ ≠ Hash.default →
      Core.buildStfProof m bincode tree root tx.from_ = .ok (Core.dummyProof tx.from_) ∧
        (Account.new tx.from_).hash c ≠ root) {st' : Core.ProofState} :
    ∀ {st : Core.ProofState}, st.currentRoot = root →
      txs.foldlM (Core.generateForced m bincode c tree) st = .ok st' →
      (txs.zipIdx st.proofsFrom.length).foldlM (forcedStep c st'.proofsFrom proofsTo) root
        = .ok root' →
      (∀ tx ∈ txs, tx.from_ = Hash.default) ∧ st'.currentRoot = root ∧ root' = root := by
  induction txs with
  | nil =>
    intro st hroot hgen hguest
    obtain rfl := Run.foldlM_nil_eq_ok.mp hgen
    exact ⟨by simp, hroot, (Run.foldlM_nil_eq_ok.mp hguest).symm⟩
  | cons tx txs ih =>
    intro st hroot hgen hguest
    obtain ⟨st₁, hfirst, hrest⟩ := Run.foldlM_cons_eq_ok.mp hgen
    rw [List.zipIdx_cons] at hguest
    obtain ⟨r₁, hstep, hguestRest⟩ := Run.foldlM_cons_eq_ok.mp hguest
    rcases generateForced_eq_ok hfirst with ⟨hdummy, rfl⟩ | ⟨hreal, p, hp, hst₁⟩
    · rcases forcedStep_eq_ok.mp hstep with ⟨-, hr₁⟩ | ⟨hreal, -⟩
      · have hlen : (st.push st.currentRoot (Core.dummyProof tx.from_)
            (Core.dummyProof tx.to_)).proofsFrom.length = st.proofsFrom.length + 1 :=
          List.length_append
        rw [hr₁, ← hlen] at hguestRest
        have hroot₁ : (st.push st.currentRoot (Core.dummyProof tx.from_)
            (Core.dummyProof tx.to_)).currentRoot = root := hroot
        obtain ⟨hdummies, hroots⟩ := ih
          (fun tx' htx' ↦ hbuild tx' (List.mem_cons_of_mem _ htx')) hroot₁ hrest hguestRest
        exact ⟨List.forall_mem_cons.mpr ⟨hdummy, hdummies⟩, hroots⟩
      · exact absurd hdummy hreal
    · obtain ⟨hnew, hne⟩ := hbuild tx (by simp) hreal
      rw [hroot] at hp
      obtain rfl := Except.ok.inj (hnew.symm.trans hp)
      have hproof : st'.proofsFrom[st.proofsFrom.length]? = some (Core.dummyProof tx.from_) := by
        have hgrows := generateForceds_grows hrest
        rw [hst₁] at hgrows
        exact getElem?_of_prefix hgrows
      rcases forcedStep_eq_ok.mp hstep with ⟨hdummy, -⟩ | ⟨-, htransfer⟩
      · exact absurd hdummy hreal
      · obtain ⟨q, hq, hverify, -⟩ := transferStep_eq_ok.mp htransfer
        obtain rfl := Option.some_inj.mp (hproof.symm.trans hq)
        exact absurd (verify_dummyProof.mp hverify) hne

/-- A first transaction is refused. -/
theorem txs_refused (hread : Barren (Core.getAccount m bincode)) {proofsTo : List MerkleProof}
    {tx : Transaction} {txs : List Transaction} {st' : Core.ProofState}
    (hnot : NotFound (Core.getAccount m bincode) tree (some root) tx.from_)
    (hne : (Account.new tx.from_).hash c ≠ root)
    (hgen : (tx :: txs).foldlM (Core.generateTx m bincode c tree) ⟨root, [], []⟩ = .ok st') :
    (tx :: txs).zipIdx.foldlM (txStep c st'.proofsFrom proofsTo) root ≠ .ok root' := by
  intro hguest
  obtain ⟨st₁, hfirst, hrest⟩ := Run.foldlM_cons_eq_ok.mp hgen
  rw [generateTx_of_notFound hnot] at hfirst
  obtain rfl := Except.ok.inj hfirst
  have hproof : st'.proofsFrom[0]? = some (Core.dummyProof tx.from_) :=
    getElem?_of_prefix (generateTxs_grows hread hrest)
  rw [List.zipIdx_cons] at hguest
  obtain ⟨r₁, hstep, -⟩ := Run.foldlM_cons_eq_ok.mp hguest
  obtain ⟨q, hq, hverify, -⟩ := transferStep_eq_ok.mp hstep
  obtain rfl := Option.some_inj.mp (hproof.symm.trans hq)
  exact hne (verify_dummyProof.mp hverify)

/-! ## Dummies -/

theorem generateForced_dummies (m : Monotree T) (bincode : Bincode) (c : Crypto) (tree : T)
    {txs : List ForcedTx} (h : ∀ tx ∈ txs, tx.from_ = Hash.default) :
    ∀ st : Core.ProofState, ∃ st', txs.foldlM (Core.generateForced m bincode c tree) st = .ok st' ∧
      st'.currentRoot = st.currentRoot := by
  induction txs with
  | nil => exact fun st ↦ ⟨st, rfl, rfl⟩
  | cons tx txs ih =>
    rw [List.forall_mem_cons] at h
    intro st
    obtain ⟨st', hst', hroot⟩ := ih h.2 (st.push st.currentRoot (Core.dummyProof tx.from_)
      (Core.dummyProof tx.to_))
    refine ⟨st', ?_, hroot⟩
    rw [List.foldlM_cons, Core.generateForced, if_pos h.1]
    exact hst'

theorem forcedStep_dummies {proofsFrom proofsTo : List MerkleProof} {txs : List ForcedTx}
    (h : ∀ tx ∈ txs, tx.from_ = Hash.default) :
    ∀ n, (txs.zipIdx n).foldlM (forcedStep c proofsFrom proofsTo) root = .ok root := by
  induction txs with
  | nil => exact fun n ↦ rfl
  | cons tx txs ih =>
    rw [List.forall_mem_cons] at h
    intro n
    rw [List.zipIdx_cons, List.foldlM_cons, forcedStep, if_pos h.1]
    exact ih h.2 (n + 1)

end

/-! ## Blocks -/

/-- What the prover gives to the guest. -/
def PendingBlock.inputs (block : PendingBlock) (bundle : ProofBundle) : TransitionInputs where
  preStateRoot := block.preStateRoot
  txs := block.txs
  deposits := block.deposits
  forcedTxs := block.forcedTxs
  proofsDeposits := bundle.proofsDeposits
  proofsForcedFrom := bundle.proofsForcedFrom
  proofsForcedTo := bundle.proofsForcedTo
  proofsTxsFrom := bundle.proofsTxsFrom
  proofsTxsTo := bundle.proofsTxsTo

/-- The generator returns proofs with which the guest arrives at the root of the block. -/
def Provable {T : Type} (m : Monotree T) (bincode : Bincode) (c : Crypto) (tree : T)
    (block : PendingBlock) : Prop :=
  ∃ bundle, Core.generateProofsForBlock m bincode c tree block = .ok bundle ∧
    executeTransition c (block.inputs bundle)
      = .ok (block.postStateRoot, hashDeposits c block.deposits, hashForcedTxs c block.forcedTxs)

/-- The accounts that a block asks for first. -/
def PendingBlock.keys (block : PendingBlock) : List Hash :=
  (blockOps block.txs block.deposits block.forcedTxs).map Op.key

/-- A block of dummies alone. -/
structure PendingBlock.OnlyDummies (block : PendingBlock) : Prop where
  deposits : block.deposits = []
  txs : block.txs = []
  forcedTxs : ∀ tx ∈ block.forcedTxs, tx.from_ = Hash.default

section

variable {T : Type} {m : Monotree T} {bincode : Bincode} {c : Crypto} {laws : MonotreeLaws m}
  {tree tree' : T} {s : AccountMap} {block : PendingBlock}

theorem generateProofsForBlock_eq_ok {bundle : ProofBundle}
    (h : Core.generateProofsForBlock m bincode c tree block = .ok bundle) :
    ∃ ds forced txs,
      block.deposits.foldlM (Core.generateDeposit m bincode c tree) (block.preStateRoot, [])
        = .ok ds ∧
      block.forcedTxs.foldlM (Core.generateForced m bincode c tree) ⟨ds.1, [], []⟩ = .ok forced ∧
      block.txs.foldlM (Core.generateTx m bincode c tree) ⟨forced.currentRoot, [], []⟩ = .ok txs ∧
      bundle = { proofsDeposits := ds.2
                 proofsForcedFrom := forced.proofsFrom
                 proofsForcedTo := forced.proofsTo
                 proofsTxsFrom := txs.proofsFrom
                 proofsTxsTo := txs.proofsTo } := by
  rw [Core.generateProofsForBlock] at h
  obtain ⟨ds, hds, h⟩ := Run.bind_eq_ok.mp h
  obtain ⟨forced, hforced, h⟩ := Run.bind_eq_ok.mp h
  obtain ⟨txs, htxs, h⟩ := Run.bind_eq_ok.mp h
  split at h
  · exact ⟨ds, forced, txs, hds, hforced, htxs, (Run.pure_eq_ok.mp h).symm⟩
  · exact absurd h (by simp [Run.panic])

/-- Only dummies are provable: what the executor accepts first, and is no dummy, is refused. -/
theorem Provable.onlyDummies (hprovable : Provable m bincode c tree block)
    (hshort : bincode.RefusesShort) (h : Holds laws c tree block.preStateRoot s)
    (hpresent : laws.ProvesPresent c) (habsent : laws.ProvesNoAbsent)
    (hcf : CollisionFreeAt m c tree block.preStateRoot s block.keys)
    (hdeposit : ∀ d ds, block.deposits = d :: ds → s d.to_ = none)
    (hrest : block.deposits = [] → ∀ op ∈ block.forcedTxs.map Op.forced
      ++ block.txs.map Op.transaction, ¬ op.Dummy → s op.key = none) :
    block.OnlyDummies := by
  obtain ⟨bundle, hgen, hguest⟩ := hprovable
  obtain ⟨ds, forced, txs, hds, hforced, htxs, rfl⟩ := generateProofsForBlock_eq_ok hgen
  obtain ⟨-, -, r₁, r₂, hguestD, hguestF, hguestT⟩ := executeTransition_eq_ok.mp hguest
  simp only [PendingBlock.inputs] at hguestD hguestF hguestT
  have hread := getAccount_barren m hshort
  have hkeys : ∀ op ∈ blockOps block.txs block.deposits block.forcedTxs, op.key ∈ block.keys :=
    fun op hop ↦ List.mem_map_of_mem hop
  have hdeposits : block.deposits = [] := by
    cases hlist : block.deposits with
    | nil => rfl
    | cons d rest =>
      have hnone := hdeposit d rest hlist
      have hkey : d.to_ ∈ block.keys :=
        hkeys (.deposit d) (List.mem_append_left _ (List.mem_map_of_mem (by simp [hlist])))
      rw [hlist] at hds hguestD
      exact absurd hguestD (deposits_refused (h.buildStfProof habsent hnone)
        (h.new_ne_root hpresent hcf hkey hnone) hds)
  have hnew := hrest hdeposits
  rw [hdeposits] at hds hguestD
  obtain rfl := Run.foldlM_nil_eq_ok.mp hds
  obtain rfl := Run.foldlM_nil_eq_ok.mp hguestD
  have hforcedAbsent : ∀ tx ∈ block.forcedTxs, tx.from_ ≠ Hash.default →
      Core.buildStfProof m bincode tree block.preStateRoot tx.from_
          = .ok (Core.dummyProof tx.from_) ∧
        (Account.new tx.from_).hash c ≠ block.preStateRoot := by
    intro tx htx hreal
    have hmem : Op.forced tx ∈ block.forcedTxs.map Op.forced ++ block.txs.map Op.transaction :=
      List.mem_append_left _ (List.mem_map_of_mem htx)
    have hnone : s tx.from_ = none := by
      refine hnew (.forced tx) hmem ?_
      rintro ⟨tx', heq, hdummy⟩
      obtain rfl := Op.forced.inj heq
      exact hreal hdummy
    exact ⟨h.buildStfProof habsent hnone,
      h.new_ne_root hpresent hcf (hkeys (.forced tx) (List.mem_append_right _ hmem)) hnone⟩
  obtain ⟨hdummies, hroot, rfl⟩ := forced_dummies hforcedAbsent rfl hforced hguestF
  refine ⟨hdeposits, ?_, hdummies⟩
  cases hlist : block.txs with
  | nil => rfl
  | cons tx rest =>
    have hmem : Op.transaction tx ∈ block.forcedTxs.map Op.forced ++ block.txs.map Op.transaction :=
      List.mem_append_right _ (List.mem_map_of_mem (by simp [hlist]))
    have hnone : s tx.from_ = none := by
      refine hnew (.transaction tx) hmem ?_
      rintro ⟨tx', heq, -⟩
      exact absurd heq (by simp)
    rw [hlist, hroot] at htxs
    rw [hlist] at hguestT
    exact absurd hguestT (txs_refused hread ((h.notFound_iff hshort _).mpr hnone)
      (h.new_ne_root hpresent hcf (hkeys (.transaction tx) (List.mem_append_right _ hmem)) hnone)
      htxs)

/-- A block of dummies is provable. -/
theorem PendingBlock.OnlyDummies.provable (h : block.OnlyDummies)
    (hroot : block.postStateRoot = block.preStateRoot) : Provable m bincode c tree block := by
  obtain ⟨forced, hforced, hcurrent⟩ := generateForced_dummies m bincode c tree h.forcedTxs
    ⟨block.preStateRoot, [], []⟩
  refine ⟨⟨[], forced.proofsFrom, forced.proofsTo, [], []⟩, ?_, ?_⟩
  · rw [Core.generateProofsForBlock, h.deposits, h.txs]
    simp only [List.foldlM_nil, pure_bind, hforced, Run.ok_bind, hcurrent, hroot, if_true]
    rfl
  · rw [executeTransition_eq_ok]
    simp only [PendingBlock.inputs, h.deposits, h.txs, hroot]
    exact ⟨trivial, trivial, _, _, rfl, forcedStep_dummies h.forcedTxs 0, rfl⟩

end

/-- **A block that the executor has accepted is provable exactly if it consists of dummies.**  The
proof is made at any later time, when other batches may have been applied. -/
theorem provable_iff {T : Type} {m : Monotree T} {bincode : Bincode} {c : Crypto}
    (laws : MonotreeLaws m) (hpresent : laws.ProvesPresent c) (habsent : laws.ProvesNoAbsent)
    (hshort : bincode.RefusesShort) {tree tree' tree'' : T} {s : AccountMap} {order : IterOrder}
    {block : PendingBlock}
    (hreach : Reachable m bincode c tree block.preStateRoot s)
    (hbatch : applyOptimisticBatch (Core.getAccount m bincode) m c order tree
      (some block.preStateRoot) block.txs block.deposits block.forcedTxs
        = (.ok block.postStateRoot, tree'))
    (hlater : Relation.ReflTransGen (BatchOn m bincode c) tree' tree'')
    (hcf : CollisionFreeAt m c tree'' block.preStateRoot s block.keys) :
    Provable m bincode c tree'' block ↔ block.OnlyDummies := by
  have hread := getAccount_barren m hshort
  have hholds := hreach.holds laws hshort
  have hholds'' : Holds laws c tree'' block.preStateRoot s :=
    (hholds.batchOn ⟨order, _, _, _, _, by rw [hbatch]⟩).later hlater
  have hfresh := BlockExecutor.fresh_new tree (some block.preStateRoot)
  rw [applyOptimisticBatch_eq] at hbatch
  split at hbatch
  · exact absurd hbatch (by simp)
  rename_i ex hops
  constructor
  · intro hprovable
    refine hprovable.onlyDummies hshort hholds'' hpresent habsent hcf ?_ ?_
    · intro d ds hlist
      rw [blockOps, hlist, List.map_cons, List.cons_append] at hops
      have hfirst := (BlockExecutor.applyOps_cons_ok hops).1
      exact (hholds.notFound_iff hshort _).mp
        (hfresh.notFound_of_ok hread (by rintro ⟨tx, heq, -⟩; simp at heq) hfirst)
    · intro hlist op hop hdummy
      rw [blockOps, hlist, List.map_nil, List.nil_append] at hops
      exact (hholds.notFound_iff hshort _).mp
        ((hfresh.applyOps_of_no_deposit hread (by simp) hops).2 op hop hdummy)
  · intro hdummies
    refine hdummies.provable ?_
    rw [blockOps, hdummies.deposits, List.map_nil, List.nil_append] at hops
    obtain ⟨rfl, -⟩ := hfresh.applyOps_of_no_deposit hread (by simp) hops
    exact (Except.ok.inj (Prod.mk.inj hbatch).1).symm

/-! ## A sender without an account

Into the mempool goes what anybody sends, so the first block may be one transaction of an account
that is not there. -/

namespace AbsentSender

abbrev c : Crypto := Crypto.sha3Crate

abbrev read : Reader MemTree := Core.getAccount (MemTree.monotree c) Bincode.v1

def alice : Hash := Hash.ofByte 1

def bob : Hash := Hash.ofByte 2

def tx : Transaction := { from_ := alice, to_ := bob, nonce := 0, fee := 0, amount := 1 }

def block : PendingBlock where
  blockNumber := 0
  txs := [tx]
  deposits := []
  forcedTxs := []
  preStateRoot := Hash.default
  postStateRoot := Hash.default

/-- The executor skips the transaction, and nothing is inserted. -/
theorem applyOptimisticBatch_block : applyOptimisticBatch read (MemTree.monotree c) c
    IterOrder.cached [] (some block.preStateRoot) block.txs block.deposits block.forcedTxs
      = (.ok block.postStateRoot, []) := rfl

theorem new_ne_default : (Account.new alice).hash c ≠ Hash.default := by decide +kernel

theorem generateProofsForBlock_block :
    Core.generateProofsForBlock (MemTree.monotree c) Bincode.v1 c [] block
      = .ok ⟨[], [], [], [Core.dummyProof alice], [Core.dummyProof bob]⟩ := rfl

theorem executeTransition_block :
    executeTransition c (block.inputs ⟨[], [], [], [Core.dummyProof alice], [Core.dummyProof bob]⟩)
      = Run.err .merkleProofVerificationFailed := by
  decide +kernel

theorem collisionFreeAt : CollisionFreeAt (MemTree.monotree c) c [] block.preStateRoot
    (fun _ ↦ none) block.keys where
  injOn := by
    rintro _ ⟨p, ⟨k, hk, rfl⟩ | ⟨k, a, path, ha, -⟩, rfl⟩
      _ ⟨q, ⟨k', hk', rfl⟩ | ⟨k', a', path', ha', -⟩, rfl⟩ -
    · rw [List.mem_singleton.mp hk, List.mem_singleton.mp hk']
    · exact absurd ha' (by simp)
    · exact absurd ha (by simp)
    · exact absurd ha (by simp)
  default_ne := fun k hk ↦ List.mem_singleton.mp hk ▸ new_ne_default

end AbsentSender

open AbsentSender in
/-- The executor accepts the block, the generator returns proofs for it, and the guest refuses the
proof of the sender. -/
theorem absentSender_unprovable :
    Reachable (MemTree.monotree c) Bincode.v1 c [] block.preStateRoot (fun _ ↦ none) ∧
      applyOptimisticBatch read (MemTree.monotree c) c IterOrder.cached []
        (some block.preStateRoot) block.txs block.deposits block.forcedTxs
          = (.ok block.postStateRoot, []) ∧
      Core.generateProofsForBlock (MemTree.monotree c) Bincode.v1 c [] block
        = .ok ⟨[], [], [], [Core.dummyProof alice], [Core.dummyProof bob]⟩ ∧
      executeTransition c
          (block.inputs ⟨[], [], [], [Core.dummyProof alice], [Core.dummyProof bob]⟩)
        = Run.err .merkleProofVerificationFailed ∧
      ¬ Provable (MemTree.monotree c) Bincode.v1 c [] block := by
  refine ⟨Reachable.empty [], applyOptimisticBatch_block, generateProofsForBlock_block,
    executeTransition_block, ?_⟩
  rintro ⟨bundle, hgen, hguest⟩
  obtain rfl := Except.ok.inj (generateProofsForBlock_block.symm.trans hgen)
  exact absurd (executeTransition_block.symm.trans hguest) (by simp [Run.err])

open AbsentSender in
theorem provable_iff_absentSender :
    Provable (MemTree.monotree c) Bincode.v1 c [] block ↔ block.OnlyDummies :=
  provable_iff (MemTree.laws c) (MemTree.laws_provesPresent c) (MemTree.laws_provesNoAbsent c)
    Bincode.v1_refusesShort (Reachable.empty []) applyOptimisticBatch_block
    Relation.ReflTransGen.refl collisionFreeAt

end TinyRollup
