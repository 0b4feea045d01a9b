import TinyRollup.Stf.Transition

/-!
# The leaves a guest run rewrites

The three loops of the guest are one loop over the `items` of the input
(`executeTransition_eq_ok_items`).

The guest never sees a tree: it verifies an account against its current root and replaces it.
`writes inp` lists these replacements, from the inputs alone, and `executeTransition_replay` says
that a run that returns is exactly the replay of this list on roots.

`Rewrites t ws t'` replays the list on a tree instead.  `Replay.rewrites` connects the two: under
collision freeness of the hashes of the run, whoever made up the proofs, every verification finds
the account it claims in the current tree, and the root of the run is the root of the tree.

Collision freeness is assumed of an explicit set of preimages, `hashedBy`: what the tree hashes and
what the run hashes.
-/

set_option autoImplicit false

namespace TinyRollup

open ByteString Stf HashTree

/-- One replacement of a leaf by the guest. -/
structure LeafWrite where
  /-- The id of the account the operation names. -/
  named : Hash
  /-- The proof the host supplied for it, with the old account. -/
  proof : MerkleProof
  /-- The new account. -/
  account : Account

namespace LeafWrite

def position (w : LeafWrite) : List Bool := HashTree.position w.proof.siblings

/-- What verifying the old account and folding the new one hashes. -/
def preimages (c : Crypto) (w : LeafWrite) : Set (Preimage Account Hash) :=
  insert (.leaf w.proof.account) (insert (.leaf w.account)
    (pathPreimages (stateDigest c) (w.proof.account.hash c) w.proof.siblings ∪
      pathPreimages (stateDigest c) (w.account.hash c) w.proof.siblings))

end LeafWrite

namespace Stf

/-! ## The writes of a run -/

def depositWrites (proofsDeposits : List MerkleProof) (item : Deposit × ℕ) : List LeafWrite :=
  match proofsDeposits[item.2]? with
  | some p => [⟨item.1.to_, p, credited p.account item.1.amount⟩]
  | none => []

def creditWrites (proofsTo : List MerkleProof) (i : ℕ) (to_ : Hash) (amount : UInt64) :
    List LeafWrite :=
  match proofsTo[i]? with
  | some q => [⟨to_, q, credited (Account.new to_) amount⟩]
  | none => []

def transferWrites (proofsFrom proofsTo : List MerkleProof) (i : ℕ) (from_ to_ : Hash)
    (fee amount : UInt64) : List LeafWrite :=
  match proofsFrom[i]? with
  | some p =>
    if Paid p.account fee amount then
      ⟨from_, p, debited p.account fee amount⟩ :: creditWrites proofsTo i to_ amount
    else [⟨from_, p, charged p.account fee⟩]
  | none => []

def forcedWrites (proofsFrom proofsTo : List MerkleProof) (item : ForcedTx × ℕ) : List LeafWrite :=
  if item.1.from_ = Hash.default then []
  else transferWrites proofsFrom proofsTo item.2 item.1.from_ item.1.to_ item.1.fee item.1.amount

def txWrites (proofsFrom proofsTo : List MerkleProof) (item : Transaction × ℕ) : List LeafWrite :=
  transferWrites proofsFrom proofsTo item.2 item.1.from_ item.1.to_ item.1.fee item.1.amount

end Stf

/-- One iteration of one of the three loops. -/
inductive Item
  | deposit (d : Deposit) (i : ℕ)
  | forced (tx : ForcedTx) (i : ℕ)
  | transaction (tx : Transaction) (i : ℕ)

namespace Item

def step (c : Crypto) (inp : TransitionInputs) (currentRoot : Hash) : Item → Run StfError Hash
  | deposit d i => depositStep c inp.proofsDeposits currentRoot (d, i)
  | forced tx i => forcedStep c inp.proofsForcedFrom inp.proofsForcedTo currentRoot (tx, i)
  | transaction tx i => txStep c inp.proofsTxsFrom inp.proofsTxsTo currentRoot (tx, i)

def writes (inp : TransitionInputs) : Item → List LeafWrite
  | deposit d i => depositWrites inp.proofsDeposits (d, i)
  | forced tx i => forcedWrites inp.proofsForcedFrom inp.proofsForcedTo (tx, i)
  | transaction tx i => txWrites inp.proofsTxsFrom inp.proofsTxsTo (tx, i)

end Item

/-- The iterations of the guest, in order. -/
def items (inp : TransitionInputs) : List Item :=
  inp.deposits.zipIdx.map (fun x ↦ .deposit x.1 x.2) ++
    (inp.forcedTxs.zipIdx.map (fun x ↦ .forced x.1 x.2) ++
      inp.txs.zipIdx.map (fun x ↦ .transaction x.1 x.2))

/-- The leaves the guest rewrites, in order. -/
def writes (inp : TransitionInputs) : List LeafWrite := (items inp).flatMap (Item.writes inp)

/-- The guest is one loop over its items. -/
theorem executeTransition_eq_items (c : Crypto) (inp : TransitionInputs) :
    executeTransition c inp
      = ((items inp).foldlM (fun root (x : Item) ↦ x.step c inp root)
        inp.preStateRoot).map fun root ↦
        (root, hashDeposits c inp.deposits, hashForcedTxs c inp.forcedTxs) := by
  simp only [executeTransition, items, List.foldlM_append, List.foldlM_map, Item.step]
  cases inp.deposits.zipIdx.foldlM (depositStep c inp.proofsDeposits) inp.preStateRoot with
  | error e => rfl
  | ok r₁ =>
    simp only [Run.ok_bind]
    cases inp.forcedTxs.zipIdx.foldlM (forcedStep c inp.proofsForcedFrom inp.proofsForcedTo) r₁ with
    | error e => rfl
    | ok r₂ =>
      simp only [Run.ok_bind]
      cases inp.txs.zipIdx.foldlM (txStep c inp.proofsTxsFrom inp.proofsTxsTo) r₂ <;> rfl

theorem executeTransition_eq_ok_items {c : Crypto} {inp : TransitionInputs} {root dh fh : Hash} :
    executeTransition c inp = .ok (root, dh, fh) ↔
      dh = hashDeposits c inp.deposits ∧ fh = hashForcedTxs c inp.forcedTxs ∧
        (items inp).foldlM (fun root x ↦ x.step c inp root) inp.preStateRoot = .ok root := by
  rw [executeTransition_eq_items]
  cases (items inp).foldlM (fun root (x : Item) ↦ x.step c inp root) inp.preStateRoot with
  | error e => simp [Except.map]
  | ok r =>
    simp only [Except.map, Except.ok.injEq, Prod.mk.injEq]
    exact ⟨fun ⟨hr, hd, hf⟩ ↦ ⟨hd.symm, hf.symm, hr⟩, fun ⟨hd, hf, hr⟩ ↦ ⟨hr, hd.symm, hf.symm⟩⟩

theorem forall_mem_items {inp : TransitionInputs} {P : Item → Prop} :
    (∀ x ∈ items inp, P x) ↔
      (∀ (i : ℕ) (d : Deposit), inp.deposits[i]? = some d → P (.deposit d i)) ∧
        (∀ (i : ℕ) (tx : ForcedTx), inp.forcedTxs[i]? = some tx → P (.forced tx i)) ∧
        (∀ (i : ℕ) (tx : Transaction), inp.txs[i]? = some tx → P (.transaction tx i)) := by
  simp only [items, List.forall_mem_append, List.forall_mem_map, Prod.forall,
    List.mk_mem_zipIdx_iff_getElem?]
  exact and_congr ⟨fun h i d hd ↦ h d i hd, fun h d i hd ↦ h i d hd⟩
    (and_congr ⟨fun h i d hd ↦ h d i hd, fun h d i hd ↦ h i d hd⟩
      ⟨fun h i d hd ↦ h d i hd, fun h d i hd ↦ h i d hd⟩)

/-- The replay of writes on roots: verify the old account, fold the new one. -/
inductive Replay (c : Crypto) : Hash → List LeafWrite → Hash → Prop
  | nil (root : Hash) : Replay c root [] root
  | cons {w : LeafWrite} {ws : List LeafWrite} {root root' : Hash}
      (verified : w.proof.verify c root = true)
      (rest : Replay c (computeNewRoot c w.proof (w.account.hash c)) ws root') :
      Replay c root (w :: ws) root'

theorem Replay.append {c : Crypto} {root root' root'' : Hash} {ws ws' : List LeafWrite}
    (h : Replay c root ws root') (h' : Replay c root' ws' root'') :
    Replay c root (ws ++ ws') root'' := by
  induction h with
  | nil => exact h'
  | cons verified _ ih => exact .cons verified (ih h')

namespace Stf

theorem depositStep_replay {c : Crypto} {proofs : List MerkleProof} {root root' : Hash}
    {item : Deposit × ℕ} (h : depositStep c proofs root item = .ok root') :
    Replay c root (depositWrites proofs item) root' := by
  obtain ⟨p, a, hp, hv, ha, rfl⟩ := depositStep_eq_ok.mp h
  obtain ⟨-, rfl⟩ := applyDeposit_eq_ok_iff.mp ha
  rw [depositWrites, hp]
  exact .cons hv (.nil _)

theorem transferStep_replay {c : Crypto} {proofsFrom proofsTo : List MerkleProof} {i : ℕ}
    {from_ to_ : Hash} {nonce fee amount : UInt64} {root root' : Hash}
    (h : transferStep c proofsFrom proofsTo i to_ (fun a b ↦ transfer a b nonce fee amount) root
      = .ok root') :
    Replay c root (transferWrites proofsFrom proofsTo i from_ to_ fee amount) root' := by
  obtain ⟨p, hp, hv, hres⟩ := transferStep_eq_ok.mp h
  simp only [transferWrites, hp]
  obtain ⟨a, ha, rfl⟩ | ⟨a, b, q, hab, hq, hvq, rfl⟩ := hres
  · obtain ⟨-, -, ⟨hpaid, hr⟩ | ⟨-, -, hr⟩⟩ := transfer_eq_ok_iff.mp ha
    · obtain rfl := TransactionResult.failure.inj hr
      rw [if_neg hpaid]
      exact .cons hv (.nil _)
    · exact absurd hr (by simp)
  · obtain ⟨-, -, ⟨-, hr⟩ | ⟨hpaid, -, hr⟩⟩ := transfer_eq_ok_iff.mp hab
    · exact absurd hr (by simp)
    · obtain ⟨rfl, rfl⟩ := TransactionResult.success.inj hr
      simp only [if_pos hpaid, creditWrites, hq]
      exact .cons hv (.cons hvq (.nil _))

theorem forcedStep_replay {c : Crypto} {proofsFrom proofsTo : List MerkleProof} {root root' : Hash}
    {item : ForcedTx × ℕ} (h : forcedStep c proofsFrom proofsTo root item = .ok root') :
    Replay c root (forcedWrites proofsFrom proofsTo item) root' := by
  rw [forcedWrites]
  obtain ⟨hdummy, rfl⟩ | ⟨hdummy, hstep⟩ := forcedStep_eq_ok.mp h
  · rw [if_pos hdummy]
    exact .nil _
  · rw [if_neg hdummy]
    exact transferStep_replay hstep

theorem txStep_replay {c : Crypto} {proofsFrom proofsTo : List MerkleProof} {root root' : Hash}
    {item : Transaction × ℕ} (h : txStep c proofsFrom proofsTo root item = .ok root') :
    Replay c root (txWrites proofsFrom proofsTo item) root' :=
  transferStep_replay h

end Stf

theorem Item.step_replay {c : Crypto} {inp : TransitionInputs} {root root' : Hash} {x : Item}
    (h : x.step c inp root = .ok root') : Replay c root (x.writes inp) root' := by
  cases x with
  | deposit d i => exact depositStep_replay h
  | forced tx i => exact forcedStep_replay h
  | transaction tx i => exact txStep_replay h

/-- **A run is the replay of its writes.** -/
theorem executeTransition_replay {c : Crypto} {inp : TransitionInputs} {root dh fh : Hash}
    (h : executeTransition c inp = .ok (root, dh, fh)) :
    Replay c inp.preStateRoot (writes inp) root :=
  Run.foldlM_trace Replay.nil Replay.append (fun _ _ _ _ h ↦ Item.step_replay h)
    (executeTransition_eq_ok_items.mp h).2.2

/-! ## The writes on a tree -/

/-- The replay of writes on a tree: the old account is at its place, and is replaced. -/
inductive Rewrites : StateTree → List LeafWrite → StateTree → Prop
  | nil (t : StateTree) : Rewrites t [] t
  | cons {w : LeafWrite} {ws : List LeafWrite} {t t' : StateTree}
      (found : t.get? w.position = some w.proof.account)
      (rest : Rewrites (t.set w.position w.account) ws t') : Rewrites t (w :: ws) t'

theorem Rewrites.append_iff {t t' : StateTree} {ws ws' : List LeafWrite} :
    Rewrites t (ws ++ ws') t' ↔ ∃ u, Rewrites t ws u ∧ Rewrites u ws' t' := by
  induction ws generalizing t with
  | nil =>
    refine ⟨fun h ↦ ⟨t, .nil t, h⟩, fun ⟨u, hu, h⟩ ↦ ?_⟩
    cases hu
    exact h
  | cons w ws ih =>
    constructor
    · rintro (_ | ⟨found, rest⟩)
      obtain ⟨u, hu, h⟩ := ih.mp rest
      exact ⟨u, .cons found hu, h⟩
    · rintro ⟨u, _ | ⟨found, rest⟩, h⟩
      exact .cons found (ih.mpr ⟨u, rest, h⟩)

/-- The tree after some writes. -/
def rewrite (t : StateTree) (ws : List LeafWrite) : StateTree :=
  ws.foldl (fun t w ↦ t.set w.position w.account) t

theorem Rewrites.eq_rewrite {t t' : StateTree} {ws : List LeafWrite} (h : Rewrites t ws t') :
    t' = rewrite t ws := by
  induction h with
  | nil => rfl
  | cons _ _ ih => exact ih

/-- What a tree and the writes on it hash. -/
def hashedBy (c : Crypto) (t : StateTree) (ws : List LeafWrite) : Set (Preimage Account Hash) :=
  t.preimages (stateDigest c) ∪ {p | ∃ w ∈ ws, p ∈ w.preimages c}

/-- SHA3-256 has no collision among the strings hashed for `S`, a set that covers the tree `t`, and
no string hashed for `S` has the digest of an empty place of `t`. -/
structure CollisionFree (c : Crypto) (S : Set (Preimage Account Hash)) (t : StateTree) : Prop where
  injOn : Set.InjOn c.sha3_256 (preimageBytes '' S)
  within : t.Within (stateDigest c) S

/-- Collision freeness of leaves alone. -/
theorem collisionFree_leaves {c : Crypto} {S : Set (Preimage Account Hash)} {a : Account}
    {l : List Account} (hS : ∀ p ∈ S, ∃ b ∈ l, p = .leaf b) (hnd : (l.map (Account.hash c)).Nodup)
    (ha : .leaf a ∈ S) : CollisionFree c S (.leaf a) := by
  refine ⟨?_, fun p hp ↦ (show p = .leaf a from hp) ▸ ha, fun e he ↦ he.elim⟩
  rintro _ ⟨p, hp, rfl⟩ _ ⟨q, hq, rfl⟩ h
  obtain ⟨x, hx, rfl⟩ := hS p hp
  obtain ⟨y, hy, rfl⟩ := hS q hq
  rw [List.inj_on_of_nodup_map hnd hx hy h]

/-- Collision freeness of one write to a tree that is a single leaf. -/
theorem collisionFree_leaf {c : Crypto} {named : Hash} {a b : Account}
    (hnd : ([a, b].map (Account.hash c)).Nodup) :
    CollisionFree c (hashedBy c (.leaf a) [⟨named, ⟨a, []⟩, b⟩]) (.leaf a) := by
  refine collisionFree_leaves ?_ hnd (Or.inl rfl)
  rintro p (hp | ⟨w, hw, hp⟩)
  · exact ⟨a, List.mem_cons_self, hp⟩
  · obtain rfl := List.mem_singleton.mp hw
    simp only [LeafWrite.preimages, pathPreimages, Set.union_self, Set.mem_insert_iff,
      Set.mem_empty_iff_false, or_false] at hp
    rcases hp with rfl | rfl
    · exact ⟨a, List.mem_cons_self, rfl⟩
    · exact ⟨b, List.mem_cons_of_mem _ List.mem_cons_self, rfl⟩

theorem LeafWrite.subset {c : Crypto} {S : Set (Preimage Account Hash)} {w : LeafWrite}
    (h : w.preimages c ⊆ S) :
    Preimage.leaf w.proof.account ∈ S ∧ Preimage.leaf w.account ∈ S ∧
      pathPreimages (stateDigest c) (w.proof.account.hash c) w.proof.siblings ⊆ S ∧
      pathPreimages (stateDigest c) (w.account.hash c) w.proof.siblings ⊆ S := by
  simpa only [LeafWrite.preimages, Set.insert_subset_iff, Set.union_subset_iff] using h

/-- One write on a tree whose root it verifies against. -/
theorem CollisionFree.write {c : Crypto} {S : Set (Preimage Account Hash)} {t : StateTree}
    {w : LeafWrite} (hcf : CollisionFree c S t) (hw : w.preimages c ⊆ S)
    (hv : w.proof.verify c (t.root (stateDigest c)) = true) :
    t.get? w.position = some w.proof.account ∧
      (t.set w.position w.account).root (stateDigest c)
        = computeNewRoot c w.proof (w.account.hash c) ∧
      CollisionFree c S (t.set w.position w.account) := by
  obtain ⟨hold, hnew, hpath, hpath'⟩ := LeafWrite.subset hw
  have hinj := stateDigest_injOn hcf.injOn
  have hfold := (verify_iff c w.proof _).mp hv
  refine ⟨get?_of_fold_eq_root _ hinj hcf.within hold hpath hfold, ?_, hcf.injOn,
    within_set _ hinj hnew _ hcf.within hold hpath hpath' hfold⟩
  rw [computeNewRoot_eq]
  exact root_set _ hinj hcf.within hold hpath hfold w.account

/-- **Binding of a run**: a replay on roots is a replay on the tree. -/
theorem Replay.rewrites {c : Crypto} {S : Set (Preimage Account Hash)} {ws : List LeafWrite}
    (hS : ∀ w ∈ ws, w.preimages c ⊆ S) : ∀ {t : StateTree} {root' : Hash}, CollisionFree c S t →
      Replay c (t.root (stateDigest c)) ws root' →
      Rewrites t ws (rewrite t ws) ∧ (rewrite t ws).root (stateDigest c) = root' ∧
        CollisionFree c S (rewrite t ws) := by
  induction ws with
  | nil =>
    intro t root' hcf h
    cases h
    exact ⟨.nil t, rfl, hcf⟩
  | cons w ws ih =>
    rintro t root' hcf (_ | ⟨verified, rest⟩)
    obtain ⟨hget, hroot, hcf'⟩ := hcf.write (hS w (by simp)) verified
    rw [← hroot] at rest
    obtain ⟨hws, hr, hcf''⟩ := ih (fun w' hw' ↦ hS w' (List.mem_cons_of_mem _ hw')) hcf' rest
    exact ⟨.cons hget hws, hr, hcf''⟩

end TinyRollup
