import TinyRollup.Stf.Position

/-!
# What a guest run leaves as it is

A run that returns turns the tree it began with into one of the same shape.  The two differ only at
the places that the proofs lead to which the run has verified, one for every deposit and at most two
for every transfer (`guest_frame`).  The host may have made up any proof.
-/

set_option autoImplicit false

namespace TinyRollup

open ByteString Stf HashTree

/-- The proofs an iteration verifies, each before the leaf it leads to is replaced. -/
def Item.verified (inp : TransitionInputs) (x : Item) : List MerkleProof :=
  (x.writes inp).map LeafWrite.proof

/-- The proof of the sender, and that of the recipient or not. -/
def OneOrTwo (proofsFrom proofsTo : List MerkleProof) (i : ℕ) (ps : List MerkleProof) : Prop :=
  ∃ p, proofsFrom[i]? = some p ∧ (ps = [p] ∨ ∃ q, proofsTo[i]? = some q ∧ ps = [p, q])

/-- How many proofs an iteration may verify, and which. -/
def Item.Bounded (inp : TransitionInputs) : Item → List MerkleProof → Prop
  | .deposit _ i, ps => ∃ p, inp.proofsDeposits[i]? = some p ∧ ps = [p]
  | .forced tx i, ps =>
    if tx.from_ = Hash.default then ps = []
    else OneOrTwo inp.proofsForcedFrom inp.proofsForcedTo i ps
  | .transaction _ i, ps => OneOrTwo inp.proofsTxsFrom inp.proofsTxsTo i ps

/-- The places of the leaves that a run replaces. -/
def replacedAt (inp : TransitionInputs) : List (List Bool) :=
  (items inp).flatMap fun x ↦ (x.verified inp).map fun p ↦ position p.siblings

/-! ## One iteration -/

theorem transferStep_bounded {c : Crypto} {proofsFrom proofsTo : List MerkleProof} {i : ℕ}
    {from_ to_ : Hash} {nonce fee amount : UInt64} {root root' : Hash}
    (h : transferStep c proofsFrom proofsTo i to_ (fun a b ↦ transfer a b nonce fee amount) root
      = .ok root') :
    OneOrTwo proofsFrom proofsTo i
      ((transferWrites proofsFrom proofsTo i from_ to_ fee amount).map LeafWrite.proof) := by
  obtain ⟨p, hp, -, hres⟩ := transferStep_eq_ok.mp h
  refine ⟨p, hp, ?_⟩
  simp only [transferWrites, hp]
  obtain ⟨a, ha, -⟩ | ⟨a, b, q, hab, hq, -, -⟩ := hres
  · obtain ⟨-, -, ⟨hpaid, -⟩ | ⟨-, -, hr⟩⟩ := transfer_eq_ok_iff.mp ha
    · rw [if_neg hpaid]
      exact Or.inl rfl
    · exact absurd hr (by simp)
  · obtain ⟨-, -, ⟨-, hr⟩ | ⟨hpaid, -, -⟩⟩ := transfer_eq_ok_iff.mp hab
    · exact absurd hr (by simp)
    · rw [if_pos hpaid, creditWrites, hq]
      exact Or.inr ⟨q, rfl, rfl⟩

theorem Item.step_bounded {c : Crypto} {inp : TransitionInputs} {root root' : Hash} {x : Item}
    (h : x.step c inp root = .ok root') : x.Bounded inp (x.verified inp) := by
  cases x with
  | deposit d i =>
    obtain ⟨p, a, hp, -, -, -⟩ := depositStep_eq_ok.mp h
    refine ⟨p, hp, ?_⟩
    rw [verified, writes, depositWrites, hp]
    rfl
  | forced tx i =>
    rw [Bounded, verified, writes, forcedWrites]
    rcases forcedStep_eq_ok.mp h with ⟨hdummy, -⟩ | ⟨hdummy, hstep⟩
    · rw [if_pos hdummy, if_pos hdummy]
      rfl
    · rw [if_neg hdummy, if_neg hdummy]
      exact transferStep_bounded hstep
  | transaction tx i => exact transferStep_bounded h

/-! ## Runs that write nothing -/

/-- Nothing is ever proved against a root that is no digest. -/
theorem Replay.eq_nil {c : Crypto} {root root' : Hash} {ws : List LeafWrite}
    (hroot : ∀ w ∈ ws, ∀ p ∈ w.preimages c, stateDigest c p ≠ root) (h : Replay c root ws root') :
    ws = [] ∧ root' = root := by
  cases h with
  | nil => exact ⟨rfl, rfl⟩
  | @cons w ws _ _ verified _ =>
    have hfold := (verify_iff c w.proof _).mp verified
    obtain ⟨q, hq, hdigest⟩ :=
      exists_fold_eq (stateDigest c) w.proof.siblings (.leaf w.proof.account)
    have hmem : q ∈ w.preimages c := by
      rcases hq with rfl | hq
      · exact Or.inl rfl
      · exact Or.inr (Or.inr (Or.inl hq))
    exact absurd (hdigest.symm.trans hfold) (hroot w List.mem_cons_self q hmem)

/-- An iteration that writes nothing skips a dummy. -/
theorem Item.dummy_of_writes_eq_nil {c : Crypto} {inp : TransitionInputs} {r r' : Hash} {x : Item}
    (h : x.step c inp r = .ok r') (hwrites : x.writes inp = []) :
    ∃ tx i, x = .forced tx i ∧ tx.from_ = Hash.default := by
  have hone : ∀ {proofsFrom proofsTo : List MerkleProof} {i : ℕ} {from_ to_ : Hash}
      {nonce fee amount : UInt64},
      transferStep c proofsFrom proofsTo i to_ (fun a b ↦ transfer a b nonce fee amount) r
        = .ok r' →
        transferWrites proofsFrom proofsTo i from_ to_ fee amount ≠ [] := by
    intro proofsFrom proofsTo i from_ to_ nonce fee amount hstep
    obtain ⟨p, hp, -⟩ := transferStep_eq_ok.mp hstep
    rw [transferWrites, hp]
    dsimp only
    split
    · exact List.cons_ne_nil _ _
    · exact List.cons_ne_nil _ _
  cases x with
  | deposit d i =>
    obtain ⟨p, a, hp, -⟩ := depositStep_eq_ok.mp h
    rw [Item.writes, depositWrites, hp] at hwrites
    exact absurd hwrites (List.cons_ne_nil _ _)
  | forced tx i =>
    rcases forcedStep_eq_ok.mp h with ⟨hdummy, -⟩ | ⟨hdummy, hstep⟩
    · exact ⟨tx, i, rfl, hdummy⟩
    · rw [Item.writes, forcedWrites, if_neg hdummy] at hwrites
      exact absurd hwrites (hone hstep)
  | transaction tx i => exact absurd hwrites (hone h)

/-- A run that writes nothing skips all that it is given. -/
theorem skips_of_writes_eq_nil {c : Crypto} {inp : TransitionInputs} {out : Hash × Hash × Hash}
    (h : executeTransition c inp = .ok out) (hwrites : writes inp = []) :
    inp.deposits = [] ∧ inp.txs = [] ∧ ∀ tx ∈ inp.forcedTxs, tx.from_ = Hash.default := by
  have hdummy : ∀ x ∈ items inp, ∃ tx i, x = .forced tx i ∧ tx.from_ = Hash.default := by
    intro x hx
    obtain ⟨r, r', hstep⟩ := Run.foldlM_forall (executeTransition_eq_ok_items.mp h).2.2 x hx
    exact Item.dummy_of_writes_eq_nil hstep (List.flatMap_eq_nil_iff.mp hwrites x hx)
  obtain ⟨hdeposits, hforced, htxs⟩ := forall_mem_items.mp hdummy
  refine ⟨List.eq_nil_iff_forall_not_mem.mpr fun d hd ↦ ?_,
    List.eq_nil_iff_forall_not_mem.mpr fun tx htx ↦ ?_, fun tx htx ↦ ?_⟩
  · obtain ⟨i, hi⟩ := List.mem_iff_getElem?.mp hd
    obtain ⟨_, _, hne, -⟩ := hdeposits i d hi
    exact absurd hne (by simp)
  · obtain ⟨i, hi⟩ := List.mem_iff_getElem?.mp htx
    obtain ⟨_, _, hne, -⟩ := htxs i tx hi
    exact absurd hne (by simp)
  · obtain ⟨i, hi⟩ := List.mem_iff_getElem?.mp htx
    obtain ⟨tx', i', heq, hfrom⟩ := hforced i tx hi
    rwa [← (Item.forced.inj heq).1] at hfrom

/-! ## Runs -/

/-- Writes that find the old accounts change nothing elsewhere. -/
theorem Rewrites.frame {t t' : StateTree} {ws : List LeafWrite} (h : Rewrites t ws t') :
    t'.shape = t.shape ∧ ∀ ds, ds ∉ ws.map LeafWrite.position → t'.get? ds = t.get? ds := by
  induction h with
  | nil => exact ⟨rfl, fun ds _ ↦ rfl⟩
  | @cons w ws t t' found _ ih =>
    obtain ⟨hshape, hget⟩ := ih
    refine ⟨hshape.trans (Tree.shape_set _ _ _), fun ds hds ↦ ?_⟩
    rw [List.map_cons, List.mem_cons, not_or] at hds
    exact (hget ds hds.2).trans (Tree.get?_set_ne w.account found hds.1)

theorem map_position_writes (inp : TransitionInputs) :
    (writes inp).map LeafWrite.position = replacedAt inp := by
  rw [writes, replacedAt, List.map_flatMap]
  simp only [Item.verified, List.map_map]
  rfl

/-- **Frame of a guest run**: the tree before and the tree after differ only at the places that the
verified proofs lead to.  Each of these proofs was verified against the root of its moment, there is
one for every deposit, none for a dummy, and there are at most two for every other transfer. -/
theorem guest_frame (c : Crypto) (t : StateTree) (inp : TransitionInputs)
    (root depositsHash forcedTxsHash : Hash) (hroot : inp.preStateRoot = t.root (stateDigest c))
    (hcf : CollisionFree c (hashedBy c t (writes inp)) t)
    (hrun : executeTransition c inp = .ok (root, depositsHash, forcedTxsHash)) :
    ∃ t' : StateTree, t'.root (stateDigest c) = root ∧ t'.shape = t.shape ∧
      (∀ ds, ds ∉ replacedAt inp → t'.get? ds = t.get? ds) ∧
      Replay c inp.preStateRoot (writes inp) root ∧
      ∀ x ∈ items inp, x.Bounded inp (x.verified inp) := by
  have hreplay := executeTransition_replay hrun
  have honTree := hroot ▸ hreplay
  obtain ⟨hrewrites, hfinal, -⟩ :=
    Replay.rewrites (fun w hw p hp ↦ Or.inr ⟨w, hw, hp⟩) hcf honTree
  obtain ⟨hshape, hget⟩ := hrewrites.frame
  refine ⟨rewrite t (writes inp), hfinal, hshape, ?_, hreplay, fun x hx ↦ ?_⟩
  · rwa [map_position_writes] at hget
  · obtain ⟨r, r', hstep⟩ := Run.foldlM_forall (executeTransition_eq_ok_items.mp hrun).2.2 x hx
    exact Item.step_bounded hstep

/-! ## A deposit to one of two accounts -/

namespace TwoAccounts

def alice₁ : Account := credited alice 7

def deposit : Deposit := { to_ := alice.id, amount := 7, timestamp := 0 }

def input : TransitionInputs where
  preStateRoot := tree.root (stateDigest c)
  txs := []
  deposits := [deposit]
  forcedTxs := []
  proofsDeposits := [proof]
  proofsForcedFrom := []
  proofsForcedTo := []
  proofsTxsFrom := []
  proofsTxsTo := []

theorem executeTransition_input : executeTransition c input
    = .ok (computeNewRoot c proof (alice₁.hash c), hashDeposits c [deposit],
        hashForcedTxs c []) := by
  have hd : applyDeposit alice deposit = .ok alice₁ := applyDeposit_eq_ok_iff.mpr ⟨by decide, rfl⟩
  have hstep : depositStep c input.proofsDeposits input.preStateRoot (deposit, 0)
      = .ok (computeNewRoot c proof (alice₁.hash c)) :=
    depositStep_eq_ok.mpr ⟨proof, alice₁, rfl, verify_left c alice bob, hd, rfl⟩
  exact executeTransition_eq_ok.mpr
    ⟨rfl, rfl, _, _, Run.foldlM_cons_eq_ok.mpr ⟨_, hstep, rfl⟩, rfl, rfl⟩

/-- What the run and the tree hash. -/
def hashed₁ : List (Preimage Account Hash) :=
  hashed ++ [.leaf alice₁, .node (alice₁.hash c) (bob.hash c)]

theorem hashes₁_nodup : (hashed₁.map (stateDigest c)).Nodup := by decide +kernel

theorem hashedBy_subset : hashedBy c tree (writes input) ⊆ {p | p ∈ hashed₁} := by
  rintro p (hp | ⟨w, hw, hp⟩)
  · have hmem : p ∈ hashed := collisionFree.within.preimages hp
    exact List.mem_append_left _ hmem
  · obtain rfl : w = ⟨alice.id, proof, alice₁⟩ := List.mem_singleton.mp hw
    rcases hp with rfl | rfl | (rfl | hp) | (rfl | hp)
    · exact List.mem_append_left _ List.mem_cons_self
    · exact List.mem_append_right _ List.mem_cons_self
    · exact List.mem_append_left _
        (List.mem_cons_of_mem _ (List.mem_cons_of_mem _ List.mem_cons_self))
    · exact hp.elim
    · exact List.mem_append_right _ (List.mem_cons_of_mem _ List.mem_cons_self)
    · exact hp.elim

theorem collisionFree_input : CollisionFree c (hashedBy c tree (writes input)) tree := by
  refine ⟨?_, Set.subset_union_left, fun e he ↦ ?_⟩
  · rintro _ ⟨p, hp, rfl⟩ _ ⟨q, hq, rfl⟩ h
    rw [List.inj_on_of_nodup_map hashes₁_nodup (hashedBy_subset hp) (hashedBy_subset hq) h]
  · rcases he with he | he
    · exact he.elim
    · exact he.elim

end TwoAccounts

open TwoAccounts in
/-- Bob's leaf, on the right, is the same after the deposit to Alice. -/
theorem guest_frame_twoAccounts : ∃ t' : StateTree,
    t'.root (stateDigest c) = computeNewRoot c proof (alice₁.hash c) ∧ t'.shape = tree.shape ∧
      replacedAt input = [[true]] ∧ t'.get? [false] = some bob := by
  obtain ⟨t', hroot, hshape, hget, -⟩ :=
    guest_frame c tree _ _ _ _ rfl collisionFree_input executeTransition_input
  have hreplaced : replacedAt input = [[true]] := rfl
  refine ⟨t', hroot, hshape, hreplaced, ?_⟩
  rw [hget [false] (by simp [hreplaced])]
  rfl

end TinyRollup
