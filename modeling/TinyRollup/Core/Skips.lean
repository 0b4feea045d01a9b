import TinyRollup.Core.Provable
import TinyRollup.Stf.Writes

/-!
# What the three ledgers skip

An operation of a block is applied three times: by the executor on accounts, by the generator of
proofs on roots, and by the guest on roots again, with the proofs that it is given.  Each of the
three skips it, charges its sender, or executes it (`Outcome`).

The guest takes an operation only if its first account is there.  The executor and the generator
cannot read an account that is there, so the generator returns an error, or skips a transaction that
the guest does not skip.  What is left to agree on are the dummies, and one transaction that comes
out as if it had been skipped (`PaysItselfAll`): `skips_agree_iff`.
-/

set_option autoImplicit false

namespace TinyRollup

open ByteString Stf HashTree
open UInt64 (Fits)
open AccountMap

/-- What becomes of an operation. -/
inductive Outcome
  | skipped
  /-- Only the fee and the nonce of the sender change. -/
  | charged
  | executed
  deriving DecidableEq

/-! ## The executor -/

/-- An operation on a map of accounts. -/
inductive LedgerDoes (s : AccountMap) : Op → Outcome → AccountMap → Prop
  | overflows {d : Deposit} (h : ¬ Fits ((s.getOrNew d.to_).balance.toNat + d.amount.toNat)) :
    LedgerDoes s (.deposit d) .skipped s
  | credits {d : Deposit} (h : Fits ((s.getOrNew d.to_).balance.toNat + d.amount.toNat)) :
    LedgerDoes s (.deposit d) .executed (s.set d.to_ (credited (s.getOrNew d.to_) d.amount))
  | dummy {tx : ForcedTx} (h : tx.from_ = Hash.default) : LedgerDoes s (.forced tx) .skipped s
  | refuses {op : Op} {t : Transfer} (h : op.transfer = some t) (hex : ∀ a, ¬ t.Executes s a)
    (hch : ∀ a, ¬ t.Charges s a) : LedgerDoes s op .skipped s
  | charges {op : Op} {t : Transfer} {a : Account} (h : op.transfer = some t)
    (hch : t.Charges s a) : LedgerDoes s op .charged (s.set t.from_ (charged a t.fee))
  | executes {op : Op} {t : Transfer} {a : Account} (h : op.transfer = some t)
    (hex : t.Executes s a) :
    LedgerDoes s op .executed ((s.set t.from_ (debited a t.fee t.amount)).set t.to_
      (credited (s.getOrNew t.to_) t.amount))

/-- The executor, which started from the accounts `base`, succeeds in the operation. -/
def ExecutorDoes {T : Type} (read : Reader T) (base : AccountMap) (ex : BlockExecutor T) (op : Op)
    (o : Outcome) : Prop :=
  ∃ ex', ex.applyOp read op = (.ok (), ex') ∧ LedgerDoes (ex.view base) op o (ex'.view base)

/-! ## The generator and the guest -/

/-- An operation on roots, made with the given proofs.  The recipient `b` of a transfer is the
stored account for the generator and a new one for the guest. -/
inductive RootDoes (c : Crypto) (s : AccountMap) (root : Hash)
    (proofFrom proofTo : Option MerkleProof) : Op → Outcome → Hash → Prop
  | skips (op : Op) : RootDoes c s root proofFrom proofTo op .skipped root
  | credits {d : Deposit} {p : MerkleProof} (hp : proofFrom = some p)
    (found : s d.to_ = some p.account) (verified : p.verify c root = true) :
    RootDoes c s root proofFrom proofTo (.deposit d) .executed
      (computeNewRoot c p ((credited p.account d.amount).hash c))
  | charges {op : Op} {t : Transfer} {p : MerkleProof} (h : op.transfer = some t)
    (hp : proofFrom = some p) (found : s t.from_ = some p.account)
    (verified : p.verify c root = true) :
    RootDoes c s root proofFrom proofTo op .charged
      (computeNewRoot c p ((charged p.account t.fee).hash c))
  | executes {op : Op} {t : Transfer} {p q : MerkleProof} {b : Account} (h : op.transfer = some t)
    (hp : proofFrom = some p) (hq : proofTo = some q) (found : s t.from_ = some p.account)
    (verified : p.verify c root = true)
    (verifiedTo :
      q.verify c (computeNewRoot c p ((debited p.account t.fee t.amount).hash c)) = true)
    (hb : b.id = t.to_) :
    RootDoes c s root proofFrom proofTo op .executed
      (computeNewRoot c q ((credited b t.amount).hash c))

section

variable {c : Crypto} {s : AccountMap} {root root' : Hash} {proofFrom proofTo : Option MerkleProof}
  {op : Op} {t : Transfer}

theorem RootDoes.of_skipped (hdoes : RootDoes c s root proofFrom proofTo op .skipped root') :
    root' = root := by
  cases hdoes
  rfl

theorem RootDoes.of_charged (hdoes : RootDoes c s root proofFrom proofTo op .charged root')
    (h : op.transfer = some t) :
    ∃ p, proofFrom = some p ∧ s t.from_ = some p.account ∧ p.verify c root = true ∧
      root' = computeNewRoot c p ((charged p.account t.fee).hash c) := by
  cases hdoes with
  | @charges _ t' p h' hp found verified =>
    obtain rfl := Option.some_inj.mp (h.symm.trans h')
    exact ⟨p, hp, found, verified, rfl⟩

/-- Executing a transfer takes a proof of the recipient after the debit. -/
theorem RootDoes.of_executed (hdoes : RootDoes c s root proofFrom proofTo op .executed root')
    (h : op.transfer = some t) :
    ∃ p q, proofFrom = some p ∧ proofTo = some q ∧ s t.from_ = some p.account ∧
      p.verify c root = true ∧
      q.verify c (computeNewRoot c p ((debited p.account t.fee t.amount).hash c)) = true := by
  cases hdoes with
  | credits => exact absurd h (by simp [Op.transfer])
  | @executes _ t' p q b h' hp hq found verified hverifyTo _ =>
    obtain rfl := Option.some_inj.mp (h.symm.trans h')
    exact ⟨p, q, hp, hq, found, verified, hverifyTo⟩

end

/-- The body of the loop of `generate_proofs_for_block` that the operation belongs to. -/
def generateOp {T : Type} (m : Monotree T) (bincode : Bincode) (c : Crypto) (tree : T)
    (st : Core.ProofState) : Op → Run CoreError Core.ProofState
  | .deposit d => do
    let (currentRoot, proofsDeposits) ←
      Core.generateDeposit m bincode c tree (st.currentRoot, st.proofsFrom) d
    return { currentRoot, proofsFrom := proofsDeposits, proofsTo := st.proofsTo }
  | .forced tx => Core.generateForced m bincode c tree st tx
  | .transaction tx => Core.generateTx m bincode c tree st tx

/-- The generator succeeds in the operation; its proofs are the ones it adds last. -/
def GeneratorDoes {T : Type} (m : Monotree T) (bincode : Bincode) (c : Crypto) (tree : T)
    (s : AccountMap) (st : Core.ProofState) (op : Op) (o : Outcome) : Prop :=
  ∃ st', generateOp m bincode c tree st op = .ok st' ∧
    RootDoes c s st.currentRoot st'.proofsFrom.getLast? st'.proofsTo.getLast? op o st'.currentRoot

namespace Op

/-- The `i`-th iteration of the loop of the guest that the operation belongs to. -/
def item (op : Op) (i : ℕ) : Item :=
  match op with
  | .deposit d => .deposit d i
  | .forced tx => .forced tx i
  | .transaction tx => .transaction tx i

def proofFrom (inp : TransitionInputs) (i : ℕ) : Op → Option MerkleProof
  | .deposit _ => inp.proofsDeposits[i]?
  | .forced _ => inp.proofsForcedFrom[i]?
  | .transaction _ => inp.proofsTxsFrom[i]?

def proofTo (inp : TransitionInputs) (i : ℕ) : Op → Option MerkleProof
  | .deposit _ => none
  | .forced _ => inp.proofsForcedTo[i]?
  | .transaction _ => inp.proofsTxsTo[i]?

end Op

/-- The guest succeeds in the operation. -/
def GuestDoes (c : Crypto) (inp : TransitionInputs) (i : ℕ) (s : AccountMap) (root : Hash) (op : Op)
    (o : Outcome) : Prop :=
  ∃ root', (op.item i).step c inp root = .ok root' ∧
    RootDoes c s root (op.proofFrom inp i) (op.proofTo inp i) op o root'

/-! ## Correct proofs -/

/-- The tree has this root and these accounts. -/
structure Commits (c : Crypto) (t : StateTree) (root : Hash) (s : AccountMap) : Prop where
  root_eq : t.root (stateDigest c) = root
  nodup : (t.leaves.map Account.id).Nodup
  accounts : ∀ k, s k = t.find? Account.id k

/-- A proof of the account of `k`: it names the account, and verifies if the account is there. -/
structure Shows (c : Crypto) (root : Hash) (s : AccountMap) (k : Hash) (p : MerkleProof) :
    Prop where
  names : p.account.id = k
  verifies : ∀ a, s k = some a → p.verify c root = true

/-- The proofs that the guest has for the operation: of its sender, or the recipient of the deposit,
and of its recipient after the debit. -/
structure CorrectProofs (c : Crypto) (inp : TransitionInputs) (i : ℕ) (root : Hash) (s : AccountMap)
    (op : Op) : Prop where
  proofFrom : ∃ p, op.proofFrom inp i = some p ∧ Shows c root s op.key p
  proofTo : ∀ t p, op.transfer = some t → op.proofFrom inp i = some p →
    s t.from_ = some p.account → Paid p.account t.fee t.amount →
    ∃ q, op.proofTo inp i = some q ∧
      Shows c (computeNewRoot c p ((debited p.account t.fee t.amount).hash c))
        (s.set t.from_ (debited p.account t.fee t.amount)) t.to_ q

/-- A proof that verifies shows an account that is there. -/
theorem Commits.found {c : Crypto} {t : StateTree} {root : Hash} {s : AccountMap}
    {S : Set (Preimage Account Hash)} {w : LeafWrite} (h : Commits c t root s)
    (hcf : CollisionFree c S t) (hw : w.preimages c ⊆ S) (hv : w.proof.verify c root = true) :
    s w.proof.account.id = some w.proof.account := by
  obtain ⟨hget, -, -⟩ := hcf.write hw (h.root_eq ▸ hv)
  rw [h.accounts, Tree.find?_eq_some Account.id h.nodup hget]

/-- The tree after a write. -/
theorem Commits.write {c : Crypto} {t : StateTree} {root : Hash} {s : AccountMap}
    {S : Set (Preimage Account Hash)} {w : LeafWrite} (h : Commits c t root s)
    (hcf : CollisionFree c S t) (hw : w.preimages c ⊆ S) (hv : w.proof.verify c root = true)
    (hid : w.account.id = w.proof.account.id) :
    Commits c (t.set w.position w.account) (computeNewRoot c w.proof (w.account.hash c))
        (s.set w.proof.account.id w.account) ∧
      CollisionFree c S (t.set w.position w.account) := by
  obtain ⟨hget, hroot, hcf'⟩ := hcf.write hw (h.root_eq ▸ hv)
  refine ⟨⟨hroot, ?_, fun k ↦ ?_⟩, hcf'⟩
  · rw [Tree.leaves_set_key Account.id hget hid]
    exact h.nodup
  · rw [Tree.find?_set Account.id h.nodup hget hid, set_apply, h.accounts]

/-! ## The loop bodies of transfers -/

theorem Op.key_of_transfer {op : Op} {t : Transfer} (h : op.transfer = some t) :
    op.key = t.from_ := by
  obtain ⟨tx, rfl, -, rfl⟩ | ⟨tx, rfl, rfl⟩ := Op.transfer_eq_some h
  · rfl
  · rfl

/-- The guest has one loop body for a transfer. -/
theorem Op.item_step {op : Op} {t : Transfer} (h : op.transfer = some t) (c : Crypto)
    (inp : TransitionInputs) (i : ℕ) : ∃ proofsFrom proofsTo : List MerkleProof,
      op.proofFrom inp i = proofsFrom[i]? ∧ op.proofTo inp i = proofsTo[i]? ∧
      (∀ root, (op.item i).step c inp root = transferStep c proofsFrom proofsTo i t.to_
        (fun a b ↦ Stf.transfer a b t.nonce t.fee t.amount) root) ∧
      (op.item i).writes inp
        = transferWrites proofsFrom proofsTo i t.from_ t.to_ t.fee t.amount := by
  obtain ⟨tx, rfl, hreal, rfl⟩ | ⟨tx, rfl, rfl⟩ := Op.transfer_eq_some h
  · exact ⟨_, _, rfl, rfl, fun _ ↦ if_neg hreal, if_neg hreal⟩
  · exact ⟨_, _, rfl, rfl, fun _ ↦ rfl, rfl⟩

/-! ## What the guest accepts -/

theorem subset_hashedBy (c : Crypto) (tree : StateTree) {ws : List LeafWrite} {w : LeafWrite}
    (hw : w ∈ ws) : w.preimages c ⊆ hashedBy c tree ws := fun _ hp ↦ Or.inr ⟨w, hw, hp⟩

section

variable {c : Crypto} {tree : StateTree} {root root' : Hash} {s : AccountMap}
  {inp : TransitionInputs} {i : ℕ} {op : Op} {t : Transfer}

/-- A deposit is accepted only if its recipient is there, and does not overflow. -/
theorem guest_deposit {d : Deposit} (hst : Commits c tree root s)
    (hcf : CollisionFree c (hashedBy c tree (((Op.deposit d).item i).writes inp)) tree)
    (hproofs : CorrectProofs c inp i root s (.deposit d))
    (hstep : ((Op.deposit d).item i).step c inp root = .ok root') :
    ∃ b, s d.to_ = some b ∧ Fits (b.balance.toNat + d.amount.toNat) := by
  obtain ⟨p, hp, hshows⟩ := hproofs.proofFrom
  obtain ⟨p', a, hp', hverify, happly, -⟩ := depositStep_eq_ok.mp hstep
  obtain rfl := Option.some_inj.mp (hp.symm.trans hp')
  have hw : (⟨d.to_, p, credited p.account d.amount⟩ : LeafWrite)
      ∈ ((Op.deposit d).item i).writes inp := by
    rw [Op.item, Item.writes, depositWrites, hp']
    exact List.mem_singleton_self _
  have hfound := hst.found hcf (subset_hashedBy _ _ hw) hverify
  rw [hshows.names] at hfound
  exact ⟨p.account, hfound, (applyDeposit_eq_ok_iff.mp happly).1⟩

/-- The first write of a transfer is that of the sender. -/
theorem exists_write_from (t : Transfer) (proofsTo : List MerkleProof)
    {proofsFrom : List MerkleProof} {p : MerkleProof} (hp : proofsFrom[i]? = some p) :
    ∃ w ∈ transferWrites proofsFrom proofsTo i t.from_ t.to_ t.fee t.amount, w.proof = p := by
  simp only [transferWrites, hp]
  split
  · exact ⟨_, List.mem_cons_self, rfl⟩
  · exact ⟨_, List.mem_cons_self, rfl⟩

/-- A transfer is accepted only if its sender is there with its nonce, and, where it is paid, its
recipient too. -/
theorem guest_transfer (h : op.transfer = some t) (hst : Commits c tree root s)
    (hcf : CollisionFree c (hashedBy c tree ((op.item i).writes inp)) tree)
    (hproofs : CorrectProofs c inp i root s op)
    (hstep : (op.item i).step c inp root = .ok root') :
    ∃ a, s t.from_ = some a ∧ a.nonce = t.nonce ∧ Fits (t.amount.toNat + t.fee.toNat) ∧
      (Paid a t.fee t.amount → ∃ b, s t.to_ = some b) := by
  obtain ⟨proofsFrom, proofsTo, hfrom, hto, hbody, hwrites⟩ := Op.item_step h c inp i
  obtain ⟨p, hp, hshows⟩ := hproofs.proofFrom
  have hp' : proofsFrom[i]? = some p := hfrom.symm.trans hp
  rw [hbody] at hstep
  obtain ⟨p₂, hp₂, hverify, hres⟩ := transferStep_eq_ok.mp hstep
  obtain rfl := Option.some_inj.mp (hp'.symm.trans hp₂)
  have hfound : s t.from_ = some p.account := by
    obtain ⟨w, hw, rfl⟩ := exists_write_from t proofsTo hp'
    have hfound := hst.found hcf (subset_hashedBy _ _ (hwrites ▸ hw)) hverify
    rwa [hshows.names, Op.key_of_transfer h] at hfound
  obtain ⟨a, ha, -⟩ | ⟨a, b, q, hab, hq, hverifyTo, -⟩ := hres
  · obtain ⟨hnonce, hfits, ⟨hunpaid, -⟩ | ⟨-, -, hr⟩⟩ := transfer_eq_ok_iff.mp ha
    · exact ⟨p.account, hfound, hnonce, hfits, fun hpaid ↦ absurd hpaid hunpaid⟩
    · exact absurd hr (by simp)
  · obtain ⟨hnonce, hfits, ⟨-, hr⟩ | ⟨hpaid, -, hr⟩⟩ := transfer_eq_ok_iff.mp hab
    · exact absurd hr (by simp)
    obtain ⟨rfl, -⟩ := TransactionResult.success.inj hr
    refine ⟨p.account, hfound, hnonce, hfits, fun _ ↦ ?_⟩
    obtain ⟨q', hq', hshowsTo⟩ := hproofs.proofTo t p h hp hfound hpaid
    obtain rfl := Option.some_inj.mp (hq.symm.trans (hto.symm.trans hq'))
    have hall : (op.item i).writes inp = [⟨t.from_, p, debited p.account t.fee t.amount⟩,
        ⟨t.to_, q, credited (Account.new t.to_) t.amount⟩] := by
      rw [hwrites, transferWrites]
      simp only [hp', if_pos hpaid, creditWrites, hq]
    rw [hall] at hcf
    obtain ⟨hst', hcf'⟩ := hst.write hcf (subset_hashedBy _ _ List.mem_cons_self) hverify rfl
    have hfoundTo := hst'.found hcf'
      (subset_hashedBy _ _ (List.mem_cons_of_mem _ List.mem_cons_self)) hverifyTo
    rw [hshowsTo.names, set_apply] at hfoundTo
    split at hfoundTo
    · rename_i heq
      rw [heq, hshows.names, Op.key_of_transfer h]
      exact ⟨_, hfound⟩
    · exact ⟨_, hfoundTo⟩

/-! ## The writes of a transfer -/

theorem leaf_mem_hashedBy (c : Crypto) (tree : StateTree) {ws : List LeafWrite} {w : LeafWrite}
    (hw : w ∈ ws) :
    Preimage.leaf w.proof.account ∈ hashedBy c tree ws ∧
      Preimage.leaf w.account ∈ hashedBy c tree ws :=
  have hsubset := LeafWrite.subset (subset_hashedBy c tree hw)
  ⟨hsubset.1, hsubset.2.1⟩

/-- The account that a correct proof of the sender shows. -/
theorem CorrectProofs.sender (h : op.transfer = some t) (hst : Commits c tree root s)
    (hcf : CollisionFree c (hashedBy c tree ((op.item i).writes inp)) tree)
    (hproofs : CorrectProofs c inp i root s op) {a : Account} (hfound : s t.from_ = some a) :
    ∃ p, op.proofFrom inp i = some p ∧ p.verify c root = true ∧ p.account = a := by
  obtain ⟨p, hp, hshows⟩ := hproofs.proofFrom
  rw [Op.key_of_transfer h] at hshows
  have hverify := hshows.verifies a hfound
  obtain ⟨proofsFrom, proofsTo, hfrom, -, -, hwrites⟩ := Op.item_step h c inp i
  obtain ⟨w, hw, rfl⟩ := exists_write_from t proofsTo (hfrom.symm.trans hp)
  have hshown := hst.found hcf (subset_hashedBy _ _ (hwrites ▸ hw)) hverify
  rw [hshows.names, hfound] at hshown
  exact ⟨w.proof, hp, hverify, (Option.some_inj.mp hshown).symm⟩

/-- A sender who cannot pay is charged. -/
theorem CorrectProofs.writes_unpaid (h : op.transfer = some t) (hst : Commits c tree root s)
    (hcf : CollisionFree c (hashedBy c tree ((op.item i).writes inp)) tree)
    (hproofs : CorrectProofs c inp i root s op) {a : Account} (hfound : s t.from_ = some a)
    (hunpaid : ¬ Paid a t.fee t.amount) :
    ∃ p, p.account = a ∧ (op.item i).writes inp = [⟨t.from_, p, charged a t.fee⟩] := by
  obtain ⟨p, hp, -, rfl⟩ := hproofs.sender h hst hcf hfound
  obtain ⟨proofsFrom, proofsTo, hfrom, -, -, hwrites⟩ := Op.item_step h c inp i
  refine ⟨p, rfl, ?_⟩
  rw [hwrites, transferWrites]
  simp only [hfrom.symm.trans hp, if_neg hunpaid]

/-- From one who can, the amount goes to a new account of the recipient. -/
theorem CorrectProofs.writes_paid (h : op.transfer = some t) (hst : Commits c tree root s)
    (hcf : CollisionFree c (hashedBy c tree ((op.item i).writes inp)) tree)
    (hproofs : CorrectProofs c inp i root s op) {a : Account} (hfound : s t.from_ = some a)
    (hpaid : Paid a t.fee t.amount) :
    ∃ p q, op.proofFrom inp i = some p ∧ p.account = a ∧ p.verify c root = true ∧
      op.proofTo inp i = some q ∧
      Shows c (computeNewRoot c p ((debited a t.fee t.amount).hash c))
        (s.set t.from_ (debited a t.fee t.amount)) t.to_ q ∧
      (op.item i).writes inp = [⟨t.from_, p, debited a t.fee t.amount⟩,
        ⟨t.to_, q, credited (Account.new t.to_) t.amount⟩] := by
  obtain ⟨p, hp, hverify, rfl⟩ := hproofs.sender h hst hcf hfound
  obtain ⟨proofsFrom, proofsTo, hfrom, hto, -, hwrites⟩ := Op.item_step h c inp i
  obtain ⟨q, hq, hshows⟩ := hproofs.proofTo t p h hp hfound hpaid
  refine ⟨p, q, hp, rfl, hverify, hq, hshows, ?_⟩
  rw [hwrites, transferWrites]
  simp only [hfrom.symm.trans hp, if_pos hpaid, creditWrites, hto.symm.trans hq]

/-- The accounts after a payment. -/
theorem Commits.paid {p q : MerkleProof} {a : Account} (hst : Commits c tree root s)
    (hcf : CollisionFree c (hashedBy c tree [⟨t.from_, p, debited a t.fee t.amount⟩,
      ⟨t.to_, q, credited (Account.new t.to_) t.amount⟩]) tree)
    (hfound : s t.from_ = some a) (hkeyed : a.id = t.from_) (hp : p.account = a)
    (hverify : p.verify c root = true) (hnames : q.account.id = t.to_)
    (hverifyTo :
      q.verify c (computeNewRoot c p ((debited a t.fee t.amount).hash c)) = true) :
    Commits c ((tree.set (position p.siblings) (debited a t.fee t.amount)).set
        (position q.siblings) (credited (Account.new t.to_) t.amount))
      (computeNewRoot c q ((credited (Account.new t.to_) t.amount).hash c))
      ((s.set t.from_ (debited a t.fee t.amount)).set t.to_
        (credited (Account.new t.to_) t.amount)) ∧
    CollisionFree c (hashedBy c tree [⟨t.from_, p, debited a t.fee t.amount⟩,
        ⟨t.to_, q, credited (Account.new t.to_) t.amount⟩])
      ((tree.set (position p.siblings) (debited a t.fee t.amount)).set
        (position q.siblings) (credited (Account.new t.to_) t.amount)) := by
  subst hp
  obtain ⟨hst', hcf'⟩ := hst.write hcf (subset_hashedBy _ _ List.mem_cons_self) hverify rfl
  have hw₂ := subset_hashedBy c tree (List.mem_cons_of_mem
    (⟨t.from_, p, debited p.account t.fee t.amount⟩ : LeafWrite) (List.mem_singleton_self
      (⟨t.to_, q, credited (Account.new t.to_) t.amount⟩ : LeafWrite)))
  obtain ⟨hst'', hcf''⟩ := hst'.write hcf' hw₂ hverifyTo hnames.symm
  dsimp only at hst' hst''
  rw [hkeyed, hnames] at hst''
  exact ⟨hst'', hcf''⟩

end

/-! ## What comes out as it was -/

theorem debited_ne (a : Account) (fee amount : UInt64) : debited a fee amount ≠ a := fun h ↦
  UInt64.add_one_ne a.nonce (congrArg Account.nonce h)

theorem charged_ne (a : Account) (fee : UInt64) : charged a fee ≠ a := fun h ↦
  UInt64.add_one_ne a.nonce (congrArg Account.nonce h)

section

variable {c : Crypto} {S : Set (Preimage Account Hash)} {tree tree' : StateTree}
  {root root' : Hash} {s s' : AccountMap} {t : Transfer}

theorem Commits.keyed (h : Commits c tree root s) {k : Hash} {a : Account} (ha : s k = some a) :
    a.id = k := by
  rw [h.accounts] at ha
  simpa using List.find?_some ha

/-- Trees with one root have the same accounts. -/
theorem Commits.eq_of_root (h : Commits c tree root s) (h' : Commits c tree' root s')
    (hcf : CollisionFree c S tree) (hcf' : CollisionFree c S tree') : s = s' := by
  obtain rfl := eq_of_root_eq _ (stateDigest_injOn hcf.injOn) hcf.within hcf'.within
    (h.root_eq.trans h'.root_eq.symm)
  exact funext fun k ↦ (h.accounts k).trans (h'.accounts k).symm

/-- A payment that restores the accounts is one to the sender, of all that the sender has. -/
theorem paid_eq_self {a : Account} (hfound : s t.from_ = some a)
    (h : (s.set t.from_ (debited a t.fee t.amount)).set t.to_
      (credited (Account.new t.to_) t.amount) = s) :
    t.to_ = t.from_ ∧ credited (Account.new t.to_) t.amount = a := by
  have hfrom := congrFun h t.from_
  by_cases hself : t.to_ = t.from_
  · rw [hfound, hself, set_apply, if_pos rfl, Option.some_inj] at hfrom
    exact ⟨hself, hself ▸ hfrom⟩
  · rw [hfound, set_ne _ (Ne.symm hself), set_apply, if_pos rfl, Option.some_inj] at hfrom
    exact absurd hfrom (debited_ne _ _ _)

end

/-- A transaction by which a cached account pays all it has to itself, as its first and without a
fee, where twice as much does not fit.  The executor refuses it for the overflow, and the guest puts
a new account with the amount in the place of the sender. -/
structure PaysItselfAll {T : Type} (ex : BlockExecutor T) (tx : Transaction) (a : Account) :
    Prop where
  cached : ex.accountCache.lookup tx.from_ = some a
  toSelf : tx.to_ = tx.from_
  first : a.nonce = 0
  nonce : tx.nonce = 0
  free : tx.fee = 0
  all : tx.amount = a.balance
  overflows : ¬ Fits (a.balance.toNat + a.balance.toNat)

section

variable {T : Type} {m : Monotree T} {bincode : Bincode} {c : Crypto} {laws : MonotreeLaws m}
  {tree : T} {root : Hash} {s : AccountMap} {st : Core.ProofState} {ex ex' : BlockExecutor T}

/-! ## Accounts that are there -/

theorem Holds.buildStfProof_stored (h : Holds laws c tree root s) (hshort : bincode.RefusesShort)
    {k : Hash} {a : Account} (ha : s k = some a) :
    Core.buildStfProof m bincode tree root k = Run.err (.accountDataCorrupted k) := by
  rw [Core.buildStfProof, h.getAccount_stored hshort ha]
  rfl

/-- The generator fails in a deposit to an account that is there. -/
theorem generateOp_deposit_stored (h : Holds laws c tree st.currentRoot s)
    (hshort : bincode.RefusesShort) {d : Deposit} {a : Account} (ha : s d.to_ = some a) :
    generateOp m bincode c tree st (.deposit d) = Run.err (.accountDataCorrupted d.to_) := by
  rw [generateOp, Core.generateDeposit, h.buildStfProof_stored hshort ha]
  rfl

theorem generateOp_forced_stored (h : Holds laws c tree st.currentRoot s)
    (hshort : bincode.RefusesShort) {tx : ForcedTx} (hreal : tx.from_ ≠ Hash.default) {a : Account}
    (ha : s tx.from_ = some a) :
    generateOp m bincode c tree st (.forced tx) = Run.err (.accountDataCorrupted tx.from_) := by
  rw [generateOp, Core.generateForced, if_neg hreal, Core.generateTransfer,
    h.buildStfProof_stored hshort ha]
  rfl

/-- It skips a transaction of one. -/
theorem generateOp_tx_stored (h : Holds laws c tree st.currentRoot s)
    (hshort : bincode.RefusesShort) {tx : Transaction} {a : Account} (ha : s tx.from_ = some a) :
    generateOp m bincode c tree st (.transaction tx)
      = .ok (st.push st.currentRoot (Core.dummyProof tx.from_) (Core.dummyProof tx.to_)) := by
  rw [generateOp, Core.generateTx, h.getAccount_stored hshort ha]
  rfl

/-- A transaction goes through the executor only if its sender is cached or not there. -/
theorem Holds.cached_of_applied (h : Holds laws c ex.tree root s) (hshort : bincode.RefusesShort)
    (hroot : ex.root = some root) {tx : Transaction} {a : Account}
    (happly : ex.applyOp (Core.getAccount m bincode) (.transaction tx) = (.ok (), ex'))
    (ha : ex.view s tx.from_ = some a) : ex.accountCache.lookup tx.from_ = some a := by
  cases hcache : ex.accountCache.lookup tx.from_ with
  | some b =>
    rw [BlockExecutor.view, hcache] at ha
    exact ha
  | none =>
    have hstored : s tx.from_ = some a := by rwa [BlockExecutor.view, hcache] at ha
    have hread := h.getAccount_stored hshort hstored
    rw [BlockExecutor.applyOp, BlockExecutor.applyTransaction, BlockExecutor.applyTransfer,
      BlockExecutor.getAccountHelper, hcache, hroot] at happly
    simp only [hread] at happly
    exact absurd (Prod.mk.inj happly).1 (by simp)

end

/-! ## Agreement -/

section

variable {T : Type} {m : Monotree T} {bincode : Bincode} {c : Crypto} {laws : MonotreeLaws m}
  {base s : AccountMap} {ex : BlockExecutor T} {baseRoot : Hash} {tree : T} {st : Core.ProofState}
  {stateTree : StateTree} {inp : TransitionInputs} {i : ℕ} {op : Op} {t : Transfer}

/-- The generator, which pushes dummies for a transaction, does not charge the sender with them. -/
theorem Transfer.Charges.not_skipped {a : Account} (hch : t.Charges s a)
    (h : op.transfer = some t) (hst : Commits c stateTree st.currentRoot s)
    (hproofs : CorrectProofs c inp i st.currentRoot s op)
    (hcf : CollisionFree c (hashedBy c stateTree ((op.item i).writes inp)) stateTree)
    {proofTo : Option MerkleProof} :
    ¬ RootDoes c s st.currentRoot (some (Core.dummyProof t.from_)) proofTo op .charged
      st.currentRoot := by
  intro hdoes
  obtain ⟨p, hp, hfound, hverify, hroot⟩ := hdoes.of_charged h
  obtain rfl := Option.some_inj.mp hp
  obtain rfl := Option.some_inj.mp (hfound.symm.trans hch.found)
  obtain ⟨q, hq, hwrites⟩ := hproofs.writes_unpaid h hst hcf hch.found hch.unpaid
  rw [hwrites] at hcf
  obtain ⟨hold, hnew⟩ := leaf_mem_hashedBy c stateTree (List.mem_singleton_self
    (⟨t.from_, q, charged (Core.dummyProof t.from_).account t.fee⟩ : LeafWrite))
  rw [hq] at hold
  have hsame : (Core.dummyProof t.from_).account.hash c
      = (charged (Core.dummyProof t.from_).account t.fee).hash c :=
    (verify_dummyProof.mp hverify).trans hroot
  exact charged_ne _ _ (Preimage.leaf.inj (stateDigest_injOn hcf.injOn hold hnew hsame)).symm

/-- Nor does it execute the transfer. -/
theorem Transfer.Executes.not_skipped {a : Account} (hex : t.Executes s a)
    (h : op.transfer = some t) (hst : Commits c stateTree st.currentRoot s)
    (hproofs : CorrectProofs c inp i st.currentRoot s op)
    (hcf : CollisionFree c (hashedBy c stateTree ((op.item i).writes inp)) stateTree) :
    ¬ RootDoes c s st.currentRoot (some (Core.dummyProof t.from_)) (some (Core.dummyProof t.to_)) op
      .executed st.currentRoot := by
  intro hdoes
  obtain ⟨p, q, hp, hq, hfound, -, hverifyTo⟩ := hdoes.of_executed h
  obtain rfl := Option.some_inj.mp hp
  obtain rfl := Option.some_inj.mp hq
  obtain rfl := Option.some_inj.mp (hfound.symm.trans hex.found)
  -- A new account pays nothing.
  have hamount : t.amount = 0 := by
    have hpaid := hex.paid
    rw [Paid, show (Core.dummyProof t.from_).account.balance = 0 from rfl,
      UInt64.toNat_zero] at hpaid
    exact UInt64.toNat_inj.mp (by rw [UInt64.toNat_zero]; omega)
  have hcredited : credited (Account.new t.to_) t.amount = Account.new t.to_ := by
    rw [hamount]
    rfl
  obtain ⟨p, q, -, -, -, -, -, hwrites⟩ := hproofs.writes_paid h hst hcf hex.found hex.paid
  rw [hwrites] at hcf
  have hdebited := (leaf_mem_hashedBy c stateTree (List.mem_cons_self
    (a := (⟨t.from_, p, debited (Core.dummyProof t.from_).account t.fee t.amount⟩ : LeafWrite))
    (l := [⟨t.to_, q, credited (Account.new t.to_) t.amount⟩]))).2
  have hnew := (leaf_mem_hashedBy c stateTree (List.mem_cons_of_mem
    (⟨t.from_, p, debited (Core.dummyProof t.from_).account t.fee t.amount⟩ : LeafWrite)
    (List.mem_singleton_self
      (⟨t.to_, q, credited (Account.new t.to_) t.amount⟩ : LeafWrite)))).2
  dsimp only at hnew hdebited
  rw [hcredited] at hnew hdebited hcf
  have hsame := Preimage.leaf.inj
    (stateDigest_injOn hcf.injOn hnew hdebited (verify_dummyProof.mp hverifyTo))
  exact absurd (congrArg Account.nonce hsame) (by simp [debited, Core.dummyProof, Account.new])

/-- **A payment that the guest comes out of as it went in.**  The executor refuses it, with the
nonce of the sender and nothing else in its way. -/
theorem guest_restores_iff (h : op.transfer = some t) (hst : Commits c stateTree st.currentRoot s)
    (hproofs : CorrectProofs c inp i st.currentRoot s op)
    (hcf : CollisionFree c (hashedBy c stateTree ((op.item i).writes inp)) stateTree) {a : Account}
    (hfound : s t.from_ = some a) (hnonce : a.nonce = t.nonce) (hpaid : Paid a t.fee t.amount) :
    (op.item i).step c inp st.currentRoot = .ok st.currentRoot ↔
      t.to_ = t.from_ ∧ credited (Account.new t.to_) t.amount = a := by
  obtain ⟨p, q, hp, hpa, hverify, hq, hshows, hwrites⟩ :=
    hproofs.writes_paid h hst hcf hfound hpaid
  rw [hwrites] at hcf
  obtain ⟨proofsFrom, proofsTo, hfrom, hto, hbody, -⟩ := Op.item_step h c inp i
  have hfits : Fits ((Account.new t.to_).balance.toNat + t.amount.toNat) := by
    rw [show (Account.new t.to_).balance = 0 from rfl, UInt64.toNat_zero, Nat.zero_add]
    exact UInt64.fits_toNat t.amount
  have htransfer : transfer p.account (Account.new t.to_) t.nonce t.fee t.amount
      = .ok (.success (debited a t.fee t.amount) (credited (Account.new t.to_) t.amount)) := by
    rw [hpa]
    exact transfer_eq_ok_iff.mpr
      ⟨hnonce, (UInt64.fits_toNat _).mono hpaid, Or.inr ⟨hpaid, hfits, rfl⟩⟩
  rw [hbody, transferStep_eq_ok]
  constructor
  · rintro ⟨p', hp', -, ⟨b, hb, -⟩ | ⟨b, b', q', hb, hq', hverifyTo, hroot⟩⟩
    · obtain rfl := Option.some_inj.mp ((hfrom.symm.trans hp).symm.trans hp')
      rw [htransfer] at hb
      exact absurd hb (by simp)
    · obtain rfl := Option.some_inj.mp ((hfrom.symm.trans hp).symm.trans hp')
      obtain rfl := Option.some_inj.mp ((hto.symm.trans hq).symm.trans hq')
      rw [htransfer] at hb
      obtain ⟨rfl, rfl⟩ := TransactionResult.success.inj (Except.ok.inj hb)
      obtain ⟨hst', hcf'⟩ := hst.paid hcf hfound (hst.keyed hfound) hpa hverify hshows.names
        hverifyTo
      rw [← hroot] at hst'
      exact paid_eq_self hfound (hst'.eq_of_root hst hcf' hcf)
  · rintro ⟨hself, hsame⟩
    have hdebit : s.set t.from_ (debited a t.fee t.amount) t.to_
        = some (debited a t.fee t.amount) := by
      rw [set_apply, if_pos hself]
    have hverifyTo := hshows.verifies _ hdebit
    refine ⟨p, hfrom.symm.trans hp, hverify, Or.inr ⟨_, _, q, htransfer, hto.symm.trans hq,
      hverifyTo, ?_⟩⟩
    obtain ⟨hst', -⟩ := hst.paid hcf hfound (hst.keyed hfound) hpa hverify hshows.names hverifyTo
    subst hpa
    obtain ⟨hget, -, -⟩ := hcf.write (subset_hashedBy _ _ List.mem_cons_self)
      (hst.root_eq ▸ hverify)
    obtain ⟨hst₁, hcf₁⟩ := hst.write hcf (subset_hashedBy _ _ List.mem_cons_self) hverify rfl
    have hw₂ := subset_hashedBy c stateTree (List.mem_cons_of_mem
      (⟨t.from_, p, debited p.account t.fee t.amount⟩ : LeafWrite) (List.mem_singleton_self
        (⟨t.to_, q, credited (Account.new t.to_) t.amount⟩ : LeafWrite)))
    obtain ⟨hget₁, -, -⟩ := hcf₁.write hw₂ (hst₁.root_eq ▸ hverifyTo)
    have hshown := hst₁.found hcf₁ hw₂ hverifyTo
    dsimp only [LeafWrite.position] at hget hget₁ hshown
    rw [hst.keyed hfound, hshows.names, hdebit, Option.some_inj] at hshown
    -- Both writes are to the place of the sender.
    have hpos : position q.siblings = position p.siblings := by
      by_contra hne
      rw [Tree.get?_set_ne _ hget hne] at hget₁
      have hfind := Tree.find?_eq_some Account.id hst.nodup hget₁
      rw [← hst.accounts, hshows.names, hself, hfound, Option.some_inj] at hfind
      exact debited_ne _ _ _ (hshown.trans hfind.symm)
    rw [← hst'.root_eq, hpos, Tree.set_set, hsame, Tree.set_eq_self hget, hst.root_eq]

/-- A transaction that the three agree on. -/
theorem agreed_tx {tx : Transaction} {a : Account} {o : Outcome} (hshort : bincode.RefusesShort)
    (hroot : ex.root = some baseRoot) (hbase : Holds laws c ex.tree baseRoot base)
    (hview : ex.view base = s) (hholds : Holds laws c tree st.currentRoot s)
    (hst : Commits c stateTree st.currentRoot s)
    (hproofs : CorrectProofs c inp i st.currentRoot s (.transaction tx))
    (hcf : CollisionFree c (hashedBy c stateTree (((Op.transaction tx).item i).writes inp))
      stateTree)
    (hexecutor : ExecutorDoes (Core.getAccount m bincode) base ex (.transaction tx) o)
    (hgenerator : GeneratorDoes m bincode c tree s st (.transaction tx) o)
    (hguest : GuestDoes c inp i s st.currentRoot (.transaction tx) o)
    (hfound : s tx.from_ = some a) (hnonce : a.nonce = tx.nonce)
    (hfits : Fits (tx.amount.toNat + tx.fee.toNat)) : PaysItselfAll ex tx a := by
  have htransfer : (Op.transaction tx).transfer
      = some ⟨tx.from_, tx.to_, tx.nonce, tx.fee, tx.amount⟩ := rfl
  obtain ⟨ex', happly, hledger⟩ := hexecutor
  obtain ⟨st', hgen, hdoes⟩ := hgenerator
  obtain ⟨root', hstep, hguest⟩ := hguest
  rw [generateOp_tx_stored hholds hshort hfound] at hgen
  obtain rfl := Except.ok.inj hgen
  simp only [Core.ProofState.push, List.getLast?_concat] at hdoes
  rw [hview] at hledger
  generalize ex'.view base = s' at hledger
  cases hledger with
  | @charges _ t b h hch =>
    obtain rfl := Option.some_inj.mp (htransfer.symm.trans h)
    exact absurd hdoes (hch.not_skipped h hst hproofs hcf)
  | @executes _ t b h hex =>
    obtain rfl := Option.some_inj.mp (htransfer.symm.trans h)
    exact absurd hdoes (hex.not_skipped h hst hproofs hcf)
  | @refuses _ t h hnex hnch =>
    obtain rfl := Option.some_inj.mp (htransfer.symm.trans h)
    have hpaid : Paid a tx.fee tx.amount := by
      by_contra hunpaid
      exact hnch a ⟨hfound, hnonce, hfits, hunpaid⟩
    obtain rfl := hguest.of_skipped
    obtain ⟨hself, hsame⟩ :=
      (guest_restores_iff htransfer hst hproofs hcf hfound hnonce hpaid).mp hstep
    have hbalance : a.balance = tx.amount := by
      rw [← hsame]
      exact UInt64.zero_add _
    have hfirst : a.nonce = 0 := by
      rw [← hsame]
      rfl
    have hto : s.getOrNew tx.to_ = a := by
      rw [getOrNew, show tx.to_ = tx.from_ from hself, hfound, Option.getD_some]
    have hover : ¬ Fits (a.balance.toNat + tx.amount.toNat) := fun hfit ↦
      hnex a ⟨hfound, hnonce, hpaid, hto.symm ▸ hfit⟩
    rw [Paid, hbalance] at hpaid
    exact {
      cached := hbase.cached_of_applied hshort hroot happly (hview ▸ hfound)
      toSelf := hself
      first := hfirst
      nonce := hnonce ▸ hfirst
      free := UInt64.toNat_inj.mp (by rw [UInt64.toNat_zero]; omega)
      all := hbalance.symm
      overflows := by rwa [← hbalance] at hover }

theorem PaysItselfAll.agreed {tx : Transaction} {a : Account} (h : PaysItselfAll ex tx a)
    (hshort : bincode.RefusesShort) (hview : ex.view base = s)
    (hholds : Holds laws c tree st.currentRoot s) (hst : Commits c stateTree st.currentRoot s)
    (hproofs : CorrectProofs c inp i st.currentRoot s (.transaction tx))
    (hcf : CollisionFree c (hashedBy c stateTree (((Op.transaction tx).item i).writes inp))
      stateTree) :
    ExecutorDoes (Core.getAccount m bincode) base ex (.transaction tx) .skipped ∧
      GeneratorDoes m bincode c tree s st (.transaction tx) .skipped ∧
      GuestDoes c inp i s st.currentRoot (.transaction tx) .skipped := by
  have htransfer : (Op.transaction tx).transfer
      = some ⟨tx.from_, tx.to_, tx.nonce, tx.fee, tx.amount⟩ := rfl
  have hfound : s tx.from_ = some a := by rw [← hview, BlockExecutor.view, h.cached, Option.some_or]
  have hto : s.getOrNew tx.to_ = a := by rw [getOrNew, h.toSelf, hfound, Option.getD_some]
  have hpaid : Paid a tx.fee tx.amount := by
    rw [Paid, h.free, h.all, UInt64.toNat_zero]
    omega
  have hrefused : transfer a a tx.nonce tx.fee tx.amount = .error .balanceOverflow := by
    rw [transfer_eq_error_iff]
    exact Or.inr ⟨h.first.trans h.nonce.symm, rfl, Or.inr ⟨hpaid, h.all ▸ h.overflows⟩⟩
  refine ⟨⟨ex, ?_, ?_⟩, ⟨_, generateOp_tx_stored hholds hshort hfound, .skips _⟩,
    ⟨_, ?_, .skips _⟩⟩
  · have hread : ex.getAccountHelper (Core.getAccount m bincode) tx.from_ = (.ok a, ex) := by
      rw [BlockExecutor.getAccountHelper, h.cached]
    rw [BlockExecutor.applyOp, BlockExecutor.applyTransaction, BlockExecutor.applyTransfer, hread]
    simp only [h.toSelf, hread, Run.unwrapOr, Stf.applyTransaction, hrefused]
  · rw [hview]
    refine .refuses htransfer (fun b hex ↦ ?_) fun b hch ↦ ?_
    · obtain rfl := Option.some_inj.mp (hfound.symm.trans hex.found)
      have hfit := hex.fits
      rw [hto, h.all] at hfit
      exact h.overflows hfit
    · obtain rfl := Option.some_inj.mp (hfound.symm.trans hch.found)
      exact hch.unpaid hpaid
  · refine (guest_restores_iff htransfer hst hproofs hcf hfound (h.first.trans h.nonce.symm)
      hpaid).mpr ⟨h.toSelf, ?_⟩
    have hid : a.id = tx.to_ := h.toSelf ▸ hst.keyed hfound
    rw [credited, h.all, show (Account.new tx.to_).balance = 0 from rfl, UInt64.zero_add, ← hid,
      Account.new, ← h.first]

/-- **On which operations the three ledgers agree.**  All three start from the accounts `s`: the
executor shows them, its own over those of its tree, the generator has them in its tree, and the
guest has the root of a tree with them and correct proofs.  They agree on the forced transactions of
the zero sender, and where the guest comes out as it went in. -/
theorem skips_agree_iff (laws : MonotreeLaws m) (hshort : bincode.RefusesShort)
    (hroot : ex.root = some baseRoot) (hbase : Holds laws c ex.tree baseRoot base)
    (hview : ex.view base = s) (hholds : Holds laws c tree st.currentRoot s)
    (hst : Commits c stateTree st.currentRoot s)
    (hproofs : CorrectProofs c inp i st.currentRoot s op)
    (hcf : CollisionFree c (hashedBy c stateTree ((op.item i).writes inp)) stateTree) :
    (∃ o, ExecutorDoes (Core.getAccount m bincode) base ex op o ∧
      GeneratorDoes m bincode c tree s st op o ∧ GuestDoes c inp i s st.currentRoot op o) ↔
      op.Dummy ∨ ∃ tx a, op = .transaction tx ∧ PaysItselfAll ex tx a := by
  constructor
  · rintro ⟨o, hexecutor, hgenerator, hguest⟩
    obtain ⟨root', hstep, -⟩ := id hguest
    obtain ⟨st', hgen, -⟩ := id hgenerator
    cases op with
    | deposit d =>
      obtain ⟨b, hfound, -⟩ := guest_deposit hst hcf hproofs hstep
      rw [generateOp_deposit_stored hholds hshort hfound] at hgen
      exact absurd hgen (by simp [Run.err])
    | forced tx =>
      by_cases hdummy : tx.from_ = Hash.default
      · exact Or.inl ⟨tx, rfl, hdummy⟩
      · have htransfer : (Op.forced tx).transfer
            = some ⟨tx.from_, tx.to_, tx.nonce, tx.fee, tx.amount⟩ := if_neg hdummy
        obtain ⟨a, hfound, -⟩ := guest_transfer htransfer hst hcf hproofs hstep
        rw [generateOp_forced_stored hholds hshort hdummy hfound] at hgen
        exact absurd hgen (by simp [Run.err])
    | transaction tx =>
      obtain ⟨a, hfound, hnonce, hfits, -⟩ := guest_transfer rfl hst hcf hproofs hstep
      exact Or.inr ⟨tx, a, rfl, agreed_tx hshort hroot hbase hview hholds hst hproofs hcf
        hexecutor hgenerator hguest hfound hnonce hfits⟩
  · rintro (⟨tx, rfl, hdummy⟩ | ⟨tx, a, rfl, hpays⟩)
    · exact ⟨.skipped, ⟨ex, if_pos hdummy, .dummy hdummy⟩, ⟨_, if_pos hdummy, .skips _⟩,
        ⟨_, if_pos hdummy, .skips _⟩⟩
    · exact ⟨.skipped, hpays.agreed hshort hview hholds hst hproofs hcf⟩

end

/-! ## A transaction without a sender -/

namespace AbsentSender

abbrev start : BlockExecutor MemTree := BlockExecutor.new [] (some Hash.default)

def input : TransitionInputs where
  preStateRoot := Hash.default
  txs := [tx]
  deposits := []
  forcedTxs := []
  proofsDeposits := []
  proofsForcedFrom := []
  proofsForcedTo := []
  proofsTxsFrom := [Core.dummyProof alice]
  proofsTxsTo := [Core.dummyProof tx.to_]

def generated : Core.ProofState :=
  ⟨Hash.default, [Core.dummyProof alice], [Core.dummyProof tx.to_]⟩

theorem item_step : ((Op.transaction tx).item 0).step c input Hash.default
    = Run.err .merkleProofVerificationFailed := by
  decide +kernel

theorem hashes_nodup :
    ([Account.new alice, charged (Account.new alice) 0].map (Account.hash c)).Nodup := by
  decide +kernel

theorem hashes_ne_default : Hash.default ∉
    [Account.new alice, charged (Account.new alice) 0].map (Account.hash c) := by
  decide +kernel

theorem collisionFree : CollisionFree c
    (hashedBy c (.empty Hash.default) (((Op.transaction tx).item 0).writes input))
    (.empty Hash.default) := by
  have hS : ∀ p ∈ hashedBy c (.empty Hash.default) (((Op.transaction tx).item 0).writes input),
      ∃ b ∈ [Account.new alice, charged (Account.new alice) 0], p = .leaf b := by
    rintro p (h | ⟨w, hw, hp⟩)
    · exact h.elim
    · obtain rfl := List.mem_singleton.mp hw
      rcases hp with rfl | rfl | h | h
      · exact ⟨_, List.mem_cons_self, rfl⟩
      · exact ⟨_, List.mem_cons_of_mem _ List.mem_cons_self, rfl⟩
      · exact h.elim
      · exact h.elim
  refine ⟨?_, fun p hp ↦ hp.elim, ?_⟩
  · rintro _ ⟨p, hp, rfl⟩ _ ⟨q, hq, rfl⟩ h
    obtain ⟨x, hx, rfl⟩ := hS p hp
    obtain ⟨y, hy, rfl⟩ := hS q hq
    rw [List.inj_on_of_nodup_map hashes_nodup hx hy h]
  · rintro h rfl p hp heq
    obtain ⟨x, hx, rfl⟩ := hS p hp
    exact hashes_ne_default (List.mem_map.mpr ⟨x, hx, heq⟩)

theorem commits : Commits c (.empty Hash.default) Hash.default fun _ ↦ none :=
  ⟨rfl, List.nodup_nil, fun _ ↦ rfl⟩

theorem correctProofs : CorrectProofs c input 0 Hash.default (fun _ ↦ none) (.transaction tx) where
  proofFrom := ⟨Core.dummyProof alice, rfl, rfl, by simp⟩
  proofTo _ _ _ _ h := absurd h (by simp)

end AbsentSender

open AbsentSender in
/-- The executor and the generator skip the transaction, and the guest returns an error for it. -/
theorem absentSender_disagree :
    start.applyOp read (.transaction tx) = (.ok (), start) ∧
      generateOp (MemTree.monotree c) Bincode.v1 c [] ⟨Hash.default, [], []⟩ (.transaction tx)
        = .ok generated ∧
      ((Op.transaction tx).item 0).step c input Hash.default
        = Run.err .merkleProofVerificationFailed ∧
      ¬ ∃ o, ExecutorDoes read (fun _ ↦ none) start (.transaction tx) o ∧
        GeneratorDoes (MemTree.monotree c) Bincode.v1 c [] (fun _ ↦ none) ⟨Hash.default, [], []⟩
          (.transaction tx) o ∧
        GuestDoes c input 0 (fun _ ↦ none) Hash.default (.transaction tx) o := by
  refine ⟨rfl, rfl, AbsentSender.item_step, ?_⟩
  rintro ⟨o, -, -, root', hstep, -⟩
  exact absurd (AbsentSender.item_step.symm.trans hstep) (by simp [Run.err])

open AbsentSender in
theorem skips_agree_iff_absentSender :
    (∃ o, ExecutorDoes read (fun _ ↦ none) start (.transaction tx) o ∧
      GeneratorDoes (MemTree.monotree c) Bincode.v1 c [] (fun _ ↦ none) ⟨Hash.default, [], []⟩
        (.transaction tx) o ∧
      GuestDoes c input 0 (fun _ ↦ none) Hash.default (.transaction tx) o) ↔
    (Op.transaction tx).Dummy ∨ ∃ tx' a, Op.transaction tx = .transaction tx' ∧
      PaysItselfAll start tx' a :=
  skips_agree_iff (MemTree.laws c) Bincode.v1_refusesShort rfl (holds_empty _ _) rfl
    (holds_empty _ _) AbsentSender.commits correctProofs AbsentSender.collisionFree

end TinyRollup
