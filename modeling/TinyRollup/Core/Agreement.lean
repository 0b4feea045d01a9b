import TinyRollup.Core.Generated
import TinyRollup.Core.Skips

/-!
# If accounts could be read

The three ledgers once more, with a decoder that gives back the accounts that were committed, which
the one of the source is not (`getAccount_barren`).  The executor then never fails
(`executorDoes_total`), and skips every operation that the transfer function refuses.  The generator
and the guest still return an error for most of these: `agreed_iff_of_reads` says on which
operations the three would agree.
-/

set_option autoImplicit false

namespace TinyRollup

open ByteString Stf HashTree
open UInt64 (Fits)
open AccountMap

/-! ## The executor -/

/-- What is done is the operation on the accounts. -/
theorem LedgerDoes.eq_apply {s s' : AccountMap} {op : Op} {o : Outcome}
    (h : LedgerDoes s op o s') : s' = op.apply s := by
  cases h with
  | overflows h => rw [Op.apply, AccountMap.applyDeposit, applyDeposit_eq, if_neg h]
  | credits h =>
    rw [Op.apply, AccountMap.applyDeposit, applyDeposit_eq, if_pos h]
    rfl
  | dummy h =>
    rw [Op.apply, Op.transfer, if_pos h]
    rfl
  | refuses h hex hch => rw [Op.apply_of_transfer h, applyTransfer_of_neither hex hch]
  | charges h hch => rw [Op.apply_of_transfer h, hch.apply]
  | executes h hex => rw [Op.apply_of_transfer h, hex.apply]

/-- Every operation has an outcome. -/
theorem ledgerDoes_total (s : AccountMap) (op : Op) : ∃ o s', LedgerDoes s op o s' := by
  cases htransfer : op.transfer with
  | some t =>
    by_cases hex : ∃ a, t.Executes s a
    · obtain ⟨a, hex⟩ := hex
      exact ⟨_, _, .executes htransfer hex⟩
    by_cases hch : ∃ a, t.Charges s a
    · obtain ⟨a, hch⟩ := hch
      exact ⟨_, _, .charges htransfer hch⟩
    rw [not_exists] at hex hch
    exact ⟨_, _, .refuses htransfer hex hch⟩
  | none =>
    cases op with
    | deposit d =>
      by_cases hfits : Fits ((s.getOrNew d.to_).balance.toNat + d.amount.toNat)
      · exact ⟨_, _, .credits hfits⟩
      · exact ⟨_, _, .overflows hfits⟩
    | forced tx =>
      by_cases hdummy : tx.from_ = Hash.default
      · exact ⟨_, _, .dummy hdummy⟩
      · rw [Op.transfer, if_neg hdummy] at htransfer
        exact absurd htransfer (by simp)
    | transaction tx => exact absurd htransfer (by simp [Op.transfer])

/-- The executor does what the accounts ask for, and never fails. -/
theorem executorDoes {T : Type} {read : Reader T} {base s' : AccountMap} {ex : BlockExecutor T}
    (h : Reads read ex.tree ex.root base) {op : Op} {o : Outcome}
    (hdoes : LedgerDoes (ex.view base) op o s') : ExecutorDoes read base ex op o := by
  obtain ⟨ex', -, -, hview, hop⟩ := BlockExecutor.applyOp_refines h op
  obtain rfl := hdoes.eq_apply
  exact ⟨ex', hop, hview ▸ hdoes⟩

theorem executorDoes_total {T : Type} {read : Reader T} {base : AccountMap} {ex : BlockExecutor T}
    (h : Reads read ex.tree ex.root base) (op : Op) : ∃ o, ExecutorDoes read base ex op o := by
  obtain ⟨o, s', hdoes⟩ := ledgerDoes_total (ex.view base) op
  exact ⟨o, executorDoes h hdoes⟩

/-! ## The guest -/

section

variable {c : Crypto} {tree : StateTree} {root root' : Hash} {s : AccountMap}
  {inp : TransitionInputs} {i : ℕ} {op : Op} {t : Transfer}

theorem guestDoes_credits {d : Deposit} {b : Account} (hst : Commits c tree root s)
    (hcf : CollisionFree c (hashedBy c tree (((Op.deposit d).item i).writes inp)) tree)
    (hproofs : CorrectProofs c inp i root s (.deposit d)) (hfound : s d.to_ = some b)
    (hfits : Fits (b.balance.toNat + d.amount.toNat)) :
    GuestDoes c inp i s root (.deposit d) .executed := by
  obtain ⟨p, hp, hshows⟩ := hproofs.proofFrom
  have hverify := hshows.verifies b hfound
  have hw : (⟨d.to_, p, credited p.account d.amount⟩ : LeafWrite)
      ∈ ((Op.deposit d).item i).writes inp := by
    rw [Op.item, Item.writes, depositWrites, show inp.proofsDeposits[i]? = some p from hp]
    exact List.mem_singleton_self _
  have hshown := hst.found hcf (subset_hashedBy _ _ hw) hverify
  rw [hshows.names] at hshown
  obtain rfl := Option.some_inj.mp (hshown.symm.trans hfound)
  exact ⟨_, depositStep_eq_ok.mpr
    ⟨p, _, hp, hverify, applyDeposit_eq_ok_iff.mpr ⟨hfits, rfl⟩, rfl⟩, .credits hp hfound hverify⟩

theorem guestDoes_charges (h : op.transfer = some t) (hst : Commits c tree root s)
    (hcf : CollisionFree c (hashedBy c tree ((op.item i).writes inp)) tree)
    (hproofs : CorrectProofs c inp i root s op) {a : Account} (hch : t.Charges s a) :
    GuestDoes c inp i s root op .charged := by
  obtain ⟨p, hp, hverify, rfl⟩ := hproofs.sender h hst hcf hch.found
  obtain ⟨proofsFrom, proofsTo, hfrom, -, hbody, -⟩ := Op.item_step h c inp i
  refine ⟨_, ?_, .charges h hp hch.found hverify⟩
  rw [hbody, transferStep_eq_ok]
  exact ⟨p, hfrom.symm.trans hp, hverify, Or.inl ⟨_, transfer_eq_ok_iff.mpr
    ⟨hch.nonce, hch.fits, Or.inl ⟨hch.unpaid, rfl⟩⟩, rfl⟩⟩

theorem guestDoes_executes (h : op.transfer = some t) (hst : Commits c tree root s)
    (hcf : CollisionFree c (hashedBy c tree ((op.item i).writes inp)) tree)
    (hproofs : CorrectProofs c inp i root s op) {a b : Account} (hex : t.Executes s a)
    (hto : s t.to_ = some b) : GuestDoes c inp i s root op .executed := by
  obtain ⟨p, hp, hverify, rfl⟩ := hproofs.sender h hst hcf hex.found
  obtain ⟨proofsFrom, proofsTo, hfrom, hto', hbody, -⟩ := Op.item_step h c inp i
  obtain ⟨q, hq, hshowsTo⟩ := hproofs.proofTo t p h hp hex.found hex.paid
  obtain ⟨b', hb'⟩ : ∃ b', s.set t.from_ (debited p.account t.fee t.amount) t.to_ = some b' := by
    rw [set_apply]
    split
    · exact ⟨_, rfl⟩
    · exact ⟨b, hto⟩
  have hverifyTo := hshowsTo.verifies b' hb'
  have hfits : Fits ((Account.new t.to_).balance.toNat + t.amount.toNat) := by
    rw [show (Account.new t.to_).balance = 0 from rfl, UInt64.toNat_zero, Nat.zero_add]
    exact UInt64.fits_toNat t.amount
  refine ⟨_, ?_,
    .executes (b := Account.new t.to_) h hp hq hex.found hverify hverifyTo rfl⟩
  rw [hbody, transferStep_eq_ok]
  refine ⟨p, hfrom.symm.trans hp, hverify, Or.inr ⟨_, _, q, transfer_eq_ok_iff.mpr ⟨hex.nonce,
    (UInt64.fits_toNat _).mono hex.paid, Or.inr ⟨hex.paid, hfits, rfl⟩⟩, hto'.symm.trans hq,
    hverifyTo, rfl⟩⟩

end

/-! ## The generator -/

section

variable {T : Type} {m : Monotree T} {bincode : Bincode} {c : Crypto} {laws : MonotreeLaws m}
  {tree : T} {s : AccountMap} {st st' : Core.ProofState} {op : Op} {t : Transfer}

/-- The generator has one loop body for a transfer, if the sender is there. -/
theorem generateOp_transfer {op : Op} {t : Transfer} {a : Account} {st : Core.ProofState}
    (h : op.transfer = some t)
    (hread : Reads (Core.getAccount m bincode) tree (some st.currentRoot) s)
    (hfound : s t.from_ = some a) : generateOp m bincode c tree st op
      = Core.generateTransfer m bincode c tree st t.from_ t.to_
        fun a b ↦ transfer a b t.nonce t.fee t.amount := by
  obtain ⟨tx, rfl, hreal, rfl⟩ | ⟨tx, rfl, rfl⟩ := Op.transfer_eq_some h
  · exact if_neg hreal
  · have hget := hread tx.from_
    rw [show s tx.from_ = some a from hfound] at hget
    rw [generateOp, Core.generateTx, hget]
    rfl

/-- The tree of the generator has a proof of the recipient at the root after the debit. -/
def Resumes (m : Monotree T) (bincode : Bincode) (c : Crypto) (tree : T) (root : Hash)
    (t : Transfer) : Prop :=
  ∃ p q, Core.buildStfProof m bincode tree root t.from_ = .ok p ∧
    Core.buildStfProof m bincode tree
      (computeNewRoot c p ((debited p.account t.fee t.amount).hash c)) t.to_ = .ok q ∧
    q.verify c (computeNewRoot c p ((debited p.account t.fee t.amount).hash c)) = true

/-- The body of a transfer, once the two accounts are read. -/
theorem generateTransfer_eq {p r : MerkleProof} {from_ to_ : Hash}
    (hp : Core.buildStfProof m bincode tree st.currentRoot from_ = .ok p)
    (hr : Core.buildStfProof m bincode tree st.currentRoot to_ = .ok r)
    (apply : Account → Account → Except StfError TransactionResult) :
    Core.generateTransfer m bincode c tree st from_ to_ apply =
      match apply p.account r.account with
      | .error e => Run.err (.stfError e.debug)
      | .ok (.failure a) => .ok (st.push (computeNewRoot c p (a.hash c)) p r)
      | .ok (.success a b) =>
        (Core.buildStfProof m bincode tree (computeNewRoot c p (a.hash c)) to_).map fun q ↦
          st.push (computeNewRoot c q (b.hash c)) p q := by
  rw [Core.generateTransfer, hp, hr]
  simp only [Run.ok_bind]
  cases apply p.account r.account with
  | error e => rfl
  | ok res => cases res <;> rfl

variable (hpresent : laws.ProvesPresent c) (habsent : laws.ProvesNoAbsent)

include hpresent habsent

theorem generatorDoes_credits {d : Deposit} {b : Account}
    (hholds : Holds laws c tree st.currentRoot s)
    (hread : Reads (Core.getAccount m bincode) tree (some st.currentRoot) s)
    (hfound : s d.to_ = some b) (hfits : Fits (b.balance.toNat + d.amount.toNat)) :
    GeneratorDoes m bincode c tree s st (.deposit d) .executed := by
  obtain ⟨p, hp, haccount, hverify⟩ := hholds.buildStfProof_reads hpresent habsent hread d.to_
  rw [getOrNew, hfound, Option.getD_some] at haccount
  have happly : applyDeposit p.account d = .ok (credited p.account d.amount) :=
    applyDeposit_eq_ok_iff.mpr ⟨haccount ▸ hfits, rfl⟩
  refine ⟨⟨computeNewRoot c p ((credited p.account d.amount).hash c), st.proofsFrom ++ [p],
    st.proofsTo⟩, ?_, .credits (by simp) (haccount ▸ hfound) (hverify b hfound)⟩
  rw [generateOp, Core.generateDeposit, hp, Run.ok_bind, happly]
  rfl

theorem generatorDoes_charges (h : op.transfer = some t)
    (hholds : Holds laws c tree st.currentRoot s)
    (hread : Reads (Core.getAccount m bincode) tree (some st.currentRoot) s) {a : Account}
    (hch : t.Charges s a) : GeneratorDoes m bincode c tree s st op .charged := by
  obtain ⟨p, hp, haccount, hverify⟩ := hholds.buildStfProof_reads hpresent habsent hread t.from_
  obtain ⟨r, hr, hto, -⟩ := hholds.buildStfProof_reads hpresent habsent hread t.to_
  rw [getOrNew, hch.found, Option.getD_some] at haccount
  subst haccount
  refine ⟨st.push (computeNewRoot c p ((charged p.account t.fee).hash c)) p r, ?_,
    .charges h List.getLast?_concat hch.found (hverify _ hch.found)⟩
  rw [generateOp_transfer h hread hch.found, generateTransfer_eq hp hr, hto]
  simp only [hch.transfer_eq]

theorem generatorDoes_executes (h : op.transfer = some t)
    (hholds : Holds laws c tree st.currentRoot s)
    (hread : Reads (Core.getAccount m bincode) tree (some st.currentRoot) s) {a b : Account}
    (hex : t.Executes s a) (hto : s t.to_ = some b)
    (hresumes : Resumes m bincode c tree st.currentRoot t) :
    GeneratorDoes m bincode c tree s st op .executed := by
  obtain ⟨p, hp, haccount, hverify⟩ := hholds.buildStfProof_reads hpresent habsent hread t.from_
  obtain ⟨r, hr, hrTo, -⟩ := hholds.buildStfProof_reads hpresent habsent hread t.to_
  obtain ⟨p', q, hp', hq, hverifyTo⟩ := hresumes
  obtain rfl := Except.ok.inj (hp.symm.trans hp')
  rw [getOrNew, hex.found, Option.getD_some] at haccount
  subst haccount
  have hid : (s.getOrNew t.to_).id = t.to_ := by
    rw [getOrNew, hto, Option.getD_some, hholds.keyed t.to_ b hto]
  refine ⟨st.push (computeNewRoot c q ((credited (s.getOrNew t.to_) t.amount).hash c)) p q, ?_,
    .executes h List.getLast?_concat List.getLast?_concat hex.found (hverify _ hex.found) hverifyTo
      hid⟩
  rw [generateOp_transfer h hread hex.found, generateTransfer_eq hp hr, hrTo]
  simp only [hex.transfer_eq, hq]
  rfl

/-- A transfer that the generator takes does not overflow its recipient. -/
theorem generateOp_fits (h : op.transfer = some t)
    (hholds : Holds laws c tree st.currentRoot s)
    (hread : Reads (Core.getAccount m bincode) tree (some st.currentRoot) s) {a : Account}
    (hfound : s t.from_ = some a) (hpaid : Paid a t.fee t.amount)
    (hgen : generateOp m bincode c tree st op = .ok st') :
    Fits ((s.getOrNew t.to_).balance.toNat + t.amount.toNat) := by
  obtain ⟨p, hp, haccount, -⟩ := hholds.buildStfProof_reads hpresent habsent hread t.from_
  obtain ⟨r, hr, hrTo, -⟩ := hholds.buildStfProof_reads hpresent habsent hread t.to_
  rw [getOrNew, hfound, Option.getD_some] at haccount
  rw [generateOp_transfer h hread hfound, generateTransfer_eq hp hr, haccount, hrTo] at hgen
  cases htransfer : transfer a (s.getOrNew t.to_) t.nonce t.fee t.amount with
  | error e =>
    rw [htransfer] at hgen
    exact absurd hgen (by simp [Run.err])
  | ok res =>
    obtain ⟨-, -, ⟨hunpaid, -⟩ | ⟨-, hfits, -⟩⟩ := transfer_eq_ok_iff.mp htransfer
    · exact absurd hpaid hunpaid
    · exact hfits

/-- The generator executes a transfer only if it finds a proof at the root after the debit. -/
theorem GeneratorDoes.resumes (h : op.transfer = some t)
    (hholds : Holds laws c tree st.currentRoot s)
    (hread : Reads (Core.getAccount m bincode) tree (some st.currentRoot) s) {a : Account}
    (hex : t.Executes s a) (hgen : GeneratorDoes m bincode c tree s st op .executed) :
    Resumes m bincode c tree st.currentRoot t := by
  obtain ⟨st', hok, hdoes⟩ := hgen
  obtain ⟨p, hp, haccount, -⟩ := hholds.buildStfProof_reads hpresent habsent hread t.from_
  obtain ⟨r, hr, hrTo, -⟩ := hholds.buildStfProof_reads hpresent habsent hread t.to_
  rw [getOrNew, hex.found, Option.getD_some] at haccount
  subst haccount
  rw [generateOp_transfer h hread hex.found, generateTransfer_eq hp hr, hrTo] at hok
  simp only [hex.transfer_eq] at hok
  cases hq : Core.buildStfProof m bincode tree
      (computeNewRoot c p ((debited p.account t.fee t.amount).hash c)) t.to_ with
  | error e =>
    rw [hq] at hok
    exact absurd hok (by simp [Except.map])
  | ok q =>
    rw [hq] at hok
    obtain rfl := Except.ok.inj hok
    refine ⟨p, q, hp, hq, ?_⟩
    obtain ⟨p', q', hp', hq', -, -, hverifyTo⟩ := hdoes.of_executed h
    obtain rfl := Option.some_inj.mp (List.getLast?_concat.symm.trans hp')
    obtain rfl := Option.some_inj.mp (List.getLast?_concat.symm.trans hq')
    exact hverifyTo

end

/-! ## Agreement -/

/-- The operations on which the three agree. -/
inductive Agreed {T : Type} (m : Monotree T) (bincode : Bincode) (c : Crypto) (tree : T)
    (root : Hash) (s : AccountMap) : Op → Prop
  /-- A deposit to an account that is there, and that can take it. -/
  | credits {d : Deposit} {b : Account} (found : s d.to_ = some b)
    (fits : Fits (b.balance.toNat + d.amount.toNat)) : Agreed m bincode c tree root s (.deposit d)
  | dummy {tx : ForcedTx} (h : tx.from_ = Hash.default) :
    Agreed m bincode c tree root s (.forced tx)
  | charges {op : Op} {t : Transfer} {a : Account} (h : op.transfer = some t)
    (hch : t.Charges s a) : Agreed m bincode c tree root s op
  /-- A transfer to an account that is there, which the generator can find again after the debit. -/
  | executes {op : Op} {t : Transfer} {a b : Account} (h : op.transfer = some t)
    (hex : t.Executes s a) (found : s t.to_ = some b) (resumes : Resumes m bincode c tree root t) :
    Agreed m bincode c tree root s op

/-- **On which operations the three would agree.**  All three start from the accounts `s`: the
executor shows them, the generator reads them from its tree, and the guest has the root of a tree
with them and correct proofs. -/
theorem agreed_iff_of_reads {T T' : Type} {m : Monotree T} {bincode : Bincode} {c : Crypto}
    {laws : MonotreeLaws m} (hpresent : laws.ProvesPresent c) (habsent : laws.ProvesNoAbsent)
    {read : Reader T'} {base s : AccountMap} {ex : BlockExecutor T'}
    {tree : T} {st : Core.ProofState} {stateTree : StateTree} {inp : TransitionInputs} {i : ℕ}
    {op : Op} (hex : Reads read ex.tree ex.root base) (hview : ex.view base = s)
    (hholds : Holds laws c tree st.currentRoot s)
    (hread : Reads (Core.getAccount m bincode) tree (some st.currentRoot) s)
    (hst : Commits c stateTree st.currentRoot s)
    (hproofs : CorrectProofs c inp i st.currentRoot s op)
    (hcf : CollisionFree c (hashedBy c stateTree ((op.item i).writes inp)) stateTree) :
    (∃ o, ExecutorDoes read base ex op o ∧ GeneratorDoes m bincode c tree s st op o ∧
      GuestDoes c inp i s st.currentRoot op o) ↔ Agreed m bincode c tree st.currentRoot s op := by
  constructor
  · rintro ⟨o, ⟨ex', -, hledger⟩, hgen, root', hstep, -⟩
    rw [hview] at hledger
    generalize ex'.view base = s' at hledger
    cases hledger with
    | @overflows d hover =>
      obtain ⟨b, hfound, hfits⟩ := guest_deposit hst hcf hproofs hstep
      rw [getOrNew, hfound] at hover
      exact absurd hfits hover
    | credits _ =>
      obtain ⟨b, hfound, hfits⟩ := guest_deposit hst hcf hproofs hstep
      exact .credits hfound hfits
    | dummy h => exact .dummy h
    | @refuses _ t h hnex hnch =>
      obtain ⟨a, hfound, hnonce, hfits, -⟩ := guest_transfer h hst hcf hproofs hstep
      obtain ⟨st', hok, -⟩ := hgen
      by_cases hpaid : Paid a t.fee t.amount
      · have hto := generateOp_fits hpresent habsent h hholds hread hfound hpaid hok
        exact absurd ⟨hfound, hnonce, hpaid, hto⟩ (hnex a)
      · exact absurd ⟨hfound, hnonce, hfits, hpaid⟩ (hnch a)
    | charges h hch => exact .charges h hch
    | executes h hexec =>
      obtain ⟨a, hfound, -, -, hto⟩ := guest_transfer h hst hcf hproofs hstep
      obtain rfl := Option.some_inj.mp (hfound.symm.trans hexec.found)
      obtain ⟨b, hb⟩ := hto hexec.paid
      exact .executes h hexec hb (hgen.resumes hpresent habsent h hholds hread hexec)
  · intro hagreed
    subst hview
    cases hagreed with
    | @credits d b hfound hfits =>
      have hnew : Fits (((ex.view base).getOrNew d.to_).balance.toNat + d.amount.toNat) := by
        rw [getOrNew, hfound]
        exact hfits
      exact ⟨.executed, executorDoes hex (.credits hnew),
        generatorDoes_credits hpresent habsent hholds hread hfound hfits,
        guestDoes_credits hst hcf hproofs hfound hfits⟩
    | dummy h =>
      exact ⟨.skipped, executorDoes hex (.dummy h), ⟨_, if_pos h, .skips _⟩,
        ⟨_, if_pos h, .skips _⟩⟩
    | charges h hch =>
      exact ⟨.charged, executorDoes hex (.charges h hch),
        generatorDoes_charges hpresent habsent h hholds hread hch,
        guestDoes_charges h hst hcf hproofs hch⟩
    | executes h hexec hfound hresumes =>
      exact ⟨.executed, executorDoes hex (.executes h hexec),
        generatorDoes_executes hpresent habsent h hholds hread hexec hfound hresumes,
        guestDoes_executes h hst hcf hproofs hexec hfound⟩

end TinyRollup
