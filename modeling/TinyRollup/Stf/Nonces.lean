import TinyRollup.Stf.Frame

/-!
# Nonces in the state tree

A transfer uses the nonce of the account in the proof of its sender and leaves the next one there.
But the guest puts a new account, with nonce zero, in the place that the proof of the recipient
leads to.  So over any number of runs, one after the other, the nonces used at one place count up
without a gap, modulo `2 ^ 64`, until the account there is overwritten (`nonces_count_up`).
-/

set_option autoImplicit false

namespace TinyRollup

open ByteString Stf HashTree

/-- The nonce of the account in a place. -/
def StateTree.nonce? (t : StateTree) (ds : List Bool) : Option UInt64 :=
  (t.get? ds).map Account.nonce

theorem StateTree.nonce?_set {t : StateTree} {ds : List Bool} {a : Account} (b : Account)
    (h : t.get? ds = some a) (ds' : List Bool) :
    StateTree.nonce? (t.set ds b) ds' = if ds' = ds then some b.nonce else t.nonce? ds' := by
  rw [nonce?]
  split
  · rename_i heq
    rw [heq, Tree.get?_set_self b h]
    rfl
  · rename_i hne
    rw [Tree.get?_set_ne b h hne]
    rfl

theorem StateTree.nonce?_of_get? {t : StateTree} {ds : List Bool} {a : Account}
    (h : t.get? ds = some a) : t.nonce? ds = some a.nonce := by
  rw [nonce?, h, Option.map_some]

/-! ## What an iteration does to the nonces -/

namespace Stf

/-- The place that the proof of the sender leads to. -/
def transferSpent (proofsFrom : List MerkleProof) (i : ℕ) : Option (List Bool) :=
  proofsFrom[i]?.map fun p ↦ position p.siblings

/-- The place where a transfer puts a new account. -/
def transferOverwritten (proofsFrom proofsTo : List MerkleProof) (i : ℕ) (fee amount : UInt64) :
    Option (List Bool) :=
  match proofsFrom[i]? with
  | some p =>
    if Paid p.account fee amount then proofsTo[i]?.map fun q ↦ position q.siblings else none
  | none => none

end Stf

namespace Item

/-- The nonce of a transfer. -/
def nonce : Item → Option UInt64
  | deposit _ _ => none
  | forced tx _ => some tx.nonce
  | transaction tx _ => some tx.nonce

/-- The place of the account that a transfer is taken from. -/
def spent (inp : TransitionInputs) : Item → Option (List Bool)
  | deposit _ _ => none
  | forced tx i => if tx.from_ = Hash.default then none else transferSpent inp.proofsForcedFrom i
  | transaction _ i => transferSpent inp.proofsTxsFrom i

/-- The place of the account that an iteration replaces by a new one. -/
def overwritten (inp : TransitionInputs) : Item → Option (List Bool)
  | deposit _ _ => none
  | forced tx i =>
    if tx.from_ = Hash.default then none
    else transferOverwritten inp.proofsForcedFrom inp.proofsForcedTo i tx.fee tx.amount
  | transaction tx i =>
    transferOverwritten inp.proofsTxsFrom inp.proofsTxsTo i tx.fee tx.amount

end Item

/-- One iteration of a guest run, with the input of the run. -/
structure Iteration where
  inp : TransitionInputs
  item : Item

namespace Iteration

def writes (y : Iteration) : List LeafWrite := y.item.writes y.inp

def nonce (y : Iteration) : Option UInt64 := y.item.nonce

def spent (y : Iteration) : Option (List Bool) := y.item.spent y.inp

def overwritten (y : Iteration) : Option (List Bool) := y.item.overwritten y.inp

/-- The iteration returned. -/
def Returns (c : Crypto) (y : Iteration) : Prop := ∃ r r', y.item.step c y.inp r = .ok r'

end Iteration

/-- The iterations of a run. -/
def TransitionInputs.iterations (inp : TransitionInputs) : List Iteration :=
  (items inp).map fun x ↦ ⟨inp, x⟩

/-- How often some iterations take from the account in a place. -/
def spends (ds : List Bool) (ys : List Iteration) : ℕ :=
  ys.countP fun y ↦ decide (y.spent = some ds)

theorem spends_cons (ds : List Bool) (y : Iteration) (ys : List Iteration) :
    spends ds (y :: ys) = spends ds ys + if y.spent = some ds then 1 else 0 := by
  simp only [spends, List.countP_cons, decide_eq_true_eq]

/-! ## One iteration -/

theorem transferStep_nonces {c : Crypto} {proofsFrom proofsTo : List MerkleProof} {i : ℕ}
    {from_ to_ : Hash} {nonce fee amount : UInt64} {root root' : Hash} {t t' : StateTree}
    (h : transferStep c proofsFrom proofsTo i to_ (fun a b ↦ transfer a b nonce fee amount) root
      = .ok root')
    (hw : Rewrites t (transferWrites proofsFrom proofsTo i from_ to_ fee amount) t') :
    ∃ ds, transferSpent proofsFrom i = some ds ∧ t.nonce? ds = some nonce ∧
      ∀ ds', transferOverwritten proofsFrom proofsTo i fee amount ≠ some ds' →
        t'.nonce? ds' = if ds' = ds then some (nonce + 1) else t.nonce? ds' := by
  obtain ⟨p, hp, -, hres⟩ := transferStep_eq_ok.mp h
  refine ⟨position p.siblings, by rw [transferSpent, hp]; rfl, ?_⟩
  simp only [transferWrites, transferOverwritten, hp] at hw ⊢
  obtain ⟨a, ha, -⟩ | ⟨a, b, q, hab, hq, -, -⟩ := hres
  · obtain ⟨hnonce, -, ⟨hunpaid, -⟩ | ⟨-, -, hr⟩⟩ := transfer_eq_ok_iff.mp ha
    · rw [if_neg hunpaid] at hw ⊢
      obtain _ | ⟨found, _ | _⟩ := hw
      refine ⟨(StateTree.nonce?_of_get? found).trans (congrArg some hnonce), fun ds' _ ↦ ?_⟩
      rw [StateTree.nonce?_set _ found, charged_nonce, hnonce]
      rfl
    · exact absurd hr (by simp)
  · obtain ⟨hnonce, -, ⟨-, hr⟩ | ⟨hpaid, -, -⟩⟩ := transfer_eq_ok_iff.mp hab
    · exact absurd hr (by simp)
    · rw [if_pos hpaid] at hw ⊢
      rw [creditWrites, hq] at hw
      rw [hq]
      obtain _ | ⟨found, _ | ⟨found', _ | _⟩⟩ := hw
      refine ⟨(StateTree.nonce?_of_get? found).trans (congrArg some hnonce), fun ds' hds' ↦ ?_⟩
      rw [StateTree.nonce?_set _ found', if_neg fun heq ↦ hds' (congrArg some heq.symm),
        StateTree.nonce?_set _ found, debited_nonce, hnonce]
      rfl

namespace Item

variable {c : Crypto} {inp : TransitionInputs} {x : Item} {r r' : Hash} {t t' : StateTree}
  {ds : List Bool}

/-- A transfer finds its nonce at the account that it is taken from. -/
theorem found_nonce (h : x.step c inp r = .ok r') (hw : Rewrites t (x.writes inp) t')
    (hspent : x.spent inp = some ds) : ∃ n, x.nonce = some n ∧ t.nonce? ds = some n := by
  have htransfer : ∀ {proofsFrom proofsTo : List MerkleProof} {i : ℕ} {from_ to_ : Hash}
      {nonce fee amount : UInt64},
      transferStep c proofsFrom proofsTo i to_ (fun a b ↦ transfer a b nonce fee amount) r
        = .ok r' →
      Rewrites t (transferWrites proofsFrom proofsTo i from_ to_ fee amount) t' →
      transferSpent proofsFrom i = some ds → t.nonce? ds = some nonce := by
    intro proofsFrom proofsTo i from_ to_ nonce fee amount hstep hw hspent
    obtain ⟨ds', hds', hnonce, -⟩ := transferStep_nonces hstep hw
    obtain rfl := Option.some_inj.mp (hspent.symm.trans hds')
    exact hnonce
  cases x with
  | deposit d i => exact absurd hspent (by simp [spent])
  | forced tx i =>
    rw [spent] at hspent
    rw [writes, forcedWrites] at hw
    rcases forcedStep_eq_ok.mp h with ⟨hdummy, -⟩ | ⟨hdummy, hstep⟩
    · rw [if_pos hdummy] at hspent
      exact absurd hspent (by simp)
    · rw [if_neg hdummy] at hspent hw
      exact ⟨_, rfl, htransfer hstep hw hspent⟩
  | transaction tx i => exact ⟨_, rfl, htransfer h hw hspent⟩

/-- Where an account is not overwritten, its nonce goes up by one if a transfer is taken from it,
and stays otherwise. -/
theorem nonce?_after (h : x.step c inp r = .ok r') (hw : Rewrites t (x.writes inp) t')
    (hkept : x.overwritten inp ≠ some ds) :
    t'.nonce? ds = if x.spent inp = some ds then (t.nonce? ds).map (· + 1) else t.nonce? ds := by
  have htransfer : ∀ {proofsFrom proofsTo : List MerkleProof} {i : ℕ} {from_ to_ : Hash}
      {nonce fee amount : UInt64},
      transferStep c proofsFrom proofsTo i to_ (fun a b ↦ transfer a b nonce fee amount) r
        = .ok r' →
      Rewrites t (transferWrites proofsFrom proofsTo i from_ to_ fee amount) t' →
      transferOverwritten proofsFrom proofsTo i fee amount ≠ some ds →
      t'.nonce? ds = if transferSpent proofsFrom i = some ds then (t.nonce? ds).map (· + 1)
        else t.nonce? ds := by
    intro proofsFrom proofsTo i from_ to_ nonce fee amount hstep hw hkept
    obtain ⟨ds', hspent, hfound, hafter⟩ := transferStep_nonces hstep hw
    rw [hafter ds hkept, hspent]
    by_cases heq : ds = ds'
    · rw [if_pos heq, if_pos (congrArg some heq.symm), heq, hfound]
      rfl
    · rw [if_neg heq, if_neg fun h ↦ heq (Option.some_inj.mp h).symm]
  cases x with
  | deposit d i =>
    obtain ⟨p, a, hp, -, -, -⟩ := depositStep_eq_ok.mp h
    rw [writes, depositWrites, hp] at hw
    obtain _ | ⟨found, _ | _⟩ := hw
    rw [spent, if_neg (by simp), StateTree.nonce?_set _ found, credited_nonce]
    split
    · rename_i heq
      rw [heq, StateTree.nonce?_of_get? found]
    · rfl
  | forced tx i =>
    rw [writes, forcedWrites] at hw
    rw [overwritten] at hkept
    rw [spent]
    rcases forcedStep_eq_ok.mp h with ⟨hdummy, -⟩ | ⟨hdummy, hstep⟩
    · rw [if_pos hdummy] at hw ⊢
      cases hw
      rw [if_neg (by simp)]
    · rw [if_neg hdummy] at hw hkept ⊢
      exact htransfer hstep hw hkept
  | transaction tx i => exact htransfer h hw hkept

end Item

/-! ## Many iterations -/

theorem nonce?_of_rewrites {c : Crypto} {ds : List Bool} {ys : List Iteration} :
    ∀ {t t' : StateTree} {n : UInt64}, (∀ y ∈ ys, y.Returns c) →
      Rewrites t (ys.flatMap Iteration.writes) t' → (∀ y ∈ ys, y.overwritten ≠ some ds) →
      t.nonce? ds = some n → t'.nonce? ds = some (n + UInt64.ofNat (spends ds ys)) := by
  induction ys with
  | nil =>
    intro t t' n _ hw _ hn
    cases hw
    rw [hn, spends, List.countP_nil]
    exact congrArg some (UInt64.add_zero n).symm
  | cons y ys ih =>
    intro t t' n hreturns hw hkept hn
    rw [List.forall_mem_cons] at hreturns hkept
    rw [List.flatMap_cons] at hw
    obtain ⟨u, hu, hw⟩ := Rewrites.append_iff.mp hw
    obtain ⟨⟨r, r', hstep⟩, hreturns⟩ := hreturns
    have hafter := Item.nonce?_after hstep hu hkept.1
    rw [hn] at hafter
    by_cases hspent : y.spent = some ds
    · rw [if_pos (show y.item.spent y.inp = some ds from hspent), Option.map_some] at hafter
      rw [ih hreturns hw hkept.2 hafter, spends_cons, if_pos hspent, UInt64.ofNat_add,
        UInt64.add_assoc, UInt64.add_comm (UInt64.ofNat _)]
      rfl
    · rw [if_neg (show ¬ y.item.spent y.inp = some ds from hspent)] at hafter
      rw [ih hreturns hw hkept.2 hafter, spends_cons, if_neg hspent, Nat.add_zero]

/-- **Nonces count up.**  Of two transfers taken from the account in one place, the later one has
the nonce of the earlier one and one more for every transfer taken from this place before it, unless
the account was overwritten in between. -/
theorem nonces_count_up {c : Crypto} {ds : List Bool} {t t' : StateTree} {y z : Iteration}
    {before between after : List Iteration}
    (hreturns : ∀ x ∈ before ++ y :: between ++ z :: after, x.Returns c)
    (hw : Rewrites t ((before ++ y :: between ++ z :: after).flatMap Iteration.writes) t')
    (hy : y.spent = some ds) (hz : z.spent = some ds)
    (hkept : ∀ x ∈ y :: between, x.overwritten ≠ some ds) :
    ∃ n, y.nonce = some n ∧ z.nonce = some (n + UInt64.ofNat (spends ds (y :: between))) := by
  rw [List.flatMap_append, List.flatMap_append] at hw
  obtain ⟨v, hv, hrest⟩ := Rewrites.append_iff.mp hw
  obtain ⟨u, -, hbetween⟩ := Rewrites.append_iff.mp hv
  simp only [List.forall_mem_append] at hreturns
  obtain ⟨⟨-, hreturns⟩, hlast⟩ := hreturns
  obtain ⟨w, hfirst, -⟩ := Rewrites.append_iff.mp (List.flatMap_cons ▸ hbetween)
  obtain ⟨w', hsecond, -⟩ := Rewrites.append_iff.mp (List.flatMap_cons ▸ hrest)
  obtain ⟨r, r', hstep⟩ := hreturns y List.mem_cons_self
  obtain ⟨s, s', hstep'⟩ := hlast z List.mem_cons_self
  obtain ⟨n, hn, hfound⟩ := Item.found_nonce hstep hfirst hy
  obtain ⟨m, hm, hfound'⟩ := Item.found_nonce hstep' hsecond hz
  refine ⟨n, hn, ?_⟩
  rw [Iteration.nonce, hm, ← hfound', nonce?_of_rewrites hreturns hbetween hkept hfound]

end TinyRollup
