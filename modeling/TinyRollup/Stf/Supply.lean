import TinyRollup.Stf.Frame
import TinyRollup.Stf.Named

/-!
# The supply of the state tree

What the guest adds to the balances of a tree and what it takes away, whatever proofs it is given.
A deposit adds its amount.  A transfer burns its fee, and it burns what the leaf of its recipient
held, since the guest credits a new account in its place.  Nothing else moves the sum of the
balances (`guest_supply`), so no host can make the guest create value.
-/

set_option autoImplicit false

namespace TinyRollup

open ByteString Stf HashTree

/-- The sum of all balances. -/
def StateTree.supply (t : StateTree) : ℕ := t.weight fun a ↦ a.balance.toNat

/-! ## What an iteration adds and burns -/

namespace Stf

/-- The fee taken from the account in the proof of the sender. -/
def transferFee (proofsFrom : List MerkleProof) (i : ℕ) (fee amount : UInt64) : ℕ :=
  match proofsFrom[i]? with
  | some p =>
    if Paid p.account fee amount then fee.toNat else min fee.toNat p.account.balance.toNat
  | none => 0

/-- The balance that was in the leaf of the recipient. -/
def transferLost (proofsFrom proofsTo : List MerkleProof) (i : ℕ) (fee amount : UInt64) : ℕ :=
  match proofsFrom[i]? with
  | some p =>
    if Paid p.account fee amount then
      proofsTo[i]?.elim 0 fun q ↦ q.account.balance.toNat
    else 0
  | none => 0

end Stf

namespace Item

def deposited : Item → ℕ
  | deposit d _ => d.amount.toNat
  | forced _ _ => 0
  | transaction _ _ => 0

def fee (inp : TransitionInputs) : Item → ℕ
  | deposit _ _ => 0
  | forced tx i =>
    if tx.from_ = Hash.default then 0 else transferFee inp.proofsForcedFrom i tx.fee tx.amount
  | transaction tx i => transferFee inp.proofsTxsFrom i tx.fee tx.amount

def lost (inp : TransitionInputs) : Item → ℕ
  | deposit _ _ => 0
  | forced tx i =>
    if tx.from_ = Hash.default then 0
    else transferLost inp.proofsForcedFrom inp.proofsForcedTo i tx.fee tx.amount
  | transaction tx i => transferLost inp.proofsTxsFrom inp.proofsTxsTo i tx.fee tx.amount

end Item

namespace TransitionInputs

/-- The amounts of the deposits. -/
def deposited (inp : TransitionInputs) : ℕ := (inp.deposits.map fun d ↦ d.amount.toNat).sum

/-- What a run takes from the supply: the fees, and what it overwrites. -/
def burned (inp : TransitionInputs) : ℕ :=
  ((items inp).map fun x ↦ x.fee inp + x.lost inp).sum

end TransitionInputs

/-! ## One write -/

/-- The balances that some writes remove and those they put in their place. -/
def oldBalances (ws : List LeafWrite) : ℕ := (ws.map fun w ↦ w.proof.account.balance.toNat).sum

def newBalances (ws : List LeafWrite) : ℕ := (ws.map fun w ↦ w.account.balance.toNat).sum

theorem Rewrites.supply {t t' : StateTree} {ws : List LeafWrite} (h : Rewrites t ws t') :
    t'.supply + oldBalances ws = t.supply + newBalances ws := by
  induction h with
  | nil => rfl
  | @cons w ws t t' found _ ih =>
    have hset := Tree.weight_set (fun a : Account ↦ a.balance.toNat) w.account found
    simp only [oldBalances, newBalances, List.map_cons, List.sum_cons, StateTree.supply] at ih ⊢
    omega

/-! ## One iteration -/

theorem transferStep_balances {c : Crypto} {proofsFrom proofsTo : List MerkleProof} {i : ℕ}
    {from_ to_ : Hash} {nonce fee amount : UInt64} {root root' : Hash}
    (h : transferStep c proofsFrom proofsTo i to_ (fun a b ↦ transfer a b nonce fee amount) root
      = .ok root') :
    newBalances (transferWrites proofsFrom proofsTo i from_ to_ fee amount)
        + (transferFee proofsFrom i fee amount + transferLost proofsFrom proofsTo i fee amount)
      = oldBalances (transferWrites proofsFrom proofsTo i from_ to_ fee amount) := by
  obtain ⟨p, hp, -, hres⟩ := transferStep_eq_ok.mp h
  simp only [transferWrites, transferFee, transferLost, hp]
  obtain ⟨a, ha, -⟩ | ⟨a, b, q, hab, hq, -, -⟩ := hres
  · obtain ⟨-, -, ⟨hunpaid, -⟩ | ⟨-, -, hr⟩⟩ := transfer_eq_ok_iff.mp ha
    · have hcharged := charged_balance p.account fee
      simp only [if_neg hunpaid, oldBalances, newBalances, List.map_singleton, List.sum_singleton,
        hcharged]
      omega
    · exact absurd hr (by simp)
  · obtain ⟨-, -, ⟨-, hr⟩ | ⟨hpaid, hto, -⟩⟩ := transfer_eq_ok_iff.mp hab
    · exact absurd hr (by simp)
    · have hdebited := debited_balance hpaid
      have hcredited := credited_balance hto
      have hle : amount.toNat + fee.toNat ≤ p.account.balance.toNat := hpaid
      have hnew : (Account.new to_).balance.toNat = 0 := rfl
      simp only [if_pos hpaid, creditWrites, hq, Option.elim_some, oldBalances, newBalances,
        List.map_cons, List.map_nil, List.sum_cons, List.sum_nil, hdebited, hcredited, hnew]
      omega

theorem Item.step_balances {c : Crypto} {inp : TransitionInputs} {root root' : Hash} {x : Item}
    (h : x.step c inp root = .ok root') :
    newBalances (x.writes inp) + (x.fee inp + x.lost inp)
      = oldBalances (x.writes inp) + x.deposited := by
  cases x with
  | deposit d i =>
    obtain ⟨p, a, hp, -, ha, -⟩ := depositStep_eq_ok.mp h
    obtain ⟨hfits, -⟩ := applyDeposit_eq_ok_iff.mp ha
    have hcredited := credited_balance hfits
    simp only [writes, depositWrites, hp, oldBalances, newBalances, List.map_singleton,
      List.sum_singleton, hcredited, fee, lost, deposited]
    omega
  | forced tx i =>
    simp only [writes, forcedWrites, fee, lost, deposited]
    rcases forcedStep_eq_ok.mp h with ⟨hdummy, -⟩ | ⟨hdummy, hstep⟩
    · simp only [if_pos hdummy]
      rfl
    · simp only [if_neg hdummy]
      exact transferStep_balances hstep
  | transaction tx i => exact transferStep_balances h

/-! ## Runs -/

theorem deposited_eq (inp : TransitionInputs) :
    ((items inp).map Item.deposited).sum = inp.deposited := by
  have hfst : ∀ ds : List Deposit, ds.zipIdx.map (fun x ↦ x.1.amount.toNat)
      = ds.map fun d ↦ d.amount.toNat := by
    intro ds
    conv_rhs => rw [← List.zipIdx_map_fst 0 ds, List.map_map]
    rfl
  simp only [items, List.map_append, List.map_map, List.sum_append, Function.comp_def,
    Item.deposited, List.map_const', List.sum_replicate, smul_zero, Nat.add_zero, hfst,
    TransitionInputs.deposited]

/-- The writes of a run that returns account for all that it adds and burns. -/
theorem executeTransition_balances {c : Crypto} {inp : TransitionInputs} {out : Hash × Hash × Hash}
    (h : executeTransition c inp = .ok out) :
    newBalances (writes inp) + inp.burned = oldBalances (writes inp) + inp.deposited := by
  have hstep := Run.foldlM_forall (executeTransition_eq_ok_items.mp h).2.2
  have hsum : ∀ xs : List Item, (∀ x ∈ xs, ∃ r r', x.step c inp r = .ok r') →
      newBalances (xs.flatMap (Item.writes inp)) + (xs.map fun x ↦ x.fee inp + x.lost inp).sum
        = oldBalances (xs.flatMap (Item.writes inp)) + (xs.map Item.deposited).sum := by
    intro xs
    induction xs with
    | nil => exact fun _ ↦ rfl
    | cons x xs ih =>
      intro hxs
      obtain ⟨r, r', hx⟩ := hxs x List.mem_cons_self
      have hrest := ih fun y hy ↦ hxs y (List.mem_cons_of_mem _ hy)
      have hfirst := Item.step_balances hx
      simp only [newBalances, oldBalances, List.flatMap_cons, List.map_append, List.sum_append,
        List.map_cons, List.sum_cons] at hrest hfirst ⊢
      omega
  rw [← deposited_eq]
  exact hsum _ hstep

/-- **The supply under a guest run**: whatever the proofs are, the balances of the tree after a run
and what it burned are the balances of the tree before it and the deposits. -/
theorem guest_supply (c : Crypto) (t : StateTree) (inp : TransitionInputs)
    (root depositsHash forcedTxsHash : Hash) (hroot : inp.preStateRoot = t.root (stateDigest c))
    (hcf : CollisionFree c (hashedBy c t (writes inp)) t)
    (hrun : executeTransition c inp = .ok (root, depositsHash, forcedTxsHash)) :
    ∃ t' : StateTree, t'.root (stateDigest c) = root ∧
      t'.supply + inp.burned = t.supply + inp.deposited := by
  have hreplay := executeTransition_replay hrun
  obtain ⟨hrewrites, hfinal, -⟩ :=
    Replay.rewrites (fun w hw p hp ↦ Or.inr ⟨w, hw, hp⟩) hcf (hroot ▸ hreplay)
  have hsupply := hrewrites.supply
  have hbalances := executeTransition_balances hrun
  exact ⟨_, hfinal, by omega⟩

open Misdirected in
/-- The deposit to Alice is in the balance of Bob. -/
theorem guest_supply_misdirected : ∃ t' : StateTree,
    t'.root (stateDigest .sha3Crate) = (credited bob 5).hash .sha3Crate ∧
      t'.supply + (input .sha3Crate).burned = 10 + 5 :=
  guest_supply .sha3Crate tree _ _ _ _ rfl collisionFree (executeTransition_input _)

end TinyRollup
