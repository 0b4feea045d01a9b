import TinyRollup.Core.SortedTree

/-!
# The cache of the executor

What an executor shows is the stored accounts overridden by the cached ones.  A commit stores
exactly what the executor shows (`Stores.commitBlock`), and every operation is a function of it
(`after_eq`).  So an executor can be committed and replaced by a new one at any point, and it makes
no difference whether an account that was read is in the cache or not.

`get_account` is a parameter here, assumed to return the accounts that were committed.
-/

set_option autoImplicit false

namespace TinyRollup

open ByteString Stf AccountMap

section

variable {T : Type} {m : Monotree T} {c : Crypto} {laws : MonotreeLaws m} {read : Reader T}
  {tree tree' : T} {root : Option Hash} {root' : Hash} {s : AccountMap}

/-! ## A run of the executor -/

/-- The operations on the accounts. -/
def applyAll (ops : List Op) (s : AccountMap) : AccountMap := ops.foldl (fun t op ↦ op.apply t) s

namespace BlockExecutor

/-- A new executor after these operations. -/
def after (read : Reader T) (tree : T) (root : Option Hash) (ops : List Op) : BlockExecutor T :=
  ((new tree root).applyOps read ops).2

theorem applyOps_eq (ops : List Op) :
    ∀ {ex : BlockExecutor T}, Reads read ex.tree ex.root s → ∃ ex',
      ex.applyOps read ops = (.ok (), ex') ∧ ex'.tree = ex.tree ∧ ex'.root = ex.root ∧
        ex'.view s = TinyRollup.applyAll ops (ex.view s) := by
  induction ops with
  | nil => exact fun _ ↦ ⟨_, rfl, rfl, rfl, rfl⟩
  | cons op ops ih =>
    intro ex h
    obtain ⟨ex₁, htree, hroot, hview, hop⟩ := applyOp_refines h op
    have h₁ : Reads read ex₁.tree ex₁.root s := by rwa [htree, hroot]
    obtain ⟨ex', hops, htree', hroot', hview'⟩ := ih h₁
    refine ⟨ex', ?_, htree'.trans htree, hroot'.trans hroot, ?_⟩
    · rw [applyOps, hop]
      exact hops
    · rw [hview', hview]
      rfl

theorem after_eq (h : Reads read tree root s) (ops : List Op) :
    ((new tree root).applyOps read ops).1 = .ok () ∧ (after read tree root ops).tree = tree ∧
      (after read tree root ops).root = root ∧
      (after read tree root ops).view s = TinyRollup.applyAll ops s := by
  have hnew : Reads read (new tree root).tree (new tree root).root s := h
  obtain ⟨ex', hops, htree, hroot, hview⟩ := applyOps_eq ops hnew
  rw [after, hops]
  exact ⟨rfl, htree, hroot, hview⟩

end BlockExecutor

/-! ## What a commit stores -/

/-- The tree has the hashes of the accounts `s` under this root; none stands for the empty map. -/
structure Stores (laws : MonotreeLaws m) (c : Crypto) (tree : T) (root : Option Hash)
    (s : AccountMap) : Prop where
  known : laws.known tree (root.getD Hash.default)
  leaf : ∀ k, laws.leaf tree (root.getD Hash.default) k = (s k).map (Account.hash c)

/-- A commit from no root writes the hashes of the cached accounts. -/
theorem commitBlock_leaf_none (hnone : laws.NoneIsEmpty) {ex : BlockExecutor T} {order : IterOrder}
    (hroot : ex.root = none) (hcommit : ex.commitBlock m c order = (.ok root', tree')) :
    laws.known tree' root' ∧ ∀ k, laws.leaf tree' root' k
      = (ex.accountCache.lookup k).map (Account.hash c) := by
  by_cases hempty : ex.accountCache.entries = []
  · rw [BlockExecutor.commitBlock, if_pos hempty, hroot, Option.getD_none] at hcommit
    obtain ⟨hr, rfl⟩ := Prod.mk.inj hcommit
    obtain rfl := Except.ok.inj hr
    refine ⟨laws.known_default _, fun k ↦ ?_⟩
    rw [lookup_of_entries_nil hempty, Option.map_none, laws.leaf_default]
  · obtain ⟨es, hnd, hinserts, hes⟩ := commitBlock_inserts hempty hcommit
    rw [hroot] at hinserts
    obtain ⟨hknown, hleaf⟩ := hnone ex.tree tree' root' es hnd hinserts
    exact ⟨hknown, fun k ↦ by rw [hleaf, hes]⟩

/-- **A commit stores what the executor shows.** -/
theorem Stores.commitBlock {ex : BlockExecutor T} {order : IterOrder}
    (h : Stores laws c ex.tree ex.root s) (hnone : laws.NoneIsEmpty)
    (hcommit : ex.commitBlock m c order = (.ok root', tree')) :
    Stores laws c tree' (some root') (ex.view s) := by
  have hview : ∀ k, ex.view s k = (ex.accountCache.lookup k).or (s k) := fun _ ↦ rfl
  cases hroot : ex.root with
  | none =>
    obtain ⟨hknown, hleaf⟩ := commitBlock_leaf_none hnone hroot hcommit
    refine ⟨hknown, fun k ↦ ?_⟩
    have hempty : s k = none := by
      have hk := h.leaf k
      rw [hroot, Option.getD_none, laws.leaf_default] at hk
      exact Option.map_eq_none_iff.mp hk.symm
    rw [Option.getD_some, hleaf, hview, hempty, Option.or_none]
  | some r =>
    have hknown := h.known
    have hold := h.leaf
    rw [hroot] at hknown hold
    obtain ⟨hknown', hleaf⟩ := commitBlock_leaf ex hknown hroot hcommit
    refine ⟨hknown', fun k ↦ ?_⟩
    rw [Option.getD_some, hleaf, hview, hold]
    cases ex.accountCache.lookup k <;> rfl

theorem Stores.root_eq {t t' : T} {r r' : Hash} (h : Stores laws c t (some r) s)
    (h' : Stores laws c t' (some r') s) (hroots : laws.RootsDetermined) : r = r' :=
  hroots t t' r r' h.known h'.known (funext fun k ↦ (h.leaf k).trans (h'.leaf k).symm)

/-- **The cache does not change results.**  Whatever the orders of iteration: the operations `xs`
and then `ys` on one executor commit to the root to which `ys` commit on a new executor at the root
of `xs`, and to the same root commits every executor that shows the same accounts, such as one that
has not cached what was only read. -/
theorem cache_changes_nothing (hnone : laws.NoneIsEmpty) (hroots : laws.RootsDetermined)
    {tree₁ tree₂ : T} {r₁ r₂ : Hash} {xs ys : List Op} {order order₁ order₂ : IterOrder}
    (hstores : Stores laws c tree root s) (hread : Reads read tree root s)
    (hfirst : (BlockExecutor.after read tree root xs).commitBlock m c order₁ = (.ok r₁, tree₁))
    (hread₁ : Reads read tree₁ (some r₁) ((BlockExecutor.after read tree root xs).view s))
    (hsecond : (BlockExecutor.after read tree₁ (some r₁) ys).commitBlock m c order₂
      = (.ok r₂, tree₂))
    (honce : (BlockExecutor.after read tree root (xs ++ ys)).commitBlock m c order
      = (.ok root', tree')) :
    root' = r₂ ∧
      ∀ (ex : BlockExecutor T) (order' : IterOrder) (r : Hash) (t : T),
        ex.tree = tree → ex.root = root →
          ex.view s = (BlockExecutor.after read tree root (xs ++ ys)).view s →
            ex.commitBlock m c order' = (.ok r, t) → r = root' := by
  obtain ⟨-, htreeX, hrootX, hviewX⟩ := BlockExecutor.after_eq hread xs
  obtain ⟨-, htree, hroot, hview⟩ := BlockExecutor.after_eq hread (xs ++ ys)
  obtain ⟨-, htreeY, hrootY, hviewY⟩ := BlockExecutor.after_eq hread₁ ys
  have hboth : applyAll (xs ++ ys) s = applyAll ys (applyAll xs s) := List.foldl_append
  have hstored : Stores laws c tree' (some root') (applyAll (xs ++ ys) s) := by
    rw [← hview]
    exact Stores.commitBlock (by rwa [htree, hroot]) hnone honce
  have hstored₁ : Stores laws c tree₁ (some r₁) (applyAll xs s) := by
    rw [← hviewX]
    exact Stores.commitBlock (by rwa [htreeX, hrootX]) hnone hfirst
  have hstored₂ : Stores laws c tree₂ (some r₂) (applyAll (xs ++ ys) s) := by
    rw [hboth, ← hviewX, ← hviewY]
    exact Stores.commitBlock (by rwa [htreeY, hrootY, hviewX]) hnone hsecond
  refine ⟨hstored.root_eq hstored₂ hroots, fun ex order' r t hextree hexroot hexview hex ↦ ?_⟩
  have hother : Stores laws c t (some r) (applyAll (xs ++ ys) s) := by
    rw [← hview, ← hexview]
    exact Stores.commitBlock (by rwa [hextree, hexroot]) hnone hex
  exact hother.root_eq hstored hroots

end

/-! ## A deposit and a payment

Alice deposits 10, and then she pays 1 to Bob.  The decoder here knows the account that the deposit
makes by its hash. -/

namespace Payment

open FirstDeposit (c start alice deposit account tree' commitBlock_eq)

abbrev m : Monotree MemTree := MemTree.monotree c

def decoder : Bincode where
  account b := if b = (account.hash c).toList then some account else none
  forcedTx _ := none

abbrev readBack : Reader MemTree := Core.getAccount m decoder

def toBob : Transaction :=
  { from_ := alice, to_ := Hash.ofByte 2, nonce := 0, fee := 0, amount := 1 }

theorem commitBlock_deposit :
    (BlockExecutor.after readBack [] none [.deposit deposit]).commitBlock m c .cached
      = (.ok (account.hash c), tree') :=
  commitBlock_eq

theorem account_ne_default : account.hash c ≠ Hash.default := by decide +kernel

theorem entriesAt_deposit : MemTree.entriesAt tree' (account.hash c)
    = some [(alice, account.hash c)] := by
  rw [MemTree.entriesAt, if_neg account_ne_default, tree', List.lookup_cons, beq_self_eq_true]

theorem reads_deposit : Reads readBack tree' (some (account.hash c))
    ((start.cacheInsert alice account).view fun _ ↦ none) := by
  intro k
  have hget : m.get tree' (some (account.hash c)) k
      = .ok (if k = alice then some (account.hash c) else none) := by
    have hfind := MemTree.find_of_entriesAt account_ne_default entriesAt_deposit
    simp only [m, MemTree.monotree, hfind, MemTree.lookup_cons_eq, List.lookup_nil]
  have hview : (start.cacheInsert alice account).view (fun _ ↦ none) k
      = if k = alice then some account else none := by
    rw [BlockExecutor.view_cacheInsert, BlockExecutor.view_new, set_apply]
  have hroot : ¬ some (account.hash c) = some Hash.default :=
    fun h ↦ account_ne_default (Option.some_inj.mp h)
  rw [readBack, Core.getAccount, if_neg hroot, hget, hview]
  by_cases hk : k = alice
  · rw [if_pos hk, if_pos hk, Run.mapErr_ok, Run.ok_bind, Run.okOr, Run.ok_bind, decoder]
    simp only [if_true]
    rfl
  · rw [if_neg hk, if_neg hk]
    rfl

theorem commits : ∃ r₂ tree₂ r tree,
    (BlockExecutor.after readBack tree' (some (account.hash c)) [.transaction toBob]).commitBlock m
        c .cached = (.ok r₂, tree₂) ∧
      (BlockExecutor.after readBack [] none
        ([.deposit deposit] ++ [.transaction toBob])).commitBlock m c .cached = (.ok r, tree) := by
  have hok : ∀ (ex : BlockExecutor MemTree), (ex.commitBlock m c .cached).1.isOk = true →
      ∃ r t, ex.commitBlock m c .cached = (.ok r, t) := by
    intro ex h
    rcases hcommit : ex.commitBlock m c .cached with ⟨_ | r, t⟩
    · rw [hcommit] at h
      exact absurd h (by simp [Except.isOk, Except.toBool])
    · exact ⟨r, t, rfl⟩
  -- One evaluation of the hashes serves both commits.
  have hboth : ((BlockExecutor.after readBack tree' (some (account.hash c))
        [.transaction toBob]).commitBlock m c .cached).1.isOk = true ∧
      ((BlockExecutor.after readBack [] none
        ([.deposit deposit] ++ [.transaction toBob])).commitBlock m c .cached).1.isOk = true := by
    decide +kernel
  obtain ⟨r₂, tree₂, hsecond⟩ := hok _ hboth.1
  obtain ⟨r, tree, honce⟩ := hok _ hboth.2
  exact ⟨r₂, tree₂, r, tree, hsecond, honce⟩

end Payment

open Payment FirstDeposit in
theorem cache_changes_nothing_toBob : ∃ r tree tree₂,
    (BlockExecutor.after readBack [] none
        ([.deposit deposit] ++ [.transaction toBob])).commitBlock m c .cached = (.ok r, tree) ∧
      (BlockExecutor.after readBack tree' (some (account.hash c))
        [.transaction toBob]).commitBlock m c .cached = (.ok r, tree₂) := by
  obtain ⟨r₂, tree₂, r, tree, hsecond, honce⟩ := commits
  have hstores : Stores (MemTree.sortedLaws c) c [] none fun _ ↦ none :=
    ⟨(MemTree.sortedLaws c).known_default [], (MemTree.sortedLaws c).leaf_default []⟩
  obtain ⟨rfl, -⟩ := cache_changes_nothing (MemTree.sortedLaws_noneIsEmpty c)
    (MemTree.sortedLaws_rootsDetermined c) hstores (MemTree.reads_none c decoder [])
    commitBlock_deposit reads_deposit hsecond honce
  exact ⟨r, tree, tree₂, honce, hsecond⟩

end TinyRollup
