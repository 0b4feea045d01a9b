import TinyRollup.Core.Monotree

/-!
# Reading accounts back

`commit_block` writes the hash of an account where `get_account` expects the account, and 32 bytes
are too few for one.  So a present account cannot be read: `getAccount_barren`.  An executor then
caches nothing until it applies a deposit to an account that is not there, and what it has cached by
the time it commits cannot be read from the new root.
-/

set_option autoImplicit false

namespace TinyRollup

open ByteString Stf

/-- The account is not there. -/
def NotFound {T : Type} (read : Reader T) (tree : T) (root : Option Hash) (k : Hash) : Prop :=
  read tree root k = Run.err (.accountNotFound k)

/-- Reading finds no account: none is there, or it fails. -/
def Barren {T : Type} (read : Reader T) : Prop :=
  ∀ tree root k, NotFound read tree root k ∨
    ∃ e, read tree root k = .error e ∧ ∀ k', e ≠ .err (.accountNotFound k')

/-- Bytes too few for an account are not decoded. -/
def Bincode.RefusesShort (bincode : Bincode) : Prop :=
  ∀ b : Bytes, b.length < 48 → bincode.account b = none

theorem Bincode.v1_refusesShort : Bincode.v1.RefusesShort := fun _ h ↦ Bincode.account_eq_none h

/-- **No account is read back**: a leaf is a hash, too short to be decoded. -/
theorem getAccount_barren {T : Type} (m : Monotree T) {bincode : Bincode}
    (hshort : bincode.RefusesShort) : Barren (Core.getAccount m bincode) := by
  intro tree root k
  rw [NotFound, Core.getAccount]
  split
  · exact Or.inl rfl
  · rcases m.get tree root k with (e | msg) | leaf
    · exact Or.inr ⟨_, rfl, fun k' h ↦ by simp at h⟩
    · exact Or.inr ⟨_, rfl, fun k' h ↦ by simp at h⟩
    · cases leaf with
      | none => exact Or.inl rfl
      | some h =>
        have hnone : bincode.account h.toList = none := hshort h.toList (by simp)
        refine Or.inr ⟨.err (.accountDataCorrupted k), ?_, fun k' h ↦ by simp at h⟩
        rw [Run.mapErr_ok, Run.ok_bind, Run.okOr, Run.ok_bind, hnone]
        rfl

theorem Barren.ne_ok {T : Type} {read : Reader T} (h : Barren read) (tree : T)
    (root : Option Hash) (k : Hash) (a : Account) : read tree root k ≠ .ok a := by
  intro hok
  rcases h tree root k with hnot | ⟨e, he, -⟩
  · exact absurd (hok.symm.trans hnot) (by simp [Run.err])
  · exact absurd (hok.symm.trans he) (by simp)

namespace BlockExecutor

variable {T : Type} {read : Reader T} {ex : BlockExecutor T}

/-! ## The cache only grows -/

/-- The second executor started like the first and has cached at least as much. -/
structure Grows (ex ex' : BlockExecutor T) : Prop where
  tree : ex'.tree = ex.tree
  root : ex'.root = ex.root
  cached : ∀ k, ex.accountCache.lookup k ≠ none → ex'.accountCache.lookup k ≠ none

theorem Grows.refl (ex : BlockExecutor T) : Grows ex ex := ⟨rfl, rfl, fun _ h ↦ h⟩

theorem Grows.trans {ex ex' ex'' : BlockExecutor T} (h : Grows ex ex') (h' : Grows ex' ex'') :
    Grows ex ex'' :=
  ⟨h'.tree.trans h.tree, h'.root.trans h.root, fun k hk ↦ h'.cached k (h.cached k hk)⟩

theorem grows_cacheInsert (ex : BlockExecutor T) (key : Hash) (a : Account) :
    Grows ex (ex.cacheInsert key a) := by
  refine ⟨rfl, rfl, fun k hk ↦ ?_⟩
  rw [lookup_cacheInsert]
  split
  · simp
  · exact hk

theorem grows_getAccountHelper (read : Reader T) (ex : BlockExecutor T) (address : Hash) :
    Grows ex (ex.getAccountHelper read address).2 := by
  rcases getAccountHelper_cases read ex address with
    ⟨a, -, h⟩ | ⟨a, -, -, h⟩ | ⟨e, -, -, h⟩
  · rw [h]
    exact Grows.refl ex
  · rw [h]
    exact grows_cacheInsert ex address a
  · rw [h]
    exact Grows.refl ex

theorem grows_applyDeposit (read : Reader T) (ex : BlockExecutor T) (d : Deposit) :
    Grows ex (ex.applyDeposit read d).2 := by
  have hget := grows_getAccountHelper read ex d.to_
  rw [applyDeposit]
  simp only
  split
  · exact hget
  · split
    · exact hget.trans (grows_cacheInsert _ _ _)
    · exact hget
    · exact hget

theorem grows_applyTransfer (read : Reader T) (ex : BlockExecutor T) (from_ to_ : Hash)
    (apply : Account → Account → Except StfError TransactionResult) :
    Grows ex (ex.applyTransfer read from_ to_ apply).2 := by
  have hfrom := grows_getAccountHelper read ex from_
  rw [applyTransfer]
  split
  · rename_i h
    rwa [h] at hfrom
  · rename_i h
    rwa [h] at hfrom
  · rename_i ex₁ h
    rw [h] at hfrom
    have hto := hfrom.trans (grows_getAccountHelper read ex₁ to_)
    simp only
    split
    · exact hto
    · split
      · rw [updateCacheSuccess]
        split
        · exact hto.trans (grows_cacheInsert _ _ _)
        · exact (hto.trans (grows_cacheInsert _ _ _)).trans (grows_cacheInsert _ _ _)
      · exact hto.trans (grows_cacheInsert _ _ _)
      · exact hto

theorem grows_applyOp (read : Reader T) (ex : BlockExecutor T) (op : Op) :
    Grows ex (ex.applyOp read op).2 := by
  cases op with
  | deposit d => exact grows_applyDeposit read ex d
  | forced tx =>
    rw [applyOp, applyForcedTx]
    split
    · exact Grows.refl ex
    · exact grows_applyTransfer read ex _ _ _
  | transaction tx => exact grows_applyTransfer read ex _ _ _

/-! ## An empty cache -/

/-- Nothing is cached. -/
def Fresh (ex : BlockExecutor T) : Prop := ∀ k, ex.accountCache.lookup k = none

theorem fresh_new (tree : T) (root : Option Hash) : (new tree root).Fresh := fun _ ↦ rfl

theorem Fresh.getAccountHelper (hfresh : ex.Fresh) (h : Barren read) (address : Hash) :
    ex.getAccountHelper read address = (read ex.tree ex.root address, ex) := by
  rcases getAccountHelper_cases read ex address with
    ⟨a, hcache, -⟩ | ⟨a, -, hread, -⟩ | ⟨e, -, hread, hget⟩
  · rw [hfresh address] at hcache
    exact absurd hcache (by simp)
  · exact absurd hread (h.ne_ok _ _ _ _)
  · rw [hget, hread]

/-- A deposit to an account that is not there opens it. -/
theorem Fresh.applyDeposit_of_notFound (hfresh : ex.Fresh) (h : Barren read) {d : Deposit}
    (hnot : NotFound read ex.tree ex.root d.to_) :
    ex.applyDeposit read d
      = (.ok (), ex.cacheInsert d.to_ { id := d.to_, balance := 0 + d.amount, nonce := 0 }) := by
  rw [applyDeposit, hfresh.getAccountHelper h, hnot]
  simp only [Run.err, Core.orNew, applyDeposit_new]

theorem Fresh.applyDeposit_of_found (hfresh : ex.Fresh) (h : Barren read) {d : Deposit}
    (hfound : ¬ NotFound read ex.tree ex.root d.to_) :
    ∃ e, ex.applyDeposit read d = (.error e, ex) := by
  obtain ⟨e, he, hne⟩ := (h ex.tree ex.root d.to_).resolve_left hfound
  rw [applyDeposit, hfresh.getAccountHelper h, he]
  rcases e with err | msg
  · cases err with
    | accountNotFound k => exact absurd rfl (hne k)
    | _ => exact ⟨_, rfl⟩
  · exact ⟨_, rfl⟩

/-- A transfer finds no sender: it is skipped if none is there, and fails otherwise. -/
theorem Fresh.applyTransfer (hfresh : ex.Fresh) (h : Barren read) (from_ to_ : Hash)
    (apply : Account → Account → Except StfError TransactionResult) :
    (NotFound read ex.tree ex.root from_ ∧
        ex.applyTransfer read from_ to_ apply = (.ok (), ex)) ∨
      ∃ e, ex.applyTransfer read from_ to_ apply = (.error e, ex) := by
  rw [BlockExecutor.applyTransfer, hfresh.getAccountHelper h]
  rcases h ex.tree ex.root from_ with hnot | ⟨e, he, hne⟩
  · rw [hnot]
    exact Or.inl ⟨hnot, rfl⟩
  · rw [he]
    rcases e with err | msg
    · cases err with
      | accountNotFound k => exact absurd rfl (hne k)
      | _ => exact Or.inr ⟨_, rfl⟩
    · exact Or.inr ⟨_, rfl⟩

/-- The operation opens an account that is not there. -/
def Opens (read : Reader T) (tree : T) (root : Option Hash) (op : Op) : Prop :=
  ∃ d, op = .deposit d ∧ NotFound read tree root d.to_

theorem Fresh.applyOp_of_opens (hfresh : ex.Fresh) (h : Barren read) {op : Op}
    (hop : Opens read ex.tree ex.root op) : ¬ (ex.applyOp read op).2.Fresh := by
  obtain ⟨d, rfl, hnot⟩ := hop
  intro hfresh'
  have hlookup := hfresh' d.to_
  rw [applyOp, hfresh.applyDeposit_of_notFound h hnot, lookup_cacheInsert, if_pos rfl] at hlookup
  exact absurd hlookup (by simp)

theorem Fresh.applyOp_of_not_opens (hfresh : ex.Fresh) (h : Barren read) {op : Op}
    (hop : ¬ Opens read ex.tree ex.root op) : (ex.applyOp read op).2 = ex := by
  cases op with
  | deposit d =>
    obtain ⟨e, he⟩ := hfresh.applyDeposit_of_found h (d := d) fun hnot ↦ hop ⟨d, rfl, hnot⟩
    rw [applyOp, he]
  | forced tx =>
    rw [applyOp, applyForcedTx]
    split
    · rfl
    · rcases hfresh.applyTransfer h tx.from_ tx.to_ (fun a b ↦ Stf.applyForcedTx a b tx) with
        ⟨-, heq⟩ | ⟨e, heq⟩
      · rw [heq]
      · rw [heq]
  | transaction tx =>
    rw [applyOp, applyTransaction]
    rcases hfresh.applyTransfer h tx.from_ tx.to_ (fun a b ↦ Stf.applyTransaction a b tx) with
      ⟨-, heq⟩ | ⟨e, heq⟩
    · rw [heq]
    · rw [heq]

/-! ## Any sequence of calls -/

/-- The executor after a sequence of calls; an error does not stop the caller, a panic does. -/
def applyAll (read : Reader T) (ex : BlockExecutor T) : List Op → Option (BlockExecutor T)
  | [] => some ex
  | op :: ops =>
    match ex.applyOp read op with
    | (.error (.panic _), _) => none
    | (_, ex') => applyAll read ex' ops

theorem applyAll_cons {op : Op} {ops : List Op} {ex' : BlockExecutor T}
    (h : ex.applyAll read (op :: ops) = some ex') :
    (ex.applyOp read op).2.applyAll read ops = some ex' := by
  rw [applyAll] at h
  split at h
  · exact absurd h (by simp)
  · rename_i heq
    rw [heq]
    exact h

theorem grows_applyAll {ops : List Op} {ex ex' : BlockExecutor T}
    (h : ex.applyAll read ops = some ex') : Grows ex ex' := by
  induction ops generalizing ex with
  | nil =>
    obtain rfl := Option.some_inj.mp h
    exact Grows.refl ex
  | cons op ops ih => exact (grows_applyOp read ex op).trans (ih (applyAll_cons h))

/-- The cache is still empty exactly if no deposit opened an account. -/
theorem Fresh.applyAll_iff {ops : List Op} {ex ex' : BlockExecutor T} (hfresh : ex.Fresh)
    (h : Barren read) (hcalls : ex.applyAll read ops = some ex') :
    ex'.Fresh ↔ ∀ op ∈ ops, ¬ Opens read ex.tree ex.root op := by
  induction ops generalizing ex with
  | nil =>
    obtain rfl := Option.some_inj.mp hcalls
    exact iff_of_true hfresh (by simp)
  | cons op ops ih =>
    rw [List.forall_mem_cons]
    by_cases hop : Opens read ex.tree ex.root op
    · refine iff_of_false (fun hfresh' ↦ ?_) (fun hnone ↦ hnone.1 hop)
      refine hfresh.applyOp_of_opens h hop fun k ↦ ?_
      by_contra hk
      exact (grows_applyAll (applyAll_cons hcalls)).cached k hk (hfresh' k)
    · have hcalls' := applyAll_cons hcalls
      rw [hfresh.applyOp_of_not_opens h hop] at hcalls'
      rw [ih hfresh hcalls']
      exact (and_iff_right hop).symm

end BlockExecutor

/-- The accounts in the cache are the ones read at the new root. -/
def ReadsBack {T : Type} (read : Reader T) (ex : BlockExecutor T) (tree' : T) (r' : Hash) : Prop :=
  ∀ address account, ex.accountCache.lookup address = some account →
    read tree' (some r') address = .ok account

/-- **Committed accounts are read back exactly when there are none**, that is, when no deposit was
made to an account that was not there.  This is so at every tree and root, so at those that
`commit_block` arrives at. -/
theorem readsBack_iff {T : Type} {m : Monotree T} {bincode : Bincode} {tree tree' : T}
    {root : Option Hash} {r' : Hash} {ops : List Op} {ex : BlockExecutor T}
    (hshort : bincode.RefusesShort)
    (hcalls : (BlockExecutor.new tree root).applyAll (Core.getAccount m bincode) ops = some ex) :
    ReadsBack (Core.getAccount m bincode) ex tree' r' ↔
      ∀ d, Op.deposit d ∈ ops → ¬ NotFound (Core.getAccount m bincode) tree root d.to_ := by
  have hbarren := getAccount_barren m hshort
  have hreadsBack : ReadsBack (Core.getAccount m bincode) ex tree' r' ↔ ex.Fresh := by
    constructor
    · intro h k
      rw [Option.eq_none_iff_forall_ne_some]
      intro a ha
      exact hbarren.ne_ok _ _ _ _ (h k a ha)
    · intro hfresh k a ha
      rw [hfresh k] at ha
      exact absurd ha (by simp)
  rw [hreadsBack, (BlockExecutor.fresh_new tree root).applyAll_iff hbarren hcalls]
  constructor
  · intro h d hd hnot
    exact h _ hd ⟨d, rfl, hnot⟩
  · rintro h op hop ⟨d, rfl, hnot⟩
    exact h d hop hnot

/-! ## An account that is lost

A first deposit of 10 into an empty tree, which has no root. -/

namespace FirstDeposit

abbrev c : Crypto := Crypto.sha3Crate

abbrev read : Reader MemTree := Core.getAccount (MemTree.monotree c) Bincode.v1

abbrev start : BlockExecutor MemTree := BlockExecutor.new [] none

def alice : Hash := Hash.ofByte 1

def deposit : Deposit := { to_ := alice, amount := 10, timestamp := 0 }

def account : Account := { id := alice, balance := 10, nonce := 0 }

def tree' : MemTree := [(account.hash c, [(alice, account.hash c)])]

theorem applyAll_eq :
    start.applyAll read [.deposit deposit] = some (start.cacheInsert alice account) := rfl

theorem commitBlock_eq : (start.cacheInsert alice account).commitBlock (MemTree.monotree c) c
    IterOrder.cached = (.ok (account.hash c), tree') := by
  decide +kernel

end FirstDeposit

open FirstDeposit in
/-- Alice's account is cached, the block is committed, and reading it at the new root fails. -/
theorem firstDeposit_lost :
    start.applyAll read [.deposit deposit] = some (start.cacheInsert alice account) ∧
      (start.cacheInsert alice account).commitBlock (MemTree.monotree c) c IterOrder.cached
        = (.ok (account.hash c), tree') ∧
      (start.cacheInsert alice account).accountCache.lookup alice = some account ∧
      read tree' (some (account.hash c)) alice = Run.err (.accountDataCorrupted alice) ∧
      ¬ ReadsBack read (start.cacheInsert alice account) tree' (account.hash c) := by
  have hread : read tree' (some (account.hash c)) alice
      = Run.err (.accountDataCorrupted alice) := by
    decide +kernel
  refine ⟨applyAll_eq, commitBlock_eq, rfl, hread, fun h ↦ ?_⟩
  exact absurd (hread.symm.trans (h alice account rfl)) (by simp [Run.err])

open FirstDeposit in
theorem readsBack_iff_firstDeposit :
    (start.cacheInsert alice account).commitBlock (MemTree.monotree c) c IterOrder.cached
        = (.ok (account.hash c), tree') ∧
      (ReadsBack read (start.cacheInsert alice account) tree' (account.hash c) ↔
        ∀ d, Op.deposit d ∈ [Op.deposit deposit] → ¬ NotFound read [] none d.to_) :=
  ⟨commitBlock_eq, readsBack_iff Bincode.v1_refusesShort applyAll_eq⟩

end TinyRollup
