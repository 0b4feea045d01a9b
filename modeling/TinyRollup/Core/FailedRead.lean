import TinyRollup.Core.Provable

/-!
# A recipient that cannot be read

A transfer stops at an error when it reads its sender, unless the sender is not found.  When it
reads its recipient it takes a new account for every error.  So an error of the recipient's read is
returned exactly if the transfer has stopped before, at the same error of its sender.
-/

set_option autoImplicit false

namespace TinyRollup

open ByteString Stf

/-- The sender and the recipient of a forced transaction or a transaction. -/
def Op.parties : Op → Option (Hash × Hash)
  | .deposit _ => none
  | .forced tx => some (tx.from_, tx.to_)
  | .transaction tx => some (tx.from_, tx.to_)

namespace BlockExecutor

section

variable {T : Type} {read : Reader T} {ex : BlockExecutor T} {from_ to_ : Hash} {e : CoreError}

/-- The result is the error, the two accounts are cached as before, and a commit writes nothing for
the recipient. -/
structure PassesOn (ex : BlockExecutor T) (from_ to_ : Hash) (e : CoreError)
    (result : Run CoreError Unit × BlockExecutor T) : Prop where
  error : result.1 = .error (.err e)
  sender : result.2.accountCache.lookup from_ = ex.accountCache.lookup from_
  recipient : result.2.accountCache.lookup to_ = ex.accountCache.lookup to_
  unwritten : ∀ order : IterOrder, to_ ∉ (order.entries result.2.accountCache).map Prod.fst

/-- What an executor that has not changed gives back. -/
theorem passesOn_self (hcache : ex.accountCache.lookup to_ = none) :
    ex.PassesOn from_ to_ e (.error (.err e), ex) where
  error := rfl
  sender := rfl
  recipient := rfl
  unwritten order hmem := by
    obtain ⟨⟨k, a⟩, ha, rfl⟩ := List.mem_map.mp hmem
    rw [order.mem_entries, hcache] at ha
    exact absurd ha (by simp)

/-- An account whose read fails is not cached, and the tree does not have it. -/
theorem getAccountHelper_failed {address : Hash} {halt : Halt CoreError}
    (h : (ex.getAccountHelper read address).1 = .error halt) :
    ex.accountCache.lookup address = none ∧ read ex.tree ex.root address = .error halt := by
  rcases getAccountHelper_cases read ex address with
    ⟨a, -, hget⟩ | ⟨a, -, -, hget⟩ | ⟨halt', hcache, hread, hget⟩
  · rw [hget] at h
    exact absurd h (by simp)
  · rw [hget] at h
    exact absurd h (by simp)
  · rw [hget] at h
    exact ⟨hcache, hread.trans h⟩

theorem getAccountHelper_of_uncached {address : Hash} {halt : Halt CoreError}
    (hcache : ex.accountCache.lookup address = none)
    (hread : read ex.tree ex.root address = .error halt) :
    ex.getAccountHelper read address = (.error halt, ex) := by
  rw [getAccountHelper, hcache, hread]

/-- With a sender that is found, the failed read of the recipient is no error. -/
theorem applyTransfer_of_found {a : Account} {ex₁ : BlockExecutor T}
    (hfrom : ex.getAccountHelper read from_ = (.ok a, ex₁))
    (hto : (ex.getAccountHelper read to_).1 = .error (.err e))
    (apply : Account → Account → Except StfError TransactionResult) :
    (ex.applyTransfer read from_ to_ apply).1 = .ok () := by
  obtain ⟨hcache, hread⟩ := getAccountHelper_failed hto
  have hfirst : ex₁.getAccountHelper read to_ = (.error (.err e), ex₁) := by
    rcases getAccountHelper_cases read ex from_ with
      ⟨b, -, hget⟩ | ⟨b, -, hok, hget⟩ | ⟨halt, -, -, hget⟩
    · obtain rfl := (Prod.mk.inj (hfrom.symm.trans hget)).2
      exact getAccountHelper_of_uncached hcache hread
    · obtain rfl := (Prod.mk.inj (hfrom.symm.trans hget)).2
      -- The sender is now cached; it is not the recipient, which cannot be read.
      have hne : to_ ≠ from_ := by
        rintro rfl
        exact absurd (hok.symm.trans hread) (by simp)
      refine getAccountHelper_of_uncached ?_ hread
      rw [lookup_cacheInsert, if_neg hne, hcache]
    · exact absurd (hfrom.symm.trans hget) (by simp)
  rw [applyTransfer, hfrom]
  simp only [hfirst, Run.unwrapOr]
  split <;> rfl

/-- A sender that is not found is skipped, and any other error of its read ends the transfer. -/
theorem applyTransfer_of_failed {halt : Halt CoreError}
    (hfrom : ex.getAccountHelper read from_ = (.error halt, ex)) (to_ : Hash)
    (apply : Account → Account → Except StfError TransactionResult) :
    ((∃ k, halt = .err (.accountNotFound k)) ∧
        ex.applyTransfer read from_ to_ apply = (.ok (), ex)) ∨
      ex.applyTransfer read from_ to_ apply = (.error halt, ex) := by
  rw [applyTransfer, hfrom]
  rcases halt with err | msg
  · cases err with
    | accountNotFound k => exact Or.inl ⟨⟨k, rfl⟩, rfl⟩
    | _ => exact Or.inr rfl
  · exact Or.inr rfl

/-- A transfer passes on the error of its recipient exactly if its sender has the same. -/
theorem applyTransfer_passesOn_iff (hto : (ex.getAccountHelper read to_).1 = .error (.err e))
    (he : ∀ k, e ≠ .accountNotFound k)
    (apply : Account → Account → Except StfError TransactionResult) :
    ex.PassesOn from_ to_ e (ex.applyTransfer read from_ to_ apply) ↔
      ex.accountCache.lookup from_ = none ∧ read ex.tree ex.root from_ = .error (.err e) := by
  constructor
  · intro h
    have herror := h.error
    rcases getAccountHelper_cases read ex from_ with
      ⟨a, -, hget⟩ | ⟨a, -, -, hget⟩ | ⟨halt, hcache, hread, hget⟩
    · exact absurd (herror.symm.trans (applyTransfer_of_found hget hto apply)) (by simp)
    · exact absurd (herror.symm.trans (applyTransfer_of_found hget hto apply)) (by simp)
    · rcases applyTransfer_of_failed hget to_ apply with ⟨-, heq⟩ | heq
      · rw [heq] at herror
        exact absurd herror (by simp)
      · rw [heq] at herror
        exact ⟨hcache, hread.trans (congrArg Except.error (Except.error.inj herror))⟩
  · rintro ⟨hcache, hread⟩
    have hfrom := getAccountHelper_of_uncached hcache hread
    rcases applyTransfer_of_failed hfrom to_ apply with ⟨⟨k, hk⟩, -⟩ | heq
    · exact absurd (Halt.err.inj hk) (he k)
    · rw [heq]
      exact passesOn_self (getAccountHelper_failed hto).1

/-- **When a failed read is passed on.**  Of a transaction or a forced transaction whose recipient
cannot be read: the executor returns that error and leaves both accounts as they are exactly if the
sender is not in the cache and cannot be read either, for the same reason. -/
theorem failed_read_passedOn_iff {op : Op} (hop : op.parties = some (from_, to_))
    (hto : (ex.getAccountHelper read to_).1 = .error (.err e)) (he : ∀ k, e ≠ .accountNotFound k) :
    ex.PassesOn from_ to_ e (ex.applyOp read op) ↔
      ¬ op.Dummy ∧ ex.accountCache.lookup from_ = none ∧
        read ex.tree ex.root from_ = .error (.err e) := by
  cases op with
  | deposit d => exact absurd hop (by simp [Op.parties])
  | forced tx =>
    obtain ⟨rfl, rfl⟩ := Prod.mk.inj (Option.some_inj.mp hop)
    rw [applyOp, applyForcedTx]
    split
    · rename_i hdummy
      exact iff_of_false (fun h ↦ absurd h.error (by simp)) fun h ↦ h.1 ⟨tx, rfl, hdummy⟩
    · rename_i hreal
      rw [applyTransfer_passesOn_iff hto he]
      refine (and_iff_right ?_).symm
      rintro ⟨tx', heq, hdummy⟩
      exact hreal (Op.forced.inj heq ▸ hdummy)
  | transaction tx =>
    obtain ⟨rfl, rfl⟩ := Prod.mk.inj (Option.some_inj.mp hop)
    rw [applyOp, applyTransaction, applyTransfer_passesOn_iff hto he]
    refine (and_iff_right ?_).symm
    rintro ⟨tx', heq, -⟩
    exact absurd heq (by simp)

end

end BlockExecutor

/-! ## An account that is overwritten

The tree has Alice's account.  A block deposits 10 to Bob, and then Bob pays 1 to Alice. -/

namespace FirstDeposit

def bob : Hash := Hash.ofByte 2

def toBob : Deposit := { to_ := bob, amount := 10, timestamp := 0 }

def toAlice : Transaction := { from_ := bob, to_ := alice, nonce := 0, fee := 0, amount := 1 }

def toSelf : Transaction := { from_ := alice, to_ := alice, nonce := 0, fee := 0, amount := 1 }

abbrev next : BlockExecutor MemTree := BlockExecutor.new tree' (some (account.hash c))

theorem alice_corrupted :
    ((next.applyOp read (.deposit toBob)).2.getAccountHelper read alice).1
      = .error (.err (.accountDataCorrupted alice)) := by
  decide +kernel

theorem alice_fresh :
    ((next.applyOp read (.deposit toBob)).2.applyOp read (.transaction toAlice)).1 = .ok () ∧
      ((next.applyOp read (.deposit toBob)).2.applyOp read
        (.transaction toAlice)).2.accountCache.lookup alice
          = some { id := alice, balance := 1, nonce := 0 } := by
  decide +kernel

end FirstDeposit

open FirstDeposit in
/-- Alice's account with 10 cannot be read, and in the cache is a new one with 1. -/
theorem recipient_overwritten :
    (next.applyOp read (.deposit toBob)).1 = .ok () ∧
      ((next.applyOp read (.deposit toBob)).2.getAccountHelper read alice).1
        = .error (.err (.accountDataCorrupted alice)) ∧
      ((next.applyOp read (.deposit toBob)).2.applyOp read (.transaction toAlice)).1 = .ok () ∧
      ((next.applyOp read (.deposit toBob)).2.applyOp read
        (.transaction toAlice)).2.accountCache.lookup alice
          = some { id := alice, balance := 1, nonce := 0 } ∧
      ¬ (next.applyOp read (.deposit toBob)).2.PassesOn bob alice (.accountDataCorrupted alice)
        ((next.applyOp read (.deposit toBob)).2.applyOp read (.transaction toAlice)) := by
  have hdeposit : (next.applyOp read (.deposit toBob)).1 = .ok () := by decide +kernel
  obtain ⟨hok, hcached⟩ := alice_fresh
  refine ⟨hdeposit, alice_corrupted, hok, hcached, fun h ↦ ?_⟩
  exact absurd (h.error.symm.trans hok) (by simp)

open FirstDeposit in
theorem failed_read_passedOn_iff_toSelf :
    next.PassesOn alice alice (.accountDataCorrupted alice)
      (next.applyOp read (.transaction toSelf)) := by
  have hread : read next.tree next.root alice = .error (.err (.accountDataCorrupted alice)) := by
    decide +kernel
  have hhelper := BlockExecutor.getAccountHelper_of_uncached
    (BlockExecutor.fresh_new tree' (some (account.hash c)) alice) hread
  have hop : (Op.transaction toSelf).parties = some (alice, alice) := rfl
  refine (BlockExecutor.failed_read_passedOn_iff hop (congrArg Prod.fst hhelper) (by simp)).mpr
    ⟨?_, rfl, hread⟩
  rintro ⟨tx, heq, -⟩
  exact absurd heq (by simp)

end TinyRollup
