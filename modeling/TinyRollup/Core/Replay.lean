import TinyRollup.Core.Conservation

/-!
# No replay

Over any sequence of batches, at most one transaction with a given sender and nonce should change an
account.  This follows if each one that changes an account leaves the nonce of its sender behind,
because nonces then never go down (`NonceLe`).  `Op.consumes_iff` says when one does: always, except
for a transfer from an account to itself, which keeps the recipient and so the old nonce, and for
the largest nonce, which wraps.
-/

set_option autoImplicit false

namespace TinyRollup

open ByteString Stf AccountMap
open UInt64 (Fits)

/-- The sender and the nonce of a transaction. -/
def Op.origin : Op → Option (Hash × UInt64)
  | .deposit _ => none
  | .forced tx => some (tx.from_, tx.nonce)
  | .transaction tx => some (tx.from_, tx.nonce)

/-- The operation changed an account. -/
def Applied.Changes (x : Applied) : Prop := x.after ≠ x.before

/-- The operation, if it changed an account as a sender, left the stored nonce of the sender
strictly larger than its own. -/
def Applied.Consumes (x : Applied) : Prop :=
  x.Changes → ∀ sender nonce, x.op.origin = some (sender, nonce) →
    ∃ a, x.after sender = some a ∧ nonce < a.nonce

/-- Of the operations with one sender and one nonce at most one changes an account. -/
def NoReplay (xs : List Applied) : Prop :=
  xs.Pairwise fun x y ↦ ∀ origin, x.op.origin = some origin → y.op.origin = some origin →
    x.Changes → ¬ y.Changes

/-- A transfer that changes an account and can be repeated. -/
def Op.Replayable (op : Op) (s : AccountMap) : Prop :=
  ∃ t a, op.transfer = some t ∧
    ((t.Executes s a ∧ t.from_ = t.to_ ∧ t.amount ≠ 0) ∨
      (¬ Fits (a.nonce.toNat + 1) ∧ (t.Charges s a ∨ (t.Executes s a ∧ t.from_ ≠ t.to_))))

/-- Batches that the executor has run one after the other.  Each of them reads the accounts as the
one before it has committed them. -/
inductive Batches {T : Type} (read : Reader T) : AccountMap → List Applied → AccountMap → Prop
  | nil (s : AccountMap) : Batches read s [] s
  | batch {s s' : AccountMap} {xs : List Applied} {tree : T} {root : Option Hash}
      {ex : BlockExecutor T} (ops : List Op) (hread : Reads read tree root s)
      (hops : (BlockExecutor.new tree root).applyOps read ops = (.ok (), ex))
      (hrest : Batches read (ex.view s) xs s') :
      Batches read s ((BlockExecutor.new tree root).trace read s ops ++ xs) s'

theorem Batches.ledgerRun {T : Type} {read : Reader T} {s s' : AccountMap} {xs : List Applied}
    (h : Batches read s xs s') : LedgerRun s xs s' := by
  induction h with
  | nil s => exact LedgerRun.nil s
  | @batch s s' xs tree root ex ops hread hops _ ih =>
    obtain ⟨ex', hops', hrun⟩ :=
      BlockExecutor.applyOps_refines (BlockExecutor.new tree root) ops hread
    rw [hops] at hops'
    obtain rfl := (Prod.mk.inj hops').2
    exact hrun.append ih

/-! ## One operation -/

theorem Op.origin_of_transfer {op : Op} {t : Transfer} (h : op.transfer = some t) :
    op.origin = some (t.from_, t.nonce) := by
  obtain ⟨tx, rfl, -, rfl⟩ | ⟨tx, rfl, rfl⟩ := Op.transfer_eq_some h
  · rfl
  · rfl

/-- A transaction that asks for no transfer is a dummy and changes nothing. -/
theorem Op.apply_of_origin {op : Op} {origin : Hash × UInt64} {s : AccountMap}
    (horigin : op.origin = some origin) (h : op.transfer = none) : op.apply s = s := by
  cases op with
  | deposit d => exact absurd horigin (by simp [Op.origin])
  | forced tx => rw [Op.apply, h, Option.elim_none]
  | transaction tx => exact absurd h (by simp [Op.transfer])

/-- An executed transfer leaves its sender debited, unless the recipient is the same account. -/
theorem Transfer.Executes.apply_from {t : Transfer} {s : AccountMap} {a : Account}
    (h : t.Executes s a) :
    s.applyTransfer t t.from_ = some
      (if t.from_ = t.to_ then credited a t.amount else debited a t.fee t.amount) := by
  rw [h.apply]
  split
  · rename_i heq
    rw [← heq, set_self, getOrNew, h.found, Option.getD_some]
  · rename_i hne
    rw [set_ne _ hne, set_self]

theorem applyTransfer_ne {t : Transfer} {s : AccountMap} (h : s.applyTransfer t ≠ s) :
    ∃ a, t.Executes s a ∨ t.Charges s a := by
  by_contra hnone
  rw [not_exists] at hnone
  exact h (applyTransfer_of_neither (fun a ha ↦ hnone a (Or.inl ha))
    (fun a ha ↦ hnone a (Or.inr ha)))

/-- A transfer that raises the nonce of its sender changes an account. -/
theorem ne_of_nonce {s s' : AccountMap} {k : Hash} {a b : Account} (ha : s k = some a)
    (hb : s' k = some b) (h : b.nonce = a.nonce + 1) : s' ≠ s := by
  rintro rfl
  obtain rfl := Option.some_inj.mp (ha.symm.trans hb)
  exact UInt64.add_one_ne _ h.symm

theorem Transfer.consumes_iff (t : Transfer) (s : AccountMap) :
    (s.applyTransfer t ≠ s → ∃ a, s.applyTransfer t t.from_ = some a ∧ t.nonce < a.nonce) ↔
      ¬ ∃ a, (t.Executes s a ∧ t.from_ = t.to_ ∧ t.amount ≠ 0) ∨
        (¬ Fits (a.nonce.toNat + 1) ∧ (t.Charges s a ∨ (t.Executes s a ∧ t.from_ ≠ t.to_))) := by
  constructor
  · rintro h ⟨a, ⟨hex, heq, hamount⟩ | ⟨hmax, hch | ⟨hex, hne⟩⟩⟩
    · have hfrom := hex.apply_from
      rw [if_pos heq] at hfrom
      have hchanged : s.applyTransfer t ≠ s := by
        intro hsame
        rw [hsame, hex.found] at hfrom
        have hbal := congrArg (fun b : Account ↦ b.balance.toNat) (Option.some_inj.mp hfrom)
        have hfits := hex.fits
        rw [getOrNew, ← heq, hex.found, Option.getD_some] at hfits
        rw [credited_balance hfits] at hbal
        exact hamount (UInt64.toNat_inj.mp (by simpa using hbal))
      obtain ⟨b, hb, hlt⟩ := h hchanged
      obtain rfl := Option.some_inj.mp (hfrom.symm.trans hb)
      rw [credited_nonce, hex.nonce] at hlt
      exact UInt64.lt_irrefl _ hlt
    · have hfrom : s.applyTransfer t t.from_ = some (charged a t.fee) := by
        rw [hch.apply, set_self]
      obtain ⟨b, hb, hlt⟩ := h (ne_of_nonce hch.found hfrom rfl)
      obtain rfl := Option.some_inj.mp (hfrom.symm.trans hb)
      rw [charged_nonce, ← hch.nonce, UInt64.lt_add_one_iff] at hlt
      exact hmax hlt
    · have hfrom := hex.apply_from
      rw [if_neg hne] at hfrom
      obtain ⟨b, hb, hlt⟩ := h (ne_of_nonce hex.found hfrom rfl)
      obtain rfl := Option.some_inj.mp (hfrom.symm.trans hb)
      rw [debited_nonce, ← hex.nonce, UInt64.lt_add_one_iff] at hlt
      exact hmax hlt
  · intro hsafe hchanged
    obtain ⟨a, hex | hch⟩ := applyTransfer_ne hchanged
    · have hfrom := hex.apply_from
      by_cases heq : t.from_ = t.to_
      · -- The amount is zero, so the transfer to itself puts back the account it found.
        have hzero : t.amount = 0 := by
          by_contra hamount
          exact hsafe ⟨a, Or.inl ⟨hex, heq, hamount⟩⟩
        have hput : credited (s.getOrNew t.to_) t.amount = a := by
          rw [credited, getOrNew, ← heq, hex.found, Option.getD_some, hzero, UInt64.add_zero]
        rw [hex.apply, hput, ← heq, set_set, set_eq_self hex.found] at hchanged
        exact absurd rfl hchanged
      · rw [if_neg heq] at hfrom
        refine ⟨_, hfrom, ?_⟩
        rw [debited_nonce, ← hex.nonce, UInt64.lt_add_one_iff]
        by_contra hmax
        exact hsafe ⟨a, Or.inr ⟨hmax, Or.inr ⟨hex, heq⟩⟩⟩
    · refine ⟨charged a t.fee, by rw [hch.apply, set_self], ?_⟩
      rw [charged_nonce, ← hch.nonce, UInt64.lt_add_one_iff]
      by_contra hmax
      exact hsafe ⟨a, Or.inr ⟨hmax, Or.inl hch⟩⟩

/-- One operation consumes its nonce exactly when it cannot be repeated. -/
theorem Op.consumes_iff (op : Op) (s : AccountMap) :
    Applied.Consumes ⟨s, op, op.apply s⟩ ↔ ¬ op.Replayable s := by
  cases htransfer : op.transfer with
  | none =>
    refine iff_of_true ?_ ?_
    · intro hchanges sender nonce horigin
      exact absurd (Op.apply_of_origin horigin htransfer) hchanges
    · rintro ⟨t, a, ht, -⟩
      rw [htransfer] at ht
      exact absurd ht (by simp)
  | some t =>
    have hreplayable : op.Replayable s ↔
        ∃ a, (t.Executes s a ∧ t.from_ = t.to_ ∧ t.amount ≠ 0) ∨
          (¬ Fits (a.nonce.toNat + 1) ∧
            (t.Charges s a ∨ (t.Executes s a ∧ t.from_ ≠ t.to_))) := by
      constructor
      · rintro ⟨u, a, hu, ha⟩
        obtain rfl := Option.some_inj.mp (htransfer.symm.trans hu)
        exact ⟨a, ha⟩
      · rintro ⟨a, ha⟩
        exact ⟨t, a, htransfer, ha⟩
    rw [hreplayable, ← t.consumes_iff s, Applied.Consumes, Applied.Changes]
    simp only [Op.apply_of_transfer htransfer, Op.origin_of_transfer htransfer]
    constructor
    · intro h hchanges
      exact h hchanges _ _ rfl
    · intro h hchanges sender nonce horigin
      obtain ⟨rfl, rfl⟩ := Prod.mk.inj (Option.some_inj.mp horigin)
      exact h hchanges

/-! ## Nonces never go down -/

/-- Every account is still there, with a nonce at least as large. -/
def NonceLe (s s' : AccountMap) : Prop :=
  ∀ k a, s k = some a → ∃ a', s' k = some a' ∧ a.nonce ≤ a'.nonce

theorem NonceLe.refl (s : AccountMap) : NonceLe s s := fun _ a ha ↦ ⟨a, ha, UInt64.le_refl _⟩

theorem NonceLe.trans {s t u : AccountMap} (hst : NonceLe s t) (htu : NonceLe t u) :
    NonceLe s u := by
  intro k a ha
  obtain ⟨b, hb, hab⟩ := hst k a ha
  obtain ⟨d, hd, hbd⟩ := htu k b hb
  exact ⟨d, hd, UInt64.le_trans hab hbd⟩

/-- Writing an account whose nonce is not below the stored one. -/
theorem nonceLe_set {s : AccountMap} {k : Hash} {b : Account}
    (h : ∀ a, s k = some a → a.nonce ≤ b.nonce) : NonceLe s (s.set k b) := by
  intro k' a ha
  rw [set_apply]
  split
  · rename_i heq
    exact ⟨b, rfl, h a (heq ▸ ha)⟩
  · exact ⟨a, ha, UInt64.le_refl _⟩

theorem getOrNew_nonce_le {s : AccountMap} {k : Hash} {a : Account} (h : s k = some a) :
    a.nonce ≤ (s.getOrNew k).nonce := by
  rw [getOrNew, h, Option.getD_some]
  exact UInt64.le_refl _

theorem Op.nonceLe (op : Op) {s : AccountMap} (h : ¬ op.Replayable s) : NonceLe s (op.apply s) := by
  cases htransfer : op.transfer with
  | none =>
    cases op with
    | deposit d =>
      rw [Op.apply, AccountMap.applyDeposit]
      cases ha : Stf.applyDeposit (s.getOrNew d.to_) d with
      | error e => exact NonceLe.refl s
      | ok a =>
        obtain ⟨-, rfl⟩ := applyDeposit_eq_ok_iff.mp ha
        exact nonceLe_set fun a ha ↦ getOrNew_nonce_le ha
    | forced tx =>
      rw [Op.apply, htransfer, Option.elim_none]
      exact NonceLe.refl s
    | transaction tx => exact absurd htransfer (by simp [Op.transfer])
  | some t =>
    rw [Op.apply_of_transfer htransfer]
    have hle : ∀ {a : Account}, Fits (a.nonce.toNat + 1) → a.nonce ≤ a.nonce + 1 :=
      fun hfits ↦ UInt64.le_of_lt (UInt64.lt_add_one_iff.mpr hfits)
    by_cases hsame : s.applyTransfer t = s
    · rw [hsame]
      exact NonceLe.refl s
    obtain ⟨a, hex | hch⟩ := applyTransfer_ne hsame
    · by_cases heq : t.from_ = t.to_
      · rw [hex.apply, heq, set_set]
        exact nonceLe_set fun b hb ↦ getOrNew_nonce_le hb
      · have hfits : Fits (a.nonce.toNat + 1) := by
          by_contra hmax
          exact h ⟨t, a, htransfer, Or.inr ⟨hmax, Or.inr ⟨hex, heq⟩⟩⟩
        rw [hex.apply]
        refine (nonceLe_set fun b hb ↦ ?_).trans (nonceLe_set fun b hb ↦ ?_)
        · obtain rfl := Option.some_inj.mp (hex.found.symm.trans hb)
          exact hle hfits
        · rw [set_ne _ (Ne.symm heq)] at hb
          exact getOrNew_nonce_le hb
    · have hfits : Fits (a.nonce.toNat + 1) := by
        by_contra hmax
        exact h ⟨t, a, htransfer, Or.inr ⟨hmax, Or.inl hch⟩⟩
      rw [hch.apply]
      refine nonceLe_set fun b hb ↦ ?_
      obtain rfl := Option.some_inj.mp (hch.found.symm.trans hb)
      exact hle hfits

/-! ## Runs -/

theorem LedgerRun.consumes_iff {s s' : AccountMap} {xs : List Applied} (h : LedgerRun s xs s') :
    (∀ x ∈ xs, x.Consumes) ↔ ∀ x ∈ xs, ¬ x.op.Replayable x.before := by
  induction h with
  | nil s => simp
  | cons op _ ih => rw [List.forall_mem_cons, List.forall_mem_cons, ih, op.consumes_iff]

theorem LedgerRun.nonceLe {s s' : AccountMap} {xs : List Applied} (h : LedgerRun s xs s')
    (hsafe : ∀ x ∈ xs, ¬ x.op.Replayable x.before) : ∀ x ∈ xs, NonceLe s x.before := by
  induction h with
  | nil s => simp
  | @cons s s' xs op _ ih =>
    rw [List.forall_mem_cons] at hsafe ⊢
    exact ⟨NonceLe.refl s, fun x hx ↦ (op.nonceLe hsafe.1).trans (ih hsafe.2 x hx)⟩

/-- An operation that changes an account finds its own nonce at its sender. -/
theorem Op.found_of_changes {op : Op} {s : AccountMap} {sender : Hash} {nonce : UInt64}
    (horigin : op.origin = some (sender, nonce)) (h : op.apply s ≠ s) :
    ∃ a, s sender = some a ∧ a.nonce = nonce := by
  cases htransfer : op.transfer with
  | none => exact absurd (Op.apply_of_origin horigin htransfer) h
  | some t =>
    rw [Op.origin_of_transfer htransfer] at horigin
    obtain ⟨rfl, rfl⟩ := Prod.mk.inj (Option.some_inj.mp horigin)
    rw [Op.apply_of_transfer htransfer] at h
    obtain ⟨a, hex | hch⟩ := applyTransfer_ne h
    · exact ⟨a, hex.found, hex.nonce⟩
    · exact ⟨a, hch.found, hch.nonce⟩

theorem LedgerRun.after_eq {s s' : AccountMap} {xs : List Applied} (h : LedgerRun s xs s') :
    ∀ x ∈ xs, x.after = x.op.apply x.before := by
  induction h with
  | nil s => simp
  | cons op _ ih => exact List.forall_mem_cons.mpr ⟨rfl, ih⟩

/-- Where every nonce is consumed there is no replay. -/
theorem LedgerRun.noReplay {s s' : AccountMap} {xs : List Applied} (h : LedgerRun s xs s')
    (hsafe : ∀ x ∈ xs, ¬ x.op.Replayable x.before) : NoReplay xs := by
  induction h with
  | nil s => exact List.Pairwise.nil
  | @cons s s' xs op hrun ih =>
    rw [List.forall_mem_cons] at hsafe
    refine List.Pairwise.cons ?_ (ih hsafe.2)
    rintro y hy ⟨sender, nonce⟩ hxorigin hyorigin hxchanges hychanges
    obtain ⟨a, ha, hlt⟩ := (op.consumes_iff s).mpr hsafe.1 hxchanges _ _ hxorigin
    obtain ⟨b, hb, hle⟩ := hrun.nonceLe hsafe.2 y hy sender a ha
    rw [Applied.Changes, hrun.after_eq y hy] at hychanges
    obtain ⟨b', hb', hnonce⟩ := Op.found_of_changes hyorigin hychanges
    obtain rfl := Option.some_inj.mp (hb.symm.trans hb')
    rw [hnonce] at hle
    exact UInt64.lt_irrefl _ (UInt64.lt_of_lt_of_le hlt hle)

/-- **The executor replays nothing exactly when no operation it applies can be repeated.** -/
theorem executor_no_replay_iff {T : Type} {read : Reader T} {s s' : AccountMap}
    {xs : List Applied} (h : Batches read s xs s') :
    (NoReplay xs ∧ ∀ x ∈ xs, x.Consumes) ↔ ∀ x ∈ xs, ¬ x.op.Replayable x.before := by
  rw [← h.ledgerRun.consumes_iff]
  refine ⟨And.right, fun hconsumes ↦ ⟨h.ledgerRun.noReplay ?_, hconsumes⟩⟩
  exact h.ledgerRun.consumes_iff.mp hconsumes

/-! ## A replay

Alice's transaction to herself once more, in the same batch. -/

namespace SelfPayment

/-- The batch: one deposit of 10, and the transaction twice. -/
abbrev replay : List Op := blockOps [toSelf, toSelf] [deposit] []

theorem replay_batches : ∃ s', Batches read (fun _ ↦ none)
    (start.trace read (fun _ ↦ none) replay) s' := by
  have hops : start.applyOps read replay
      = (.ok (), start.cacheInsert alice { id := alice, balance := 20, nonce := 0 }) := rfl
  have h := Batches.batch replay (MemTree.reads_none c Bincode.v1 []) hops
    (Batches.nil _)
  rw [List.append_nil] at h
  exact ⟨_, h⟩

/-- Each of the two transactions changes Alice's account. -/
theorem replay_trace : ∃ x₀ x₁ x₂,
    start.trace read (fun _ ↦ none) replay = [x₀, x₁, x₂] ∧
      x₁.op.origin = some (alice, 0) ∧ x₂.op.origin = some (alice, 0) ∧
      x₁.Changes ∧ x₂.Changes ∧
      x₁.after alice = some { id := alice, balance := 15, nonce := 0 } := by
  refine ⟨_, _, _, rfl, rfl, rfl, ?_, ?_, rfl⟩
  · intro h
    exact absurd (congrFun h alice) (by decide)
  · intro h
    exact absurd (congrFun h alice) (by decide)

end SelfPayment

open SelfPayment in
/-- The same transaction changes Alice's account twice and leaves her nonce where it was. -/
theorem selfPayment_replayed :
    (∃ s', Batches read (fun _ ↦ none) (start.trace read (fun _ ↦ none) replay) s') ∧
      ¬ NoReplay (start.trace read (fun _ ↦ none) replay) ∧
      ¬ ∀ x ∈ start.trace read (fun _ ↦ none) replay, x.Consumes := by
  obtain ⟨x₀, x₁, x₂, htrace, horigin₁, horigin₂, hchanges₁, hchanges₂, hafter⟩ := replay_trace
  refine ⟨replay_batches, ?_, ?_⟩
  · intro h
    rw [htrace, NoReplay, List.pairwise_cons, List.pairwise_cons] at h
    exact h.2.1 x₂ (by simp) _ horigin₁ horigin₂ hchanges₁ hchanges₂
  · intro h
    obtain ⟨a, ha, hlt⟩ := h x₁ (by rw [htrace]; simp) hchanges₁ _ _ horigin₁
    obtain rfl := Option.some_inj.mp (hafter.symm.trans ha)
    exact absurd hlt (by decide)

open SelfPayment in
theorem executor_no_replay_iff_selfPayment : ∃ s' : AccountMap,
    Batches read (fun _ ↦ none) (start.trace read (fun _ ↦ none) replay) s' ∧
      ((NoReplay (start.trace read (fun _ ↦ none) replay) ∧
          ∀ x ∈ start.trace read (fun _ ↦ none) replay, x.Consumes) ↔
        ∀ x ∈ start.trace read (fun _ ↦ none) replay, ¬ x.op.Replayable x.before) := by
  obtain ⟨s', h⟩ := replay_batches
  exact ⟨s', h, executor_no_replay_iff h⟩

end TinyRollup
