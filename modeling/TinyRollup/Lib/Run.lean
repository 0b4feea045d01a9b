import Mathlib

/-!
# Computations that return an error or panic

`Run ε α` is the type of a computation that may return an error of type `ε` and may also panic.
The rules of this module take a computation that returned apart: `bind_eq_ok` for a sequence,
`foldlM_trace`, `foldlM_forall`, `foldlM_invariant`, `foldlM_at` and `foldlM_push` for a loop, and
`foldlM_map` for a part of what a loop carries along.
-/

set_option autoImplicit false

/-- Why a computation did not return. -/
inductive Halt (ε : Type)
  | err (e : ε)
  | panic (msg : String)
  deriving DecidableEq

/-- A computation that returns, returns an error, or panics. -/
abbrev Run (ε α : Type) := Except (Halt ε) α

namespace Run

variable {ε α β σ τ : Type}

def err (e : ε) : Run ε α := .error (.err e)

def panic (msg : String) : Run ε α := .error (.panic msg)

/-- A computation that cannot panic. -/
def ofExcept : Except ε α → Run ε α
  | .ok a => .ok a
  | .error e => err e

/-- `xs[i]`. -/
def index (xs : List α) (i : ℕ) : Run ε α :=
  match xs[i]? with
  | some x => .ok x
  | none => panic "index out of bounds"

/-- `x.map_err(f)`; a panic stays a panic. -/
def mapErr {ε' : Type} (f : ε → ε') : Run ε α → Run ε' α
  | .ok a => .ok a
  | .error (.err e) => err (f e)
  | .error (.panic msg) => panic msg

/-- `x.ok_or(e)`. -/
def okOr (x : Option α) (e : ε) : Run ε α :=
  match x with
  | some a => .ok a
  | none => err e

/-- `x.unwrap_or_else(|_| a)`; a panic stays a panic. -/
def unwrapOr (a : α) : Run ε α → Run ε α
  | .error (.err _) => .ok a
  | x => x

@[simp] theorem mapErr_ok {ε' : Type} (f : ε → ε') (a : α) :
    mapErr f (.ok a : Run ε α) = .ok a := rfl

@[simp] theorem mapErr_eq_ok {ε' : Type} {f : ε → ε'} {x : Run ε α} {a : α} :
    mapErr f x = .ok a ↔ x = .ok a := by
  rcases x with (e | msg) | b <;> simp [mapErr, err, panic]

@[simp] theorem okOr_eq_ok {x : Option α} {e : ε} {a : α} :
    okOr x e = .ok a ↔ x = some a := by
  cases x <;> simp [okOr, err]

@[simp] theorem ok_bind (a : α) (f : α → Run ε β) : (.ok a : Run ε α) >>= f = f a := rfl

@[simp] theorem err_bind (e : ε) (f : α → Run ε β) : (err e : Run ε α) >>= f = err e := rfl

@[simp] theorem ofExcept_eq_ok {x : Except ε α} {a : α} :
    (ofExcept x : Run ε α) = .ok a ↔ x = .ok a := by
  cases x <;> simp [ofExcept, err]

@[simp] theorem index_eq_ok {xs : List α} {i : ℕ} {x : α} :
    (index xs i : Run ε α) = .ok x ↔ xs[i]? = some x := by
  rw [index]
  cases xs[i]? <;> simp [panic]

theorem bind_eq_ok {x : Run ε α} {f : α → Run ε β} {b : β} :
    x >>= f = .ok b ↔ ∃ a, x = .ok a ∧ f a = .ok b := by
  cases x with
  | ok a => simp [bind, Except.bind]
  | error e => simp [bind, Except.bind]

@[simp] theorem pure_eq_ok {a b : α} : (pure a : Run ε α) = .ok b ↔ a = b := by
  simp [pure, Except.pure]

theorem foldlM_cons_eq_ok {f : σ → α → Run ε σ} {x : α} {xs : List α} {s s' : σ} :
    (x :: xs).foldlM f s = .ok s' ↔ ∃ t, f s x = .ok t ∧ xs.foldlM f t = .ok s' := by
  rw [List.foldlM_cons, bind_eq_ok]

theorem foldlM_nil_eq_ok {f : σ → α → Run ε σ} {s s' : σ} :
    ([] : List α).foldlM f s = .ok s' ↔ s = s' := by
  rw [List.foldlM_nil, pure_eq_ok]

theorem foldlM_append_eq_ok {f : σ → α → Run ε σ} {xs ys : List α} {s s' : σ} :
    (xs ++ ys).foldlM f s = .ok s' ↔
      ∃ t, xs.foldlM f s = .ok t ∧ ys.foldlM f t = .ok s' := by
  rw [List.foldlM_append, bind_eq_ok]

/-- A list that was converted item by item. -/
theorem mapM_eq_ok {f : α → Run ε β} {xs : List α} {ys : List β} (h : xs.mapM f = .ok ys) :
    ∀ (i : ℕ) (y : β), ys[i]? = some y → ∃ x, xs[i]? = some x ∧ f x = .ok y := by
  induction xs generalizing ys with
  | nil =>
    rw [List.mapM_nil, pure_eq_ok] at h
    subst h
    simp
  | cons x xs ih =>
    rw [List.mapM_cons, bind_eq_ok] at h
    obtain ⟨y, hy, h⟩ := h
    obtain ⟨ys', hys', h⟩ := bind_eq_ok.mp h
    rw [pure_eq_ok] at h
    subst h
    intro i z hz
    cases i with
    | zero =>
      rw [List.getElem?_cons_zero, Option.some_inj] at hz
      exact ⟨x, rfl, hz ▸ hy⟩
    | succ i => exact ih hys' i z hz

/-- The items that a list was converted to are the conversions of its items in order. -/
theorem mapM_forall₂ {f : α → Run ε β} {R : α → β → Prop} {xs : List α} :
    ∀ {ys : List β}, xs.mapM f = .ok ys → (∀ x ∈ xs, ∀ y, f x = .ok y → R x y) →
      List.Forall₂ R xs ys := by
  induction xs with
  | nil =>
    intro ys h _
    rw [List.mapM_nil, pure_eq_ok] at h
    exact h ▸ .nil
  | cons x xs ih =>
    intro ys h hR
    rw [List.mapM_cons, bind_eq_ok] at h
    obtain ⟨y, hy, h⟩ := h
    obtain ⟨ys', hys', h⟩ := bind_eq_ok.mp h
    rw [← pure_eq_ok.mp h]
    rw [List.forall_mem_cons] at hR
    exact .cons (hR.1 y hy) (ih hys' hR.2)

/-- A list is converted exactly if each of its items is. -/
theorem exists_mapM_eq_ok {f : α → Run ε β} {xs : List α} :
    (∃ ys, xs.mapM f = .ok ys) ↔ ∀ x ∈ xs, ∃ y, f x = .ok y := by
  induction xs with
  | nil => exact iff_of_true ⟨[], rfl⟩ (by simp)
  | cons x xs ih =>
    rw [List.forall_mem_cons, ← ih]
    constructor
    · rintro ⟨ys, h⟩
      rw [List.mapM_cons, bind_eq_ok] at h
      obtain ⟨y, hy, h⟩ := h
      obtain ⟨ys', hys', -⟩ := bind_eq_ok.mp h
      exact ⟨⟨y, hy⟩, ys', hys'⟩
    · rintro ⟨⟨y, hy⟩, ys, hys⟩
      exact ⟨y :: ys, by rw [List.mapM_cons, hy, ok_bind, hys]; rfl⟩

/-- **Trace rule**: if every iteration that returns is explained by the trace of its item, the loop
is explained by the traces of its items in order. -/
theorem foldlM_trace {f : σ → α → Run ε σ} {trace : α → List τ} {R : σ → List τ → σ → Prop}
    (hnil : ∀ s, R s [] s) (happend : ∀ {s t u l m}, R s l t → R t m u → R s (l ++ m) u)
    {xs : List α} (hstep : ∀ x ∈ xs, ∀ s s', f s x = .ok s' → R s (trace x) s') :
    ∀ {s s' : σ}, xs.foldlM f s = .ok s' → R s (xs.flatMap trace) s' := by
  induction xs with
  | nil =>
    intro s s' h
    rw [foldlM_nil_eq_ok.mp h]
    exact hnil s'
  | cons x xs ih =>
    intro s s' h
    obtain ⟨t, hx, hxs⟩ := foldlM_cons_eq_ok.mp h
    exact happend (hstep x (by simp) s t hx)
      (ih (fun y hy ↦ hstep y (List.mem_cons_of_mem _ hy)) hxs)

/-- Every iteration of a loop that returns has returned. -/
theorem foldlM_forall {f : σ → α → Run ε σ} {xs : List α} :
    ∀ {s s' : σ}, xs.foldlM f s = .ok s' → ∀ x ∈ xs, ∃ t t', f t x = .ok t' := by
  induction xs with
  | nil => simp
  | cons x xs ih =>
    intro s s' h
    obtain ⟨t, hx, hxs⟩ := foldlM_cons_eq_ok.mp h
    exact List.forall_mem_cons.mpr ⟨⟨s, t, hx⟩, ih hxs⟩

/-- **Invariant rule**: what every iteration that returns keeps, the loop keeps. -/
theorem foldlM_invariant {f : σ → α → Run ε σ} {I : σ → Prop} {xs : List α}
    (hstep : ∀ x ∈ xs, ∀ s s', I s → f s x = .ok s' → I s') :
    ∀ {s s' : σ}, I s → xs.foldlM f s = .ok s' → I s' := by
  induction xs with
  | nil =>
    intro s s' hs h
    exact foldlM_nil_eq_ok.mp h ▸ hs
  | cons x xs ih =>
    intro s s' hs h
    obtain ⟨t, hx, hxs⟩ := foldlM_cons_eq_ok.mp h
    exact ih (fun y hy ↦ hstep y (List.mem_cons_of_mem _ hy)) (hstep x (by simp) s t hs hx) hxs

/-- **Position rule**: a loop that returns has returned from every iteration, which began where the
items before it had led and left off where the items after it begin. -/
theorem foldlM_at {f : σ → α → Run ε σ} {xs : List α} {s s' : σ} (h : xs.foldlM f s = .ok s')
    {i : ℕ} {x : α} (hx : xs[i]? = some x) :
    ∃ t t', (xs.take i).foldlM f s = .ok t ∧ f t x = .ok t' ∧
      (xs.drop (i + 1)).foldlM f t' = .ok s' := by
  obtain ⟨hi, rfl⟩ := List.getElem?_eq_some_iff.mp hx
  rw [← List.take_append_drop i xs, foldlM_append_eq_ok, List.drop_eq_getElem_cons hi] at h
  obtain ⟨t, htake, h⟩ := h
  obtain ⟨t', hstep, hdrop⟩ := foldlM_cons_eq_ok.mp h
  exact ⟨t, t', htake, hstep, hdrop⟩

/-- **Push rule**: a loop that pushes one entry for every item adds as many entries as it has
items. -/
theorem foldlM_push {f : σ → α → Run ε σ} {out : σ → List τ} {xs : List α}
    (hpush : ∀ x ∈ xs, ∀ s s', f s x = .ok s' → ∃ y, out s' = out s ++ [y]) :
    ∀ {s s' : σ}, xs.foldlM f s = .ok s' →
      ∃ ys, out s' = out s ++ ys ∧ ys.length = xs.length := by
  induction xs with
  | nil =>
    intro s s' h
    exact ⟨[], by rw [foldlM_nil_eq_ok.mp h, List.append_nil], rfl⟩
  | cons x xs ih =>
    intro s s' h
    obtain ⟨t, hx, hxs⟩ := foldlM_cons_eq_ok.mp h
    obtain ⟨y, hy⟩ := hpush x (by simp) s t hx
    obtain ⟨ys, hys, hlength⟩ := ih (fun z hz ↦ hpush z (List.mem_cons_of_mem _ hz)) hxs
    exact ⟨y :: ys, by rw [hys, hy, List.append_assoc, List.singleton_append],
      congrArg Nat.succ hlength⟩

/-- The entry that the iteration at a position has pushed is the entry at this position. -/
theorem getElem?_of_push {f : σ → α → Run ε σ} {out : σ → List τ} {xs : List α}
    (hpush : ∀ x ∈ xs, ∀ s s', f s x = .ok s' → ∃ y, out s' = out s ++ [y]) {s t t' s' : σ}
    (hs : out s = []) {i : ℕ} (hi : i < xs.length) (htake : (xs.take i).foldlM f s = .ok t)
    (hdrop : (xs.drop (i + 1)).foldlM f t' = .ok s') {y : τ} (hy : out t' = out t ++ [y]) :
    (out s')[i]? = some y := by
  obtain ⟨before, hbefore, hlength⟩ :=
    foldlM_push (fun x hx ↦ hpush x (List.mem_of_mem_take hx)) htake
  obtain ⟨after, hafter, -⟩ := foldlM_push (fun x hx ↦ hpush x (List.mem_of_mem_drop hx)) hdrop
  have hposition : before.length = i := by
    rw [hlength, List.length_take, Nat.min_eq_left (Nat.le_of_lt hi)]
  rw [hafter, hy, hbefore, hs, List.nil_append, List.append_assoc, ← hposition,
    List.getElem?_append_right (Nat.le_refl _), Nat.sub_self]
  rfl

/-- **Projection rule**: what every iteration makes of a part of the state, the loop makes of it. -/
theorem foldlM_map {f : σ → α → Run ε σ} {f' : τ → α → Run ε τ} {g : σ → τ} {xs : List α}
    (hstep : ∀ s, ∀ x ∈ xs, (f s x).map g = f' (g s) x) :
    ∀ s : σ, (xs.foldlM f s).map g = xs.foldlM f' (g s) := by
  induction xs with
  | nil => exact fun _ ↦ rfl
  | cons x xs ih =>
    intro s
    rw [List.foldlM_cons, List.foldlM_cons, ← hstep s x (by simp)]
    cases f s x with
    | error e => rfl
    | ok t => exact ih (fun s y hy ↦ hstep s y (List.mem_cons_of_mem _ hy)) t

/-! ## Panics -/

/-- The computation ends in this panic. -/
def PanicsWith (msg : String) (x : Run ε α) : Prop := x = .error (.panic msg)

@[simp] theorem panicsWith_error {msg : String} {e : Halt ε} :
    PanicsWith msg (.error e : Run ε α) ↔ e = .panic msg := by
  simp [PanicsWith]

@[simp] theorem panicsWith_panic {msg msg' : String} :
    PanicsWith msg (panic msg' : Run ε α) ↔ msg' = msg := by
  simp [PanicsWith, panic]

@[simp] theorem not_panicsWith_ok {msg : String} {a : α} :
    ¬ PanicsWith msg (.ok a : Run ε α) := by
  simp [PanicsWith]

@[simp] theorem not_panicsWith_err {msg : String} {e : ε} :
    ¬ PanicsWith msg (err e : Run ε α) := by
  simp [PanicsWith, err]

@[simp] theorem panicsWith_mapErr {ε' : Type} {msg : String} {f : ε → ε'} {x : Run ε α} :
    PanicsWith msg (mapErr f x) ↔ PanicsWith msg x := by
  rcases x with (e | m) | a <;> simp [mapErr, PanicsWith, err, panic]

@[simp] theorem not_panicsWith_okOr {msg : String} {x : Option α} {e : ε} :
    ¬ PanicsWith msg (okOr x e) := by
  cases x <;> simp [okOr, PanicsWith, err]

@[simp] theorem not_panicsWith_pure {msg : String} {a : α} :
    ¬ PanicsWith msg (pure a : Run ε α) :=
  not_panicsWith_ok

@[simp] theorem not_panicsWith_ofExcept {msg : String} {x : Except ε α} :
    ¬ PanicsWith msg (ofExcept x) := by
  cases x <;> simp [ofExcept]

@[simp] theorem panicsWith_map {msg : String} {f : α → β} {x : Run ε α} :
    PanicsWith msg (x.map f) ↔ PanicsWith msg x := by
  cases x <;> simp [Except.map, PanicsWith]

theorem panicsWith_bind {msg : String} {x : Run ε α} {f : α → Run ε β} :
    PanicsWith msg (x >>= f) ↔
      PanicsWith msg x ∨ ∃ a, x = .ok a ∧ PanicsWith msg (f a) := by
  cases x with
  | ok a => simp [PanicsWith]
  | error e => simp [PanicsWith, bind, Except.bind]

/-- A loop panics only in an iteration. -/
theorem not_panicsWith_foldlM {msg : String} {f : σ → α → Run ε σ} {xs : List α}
    (h : ∀ x ∈ xs, ∀ s, ¬ PanicsWith msg (f s x)) : ∀ s, ¬ PanicsWith msg (xs.foldlM f s) := by
  induction xs with
  | nil => exact fun s ↦ not_panicsWith_ok
  | cons x xs ih =>
    rw [List.forall_mem_cons] at h
    intro s
    rw [List.foldlM_cons, panicsWith_bind]
    rintro (hx | ⟨t, -, hxs⟩)
    · exact h.1 s hx
    · exact ih h.2 t hxs

end Run
