import TinyRollup.Stf.Apply

/-!
# Reading accounts and forced transactions from bytes

`bincode::deserialize` at the two types it is used at.  The encoding has no tags: a `[u8; 32]` is
its bytes, a `u64` eight bytes with the least significant first, a `Vec<u8>` its length as a `u64`
and then its bytes, and a struct is its fields in order.  Bytes after the value are ignored, and an
input that ends too early is an error.

The rest of the development takes the decoders as a parameter and relies on the last point alone,
in the form of `account_eq_none` for an account.
-/

set_option autoImplicit false

namespace TinyRollup

open ByteString

/-- `bincode::deserialize`; `none` is an error. -/
structure Bincode where
  account : Bytes → Option Account
  forcedTx : Bytes → Option ForcedTx

namespace Bincode

/-- Split off the next `n` bytes. -/
def takeBytes (n : ℕ) (b : Bytes) : Option (FixedBytes n × Bytes) :=
  if h : (b.take n).length = n then some (⟨b.take n, h⟩, b.drop n) else none

def takeU64 (b : Bytes) : Option (UInt64 × Bytes) := do
  let (word, rest) ← takeBytes 8 b
  return (UInt64.ofNat (beNat word.toList.reverse), rest)

def takeVec (b : Bytes) : Option (Bytes × Bytes) := do
  let (len, rest) ← takeU64 b
  if len.toNat ≤ rest.length then return (rest.take len.toNat, rest.drop len.toNat) else none

def decodeAccount (b : Bytes) : Option Account := do
  let (id, b) ← takeBytes 32 b
  let (balance, b) ← takeU64 b
  let (nonce, _) ← takeU64 b
  return { id, balance, nonce }

def decodeForcedTx (b : Bytes) : Option ForcedTx := do
  let (from_, b) ← takeBytes 32 b
  let (to_, b) ← takeBytes 32 b
  let (nonce, b) ← takeU64 b
  let (fee, b) ← takeU64 b
  let (amount, b) ← takeU64 b
  let (timestamp, b) ← takeU64 b
  let (l2Calldata, _) ← takeVec b
  return { from_, to_, nonce, fee, amount, timestamp, l2Calldata }

/-- The decoders of bincode 1.3. -/
def v1 : Bincode := ⟨decodeAccount, decodeForcedTx⟩

theorem takeBytes_eq_some {n : ℕ} {b rest : Bytes} {w : FixedBytes n}
    (h : takeBytes n b = some (w, rest)) : b.length = n + rest.length := by
  rw [takeBytes] at h
  split at h
  · rename_i hlen
    obtain ⟨-, rfl⟩ := Prod.mk.inj (Option.some_inj.mp h)
    rw [List.length_take] at hlen
    rw [List.length_drop]
    omega
  · exact absurd h (by simp)

theorem takeU64_eq_some {b rest : Bytes} {x : UInt64} (h : takeU64 b = some (x, rest)) :
    b.length = 8 + rest.length := by
  simp only [takeU64, Option.bind_eq_bind, Option.bind_eq_some_iff, Option.pure_def,
    Option.some_inj, Prod.mk.injEq, Prod.exists] at h
  obtain ⟨_, _, hw, _, rfl⟩ := h
  exact takeBytes_eq_some hw

/-- An account takes 48 bytes. -/
theorem account_eq_none {b : Bytes} (h : b.length < 48) : v1.account b = none := by
  rw [Option.eq_none_iff_forall_ne_some]
  intro a ha
  simp only [v1, decodeAccount, Option.bind_eq_bind, Option.bind_eq_some_iff, Prod.exists] at ha
  obtain ⟨_, b₁, h₁, _, b₂, h₂, _, b₃, h₃, _⟩ := ha
  have hid := takeBytes_eq_some h₁
  have hbalance := takeU64_eq_some h₂
  have hnonce := takeU64_eq_some h₃
  omega

end Bincode

end TinyRollup
