import TinyRollup.Lib.Bytes

/-!
# Keccak-f[1600], SHA3-256 and Keccak-256

The two hash functions differ in one byte of padding, so this is one sponge and two instances of
it.  Nothing is proved about them: a development that hashes takes its hash function as a
parameter, and these are the functions to run it with.

A state is the list of its 25 lanes, a lane a natural number below `2 ^ 64`.  The definitions are
meant to be evaluated by the kernel as well, which computes arithmetic on number literals but
passes arguments by name: `force` is there so that a lane is computed once, before the next layer
of the permutation reads it eleven times.
-/

set_option autoImplicit false

namespace Keccak

open ByteString

/-! ## The permutation -/

/-- Compute `n`, then go on with it. -/
def force {α : Type} (n : ℕ) (k : ℕ → α) : α :=
  match n with
  | 0 => k 0
  | n + 1 => k (n + 1)

/-- Compute every number of a list, then go on with the list. -/
def forceAll {α : Type} : List ℕ → (List ℕ → α) → α
  | [], k => k []
  | n :: ns, k => force n fun m ↦ forceAll ns fun ms ↦ k (m :: ms)

/-- Rotate a lane to the left. -/
def rotl (x r : ℕ) : ℕ := ((x <<< r) ||| (x >>> (64 - r))) % 2 ^ 64

/-- The lane at column `x` and row `y`. -/
def lane (s : List ℕ) (x y : ℕ) : ℕ := s.getD (x % 5 + 5 * (y % 5)) 0

/-- The state whose lanes are given by `f`. -/
def ofLanes (f : ℕ → ℕ → ℕ) : List ℕ :=
  (List.range 25).map fun i ↦ f (i % 5) (i / 5)

/-- The parity of a column. -/
def parity (s : List ℕ) (x : ℕ) : ℕ :=
  lane s x 0 ^^^ lane s x 1 ^^^ lane s x 2 ^^^ lane s x 3 ^^^ lane s x 4

/-- The rotation of each lane. -/
def offsets : List ℕ :=
  [0, 1, 62, 28, 27, 36, 44, 6, 55, 20, 3, 10, 43, 25, 39, 41, 45, 15, 21, 8, 18, 2, 61, 56, 14]

def roundConstants : List ℕ :=
  [0x0000000000000001, 0x0000000000008082, 0x800000000000808A, 0x8000000080008000,
   0x000000000000808B, 0x0000000080000001, 0x8000000080008081, 0x8000000000008009,
   0x000000000000008A, 0x0000000000000088, 0x0000000080008009, 0x000000008000000A,
   0x000000008000808B, 0x800000000000008B, 0x8000000000008089, 0x8000000000008003,
   0x8000000000008002, 0x8000000000000080, 0x000000000000800A, 0x800000008000000A,
   0x8000000080008081, 0x8000000000008080, 0x0000000080000001, 0x8000000080008008]

/-- One round: theta, then rho and pi together, then chi and iota together. -/
def round {α : Type} (rc : ℕ) (s : List ℕ) (k : List ℕ → α) : α :=
  forceAll ((List.range 5).map (parity s)) fun c ↦
  forceAll (ofLanes fun x y ↦
    lane s x y ^^^ (c.getD ((x + 4) % 5) 0 ^^^ rotl (c.getD ((x + 1) % 5) 0) 1)) fun a ↦
  forceAll (ofLanes fun x y ↦
    rotl (lane a (x + 3 * y) x) (offsets.getD ((x + 3 * y) % 5 + 5 * x) 0)) fun b ↦
  forceAll (ofLanes fun x y ↦
    lane b x y ^^^ ((2 ^ 64 - 1 - lane b (x + 1) y) &&& lane b (x + 2) y)
      ^^^ (if x = 0 ∧ y = 0 then rc else 0)) k

def permute : List ℕ → List ℕ → List ℕ
  | [], s => s
  | rc :: rcs, s => round rc s (permute rcs)

/-! ## The sponge -/

/-- The number of bytes absorbed at a time, for a digest of 32 bytes. -/
def rate : ℕ := 136

/-- The block as lanes, each read least significant byte first. -/
def blockLanes : ℕ → Bytes → List ℕ
  | 0, _ => []
  | n + 1, b => beNat (b.take 8).reverse :: blockLanes n (b.drop 8)

/-- Pad to a whole number of blocks: the suffix byte, zeros, and a final high bit. -/
def pad (suffix : UInt8) (b : Bytes) : Bytes :=
  let q := rate - b.length % rate
  if q = 1 then b ++ [suffix ||| 0x80] else b ++ suffix :: List.replicate (q - 2) 0 ++ [0x80]

def absorb : ℕ → Bytes → List ℕ → List ℕ
  | 0, _, s => s
  | n + 1, b, s =>
    absorb n (b.drop rate)
      (forceAll (List.zipWith (· ^^^ ·) (s.take 17) (blockLanes 17 b) ++ s.drop 17)
        (permute roundConstants))

/-- The first four lanes of a state, as bytes. -/
def squeeze (s : List ℕ) : FixedBytes 32 :=
  ⟨(beBytes 8 (s.getD 0 0)).reverse ++ (beBytes 8 (s.getD 1 0)).reverse ++
    (beBytes 8 (s.getD 2 0)).reverse ++ (beBytes 8 (s.getD 3 0)).reverse, by simp⟩

def sponge (suffix : UInt8) (b : Bytes) : FixedBytes 32 :=
  let p := pad suffix b
  squeeze (absorb (p.length / rate) p (List.replicate 25 0))

def sha3_256 : Bytes → FixedBytes 32 := sponge 0x06

def keccak256 : Bytes → FixedBytes 32 := sponge 0x01

set_option maxRecDepth 10000 in
example : (keccak256 []).toList = beBytes 32
    0xc5d2460186f7233c927e7db2dcc703c0e500b653ca82273b7bfad8045d85a470 := by
  decide +kernel

end Keccak
