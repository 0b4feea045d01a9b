import TinyRollup.Lib.Bytes

/-!
# The contract ABI encoding of a struct

`encodeStruct` is `abi.encode` of one struct whose fields are words (`uint256`, `address`,
`bytes32`) or byte strings: the heads of the fields in order, a byte string being represented in
its head by the offset of its tail, then the tails; a struct with a byte string in it is itself
reached through an offset.

The encoding is injective on structs of one shape.  Two shapes are worked out: any number of words
(`encodeWords_inj`), and a byte string followed by a word (`encodeBytesWord_inj`).  Nothing has to
be assumed about the length of the byte string: the length word is taken modulo `2 ^ 256`, but the
padded length is visible in the length of the encoding.
-/

set_option autoImplicit false

namespace Abi

open ByteString

/-- A field of a struct. -/
inductive Field
  | word (w : FixedBytes 32)
  | bytes (b : Bytes)

/-- `uint256`, and the narrower types widened to it. -/
def uint (n : ℕ) : FixedBytes 32 := beWord 32 n

/-- `address`, padded on the left. -/
def address (a : FixedBytes 20) : FixedBytes 32 :=
  ⟨List.replicate 12 0 ++ a.toList, by simp⟩

theorem uint_inj {m n : ℕ} (hm : m < 2 ^ 256) (hn : n < 2 ^ 256) (h : uint m = uint n) : m = n :=
  beWord_inj (by simpa using hm) (by simpa using hn) h

theorem address_injective : Function.Injective address := by
  intro a b h
  have hl : List.replicate 12 0 ++ a.toList = List.replicate 12 0 ++ b.toList :=
    congrArg List.Vector.toList h
  exact List.Vector.toList_injective (List.append_cancel_left hl)

/-- Pad to a whole number of words. -/
def padRight (b : Bytes) : Bytes := b ++ List.replicate ((32 - b.length % 32) % 32) 0

namespace Field

def isDynamic : Field → Bool
  | word _ => false
  | bytes _ => true

def tail : Field → Bytes
  | word _ => []
  | bytes b => beBytes 32 b.length ++ padRight b

def head (offset : ℕ) : Field → Bytes
  | word w => w.toList
  | bytes _ => beBytes 32 offset

end Field

/-- The heads of the fields, the first tail being at `offset`. -/
def heads : ℕ → List Field → Bytes
  | _, [] => []
  | offset, f :: fs => f.head offset ++ heads (offset + f.tail.length) fs

/-- `abi.encode` of a struct. -/
def encodeStruct (fs : List Field) : Bytes :=
  (if fs.any Field.isDynamic then beBytes 32 32 else []) ++
    heads (32 * fs.length) fs ++ (fs.map Field.tail).flatten

/-! ## A struct of words -/

theorem heads_words (offset : ℕ) (ws : List (FixedBytes 32)) :
    heads offset (ws.map Field.word) = (ws.map List.Vector.toList).flatten := by
  induction ws with
  | nil => rfl
  | cons w ws ih => simp [heads, Field.head, Field.tail, ih]

theorem encodeStruct_words (ws : List (FixedBytes 32)) :
    encodeStruct (ws.map Field.word) = (ws.map List.Vector.toList).flatten := by
  have htails : ((ws.map Field.word).map Field.tail).flatten = [] := by
    simp [Function.comp_def, Field.tail]
  have hstatic : (ws.map Field.word).any Field.isDynamic = false := by
    simp [Field.isDynamic]
  rw [encodeStruct, htails, hstatic, heads_words]
  simp

theorem encodeWords_inj {ws vs : List (FixedBytes 32)}
    (h : encodeStruct (ws.map Field.word) = encodeStruct (vs.map Field.word)) : ws = vs := by
  rw [encodeStruct_words, encodeStruct_words] at h
  refine List.map_injective_iff.mpr List.Vector.toList_injective
    (flatten_inj_of_length (n := 32) (by decide) ?_ ?_ h) <;>
  · intro b hb
    obtain ⟨w, _, rfl⟩ := List.mem_map.mp hb
    exact w.toList_length

/-! ## A byte string and a word -/

theorem encodeStruct_bytesWord (b : Bytes) (w : FixedBytes 32) :
    encodeStruct [.bytes b, .word w] =
      beBytes 32 32 ++ (beBytes 32 64 ++ (w.toList ++ (beBytes 32 b.length ++ padRight b))) := by
  simp [encodeStruct, heads, Field.head, Field.tail, Field.isDynamic]

theorem padRight_length (b : Bytes) :
    (padRight b).length % 32 = 0 ∧ b.length ≤ (padRight b).length ∧
      (padRight b).length < b.length + 32 := by
  simp only [padRight, List.length_append, List.length_replicate]
  omega

/-- The length word and the padded bytes determine the bytes. -/
theorem tail_inj {a b : Bytes}
    (h : beBytes 32 a.length ++ padRight a = beBytes 32 b.length ++ padRight b) : a = b := by
  obtain ⟨hlen, hpad⟩ := append_inj_of_length (by simp) h
  have hmod : a.length % 256 ^ 32 = b.length % 256 ^ 32 := by
    rw [← beNat_beBytes, ← beNat_beBytes, hlen]
  have hpadded : (padRight a).length = (padRight b).length := congrArg List.length hpad
  have hab : a.length = b.length := by
    have ha := padRight_length a
    have hb := padRight_length b
    omega
  exact (append_inj_of_length hab hpad).1

theorem encodeBytesWord_inj {a b : Bytes} {v w : FixedBytes 32}
    (h : encodeStruct [.bytes a, .word v] = encodeStruct [.bytes b, .word w]) : a = b ∧ v = w := by
  rw [encodeStruct_bytesWord, encodeStruct_bytesWord] at h
  obtain ⟨hw, htail⟩ := append_inj_of_length (by simp)
    (List.append_cancel_left (List.append_cancel_left h))
  exact ⟨tail_inj htail, List.Vector.toList_injective hw⟩

end Abi
