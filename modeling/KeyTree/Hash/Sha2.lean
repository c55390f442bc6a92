import KeyTree.Bytes.Endian

/-!
# The SHA-2 construction

The two SHA-2 functions of this library differ in the width of their words and in a table of data;
`Sha2 W` holds the data of one of them and the rest is written once. A `Hasher` takes its input
byte by byte, so that a message can arrive in any number of pieces. Main statement:
`Hasher.update_append`, feeding two pieces one after another is feeding them joined.
-/

namespace KeyTree

/-- The machine words that a SHA-2 function computes with. -/
class Word (W : Type) extends Add W, AndOp W, XorOp W, Complement W where
  /-- The width in bytes. -/
  bytes : Nat
  /-- The word of a number modulo the word size. -/
  ofNat : Nat → W
  /-- The number that a word stands for. -/
  toNat : W → Nat
  /-- Rotation toward the low end. -/
  rotateRight : W → Nat → W
  /-- Shift toward the low end; zeros come in. -/
  shiftRight : W → Nat → W

instance : Word UInt32 where
  bytes := 4
  ofNat := UInt32.ofNat
  toNat := UInt32.toNat
  rotateRight x n := x >>> UInt32.ofNat n ||| x <<< UInt32.ofNat (32 - n)
  shiftRight x n := x >>> UInt32.ofNat n

instance : Word UInt64 where
  bytes := 8
  ofNat := UInt64.ofNat
  toNat := UInt64.toNat
  rotateRight x n := x >>> UInt64.ofNat n ||| x <<< UInt64.ofNat (64 - n)
  shiftRight x n := x >>> UInt64.ofNat n

/-- The eight working words. -/
structure Sha2.State (W : Type) where
  (a b c d e f g h : W)

/-- The data that tells one SHA-2 function from another. -/
structure Sha2 (W : Type) where
  /-- The rotations that mix the word `a` in a round. -/
  mixA : Nat × Nat × Nat
  /-- The rotations that mix the word `e` in a round. -/
  mixE : Nat × Nat × Nat
  /-- Two rotations and a shift for the word fifteen back in the schedule. -/
  mixOld : Nat × Nat × Nat
  /-- Two rotations and a shift for the word two back in the schedule. -/
  mixNew : Nat × Nat × Nat
  /-- The words before the first block. -/
  initial : Sha2.State W
  /-- One constant for each round. -/
  roundConstants : List W

namespace Sha2

variable {W : Type} [Word W]

/-! ## One block -/

/-- The number of bytes in a block: sixteen words. -/
def blockBytes (W : Type) [Word W] : Nat := 16 * Word.bytes W

/-- Exclusive or of three rotations. -/
@[specialize] def rotations (r : Nat × Nat × Nat) (x : W) : W :=
  Word.rotateRight x r.1 ^^^ Word.rotateRight x r.2.1 ^^^ Word.rotateRight x r.2.2

/-- Exclusive or of two rotations and a shift. -/
@[specialize] def rotationsShift (r : Nat × Nat × Nat) (x : W) : W :=
  Word.rotateRight x r.1 ^^^ Word.rotateRight x r.2.1 ^^^ Word.shiftRight x r.2.2

/-- Bits of `y` where `x` is set and of `z` where it is not. -/
@[specialize] def choose (x y z : W) : W := (x &&& y) ^^^ (~~~x &&& z)

/-- Bits that at least two of the three words have. -/
@[specialize] def majority (x y z : W) : W := (x &&& y) ^^^ (x &&& z) ^^^ (y &&& z)

/-- The first `n` words of a byte string. -/
@[specialize] def words : (n : Nat) → Bytes → List W
  | 0, _ => []
  | n + 1, bytes =>
    Word.ofNat (BigEndian.decode (bytes.take (Word.bytes W))) ::
      words n (bytes.drop (Word.bytes W))

/-- Adds `n` words to a schedule that is kept with its newest word first. -/
@[specialize] def extend (H : Sha2 W) : (n : Nat) → List W → List W
  | 0, ws => ws
  | n + 1, ws =>
    let zero := Word.ofNat 0
    extend H n
      ((rotationsShift H.mixNew (ws.getD 1 zero) + ws.getD 6 zero
        + rotationsShift H.mixOld (ws.getD 14 zero) + ws.getD 15 zero) :: ws)

/-- One word for each round: the block's own sixteen, then those computed from them. -/
@[specialize] def schedule (H : Sha2 W) (block : Bytes) : List W :=
  (H.extend (H.roundConstants.length - 16) (words 16 block).reverse).reverse

/-- One round, with its constant and its word of the schedule. -/
@[specialize] def round (H : Sha2 W) (s : State W) (kw : W × W) : State W :=
  let t₁ := s.h + rotations H.mixE s.e + choose s.e s.f s.g + kw.1 + kw.2
  let t₂ := rotations H.mixA s.a + majority s.a s.b s.c
  ⟨t₁ + t₂, s.a, s.b, s.c, s.d + t₁, s.e, s.f, s.g⟩

/-- Takes a whole block into the working words. -/
@[specialize] def compress (H : Sha2 W) (s : State W) (block : Bytes) : State W :=
  let t := (H.roundConstants.zip (H.schedule block)).foldl H.round s
  ⟨s.a + t.a, s.b + t.b, s.c + t.c, s.d + t.d, s.e + t.e, s.f + t.f, s.g + t.g, s.h + t.h⟩

/-- The working words as bytes. -/
@[specialize] def State.toBytes (s : State W) : Vector UInt8 (8 * Word.bytes W) :=
  let enc (x : W) := BigEndian.encode (Word.bytes W) (Word.toNat x)
  (enc s.a ++ enc s.b ++ enc s.c ++ enc s.d ++ enc s.e ++ enc s.f ++ enc s.g ++ enc s.h).cast
    (by omega)

/-! ## A message in pieces -/

/-- A hash under way: the working words after the full blocks, the bytes that do not fill a block
yet, and the number of bytes so far. -/
structure Hasher (W : Type) where
  chain : State W
  pending : Array UInt8
  length : Nat

/-- A hash with no input yet. -/
def start (H : Sha2 W) : Hasher W := ⟨H.initial, #[], 0⟩

/-- Takes one byte, and the block with it when this byte fills it. -/
@[specialize] def Hasher.push (H : Sha2 W) (h : Hasher W) (b : UInt8) : Hasher W :=
  let pending := h.pending.push b
  if pending.size = blockBytes W then ⟨H.compress h.chain pending.toList, #[], h.length + 1⟩
  else ⟨h.chain, pending, h.length + 1⟩

/-- Takes a piece of the message. -/
@[specialize] def Hasher.update (H : Sha2 W) (h : Hasher W) (bytes : Bytes) : Hasher W :=
  bytes.foldl (Hasher.push H) h

/-- What is added behind a message of `n` bytes: a one bit, zeros, and the number of bits in two
words, so that the whole fills its blocks exactly. -/
def padding (W : Type) [Word W] (n : Nat) : Bytes :=
  let fixed := n + 1 + 2 * Word.bytes W
  let zeros := (blockBytes W - fixed % blockBytes W) % blockBytes W
  0x80 :: List.replicate zeros 0 ++ (BigEndian.encode (2 * Word.bytes W) (8 * n)).toList

/-- The digest of all the bytes taken. -/
@[specialize] def Hasher.finish (H : Sha2 W) (h : Hasher W) : Vector UInt8 (8 * Word.bytes W) :=
  (h.update H (padding W h.length)).chain.toBytes

/-- The digest of a message. -/
@[specialize] def digest (H : Sha2 W) (message : Bytes) : Vector UInt8 (8 * Word.bytes W) :=
  (H.start.update H message).finish H

/-- A hasher that takes no bytes stays as it is. -/
@[simp] theorem Hasher.update_nil (H : Sha2 W) (h : Hasher W) : h.update H [] = h := rfl

/-- Feeding two pieces one after another is feeding them joined. -/
theorem Hasher.update_append (H : Sha2 W) (h : Hasher W) (xs ys : Bytes) :
    h.update H (xs ++ ys) = (h.update H xs).update H ys := by
  simp [Hasher.update]

end Sha2

end KeyTree
