import WalletWire.Bits
import WalletWire.Bytes
import WalletWire.Sha2.Constants

/-!
# SHA-256 and SHA-512

One definition serves both functions: the word type is a parameter, and a `Variant` fixes the
number of rounds and the rotation amounts.  A message is padded to whole blocks of sixteen words,
and the blocks are compressed into the chaining value from the front.
-/

namespace WalletWire.Sha2

/-! ## Words -/

/-- A type of machine words.  Sums wrap around. -/
class Word (W : Type) extends Add W, AndOp W, XorOp W, Complement W where
  /-- The size in bytes. -/
  size : Nat
  /-- The word of the low bits of a number. -/
  ofNat : Nat → W
  /-- The number that a word spells. -/
  toNat : W → Nat
  /-- The word of the upper bits of a table entry. -/
  ofEntry : UInt64 → W
  rotateRight : W → Nat → W
  shiftRight : W → Nat → W

instance : Word UInt32 where
  size := 4
  ofNat := .ofNat
  toNat := UInt32.toNat
  ofEntry entry := (entry >>> 32).toUInt32
  rotateRight x amount := x >>> .ofNat amount ||| x <<< .ofNat (32 - amount)
  shiftRight x amount := x >>> .ofNat amount

instance : Word UInt64 where
  size := 8
  ofNat := .ofNat
  toNat := UInt64.toNat
  ofEntry entry := entry
  rotateRight x amount := x >>> .ofNat amount ||| x <<< .ofNat (64 - amount)
  shiftRight x amount := x >>> .ofNat amount

/-- The chaining value: eight words. -/
structure State (W : Type) where
  a : W
  b : W
  c : W
  d : W
  e : W
  f : W
  g : W
  h : W

/-- What tells the members of the family apart, besides the word type. -/
structure Variant where
  /-- The number of rounds for one block. -/
  rounds : Nat
  /-- Three rotations, mixed into the first word of the chaining value. -/
  sumA : Nat × Nat × Nat
  /-- Three rotations, mixed into the fifth word of the chaining value. -/
  sumE : Nat × Nat × Nat
  /-- Two rotations and a shift of the schedule, on the word fifteen back. -/
  sigmaOld : Nat × Nat × Nat
  /-- Two rotations and a shift of the schedule, on the word two back. -/
  sigmaNew : Nat × Nat × Nat

variable {W : Type} [Word W]

namespace State

/-- The words in order. -/
def toList (s : State W) : List W :=
  [s.a, s.b, s.c, s.d, s.e, s.f, s.g, s.h]

/-- The sum in each word. -/
@[specialize] def add (s t : State W) : State W :=
  ⟨s.a + t.a, s.b + t.b, s.c + t.c, s.d + t.d, s.e + t.e, s.f + t.f, s.g + t.g, s.h + t.h⟩

/-- The chaining value before the first block. -/
@[specialize] def start : State W :=
  let word (i : Nat) : W := Word.ofEntry (squareRoots.getD i 0)
  ⟨word 0, word 1, word 2, word 3, word 4, word 5, word 6, word 7⟩

end State

/-! ## Padding -/

/-- The message, a one bit, zero bits up to whole blocks, and the length in two words, for words
of `size` bytes. -/
def pad (size : Nat) (message : List UInt8) : List UInt8 :=
  let block := 16 * size
  let used := message.length + 1 + 2 * size
  let length := Bytes.ofLittleEndian (2 * size) (8 * message.length)
  message ++ [0x80] ++ List.replicate ((block - used % block) % block) 0 ++ length.toList.reverse

/-- The padded message as blocks of sixteen words. -/
@[specialize] def blocks (message : List UInt8) : List (List W) :=
  let bytes := pad (Word.size W) message
  let word (piece : List UInt8) : W := Word.ofNat (Bytes.littleEndian piece.reverse)
  let words := (pieces (Word.size W) (bytes.length / Word.size W) bytes).map word
  pieces 16 (words.length / 16) words

/-! ## Compression -/

namespace Variant

variable (v : Variant)

/-- The exclusive or of three rotations. -/
@[specialize] def mix (amounts : Nat × Nat × Nat) (x : W) : W :=
  Word.rotateRight x amounts.1 ^^^ Word.rotateRight x amounts.2.1
    ^^^ Word.rotateRight x amounts.2.2

/-- The exclusive or of two rotations and a shift. -/
@[specialize] def mixShift (amounts : Nat × Nat × Nat) (x : W) : W :=
  Word.rotateRight x amounts.1 ^^^ Word.rotateRight x amounts.2.1
    ^^^ Word.shiftRight x amounts.2.2

/-- The schedule with one word more; the newest word comes first. -/
@[specialize] def extend (schedule : List W) : List W :=
  let back (count : Nat) : W := schedule.getD (count - 1) (Word.ofNat 0)
  (mixShift v.sigmaNew (back 2) + back 7 + mixShift v.sigmaOld (back 15) + back 16) :: schedule

/-- One word for each round, the words of the block first. -/
@[specialize] def schedule (block : List W) : List W :=
  (Nat.repeat v.extend (v.rounds - 16) block.reverse).reverse

/-- One round, with its word of the schedule and its constant. -/
@[specialize] def round (s : State W) (input : W × W) : State W :=
  let choice := (s.e &&& s.f) ^^^ (~~~ s.e &&& s.g)
  let majority := (s.a &&& s.b) ^^^ (s.a &&& s.c) ^^^ (s.b &&& s.c)
  let t₁ := s.h + mix v.sumE s.e + choice + input.2 + input.1
  let t₂ := mix v.sumA s.a + majority
  ⟨t₁ + t₂, s.a, s.b, s.c, s.d + t₁, s.e, s.f, s.g⟩

/-- The chaining value after one more block, for the given round constants. -/
@[specialize] def compress (constants : List W) (s : State W) (block : List W) : State W :=
  s.add (((v.schedule block).zip constants).foldl v.round s)

/-- The chaining value after a whole message. -/
@[specialize] def hash (message : List UInt8) : State W :=
  let constants := (cubeRoots.take v.rounds).map Word.ofEntry
  (blocks message).foldl (v.compress constants) .start

end Variant

/-- The bytes of a chaining value. -/
@[specialize] def State.toBytes (s : State W) : Bytes (8 * Word.size W) :=
  Bits.toBytes _ (s.toList.flatMap fun word => Bits.ofNat (8 * Word.size W) (Word.toNat word))

/-! ## The two functions -/

/-- The amounts of SHA-256. -/
def Variant.sha256 : Variant where
  rounds := 64
  sumA := (2, 13, 22)
  sumE := (6, 11, 25)
  sigmaOld := (7, 18, 3)
  sigmaNew := (17, 19, 10)

/-- The amounts of SHA-512. -/
def Variant.sha512 : Variant where
  rounds := 80
  sumA := (28, 34, 39)
  sumE := (14, 18, 41)
  sigmaOld := (1, 8, 7)
  sigmaNew := (19, 61, 6)

end WalletWire.Sha2

namespace WalletWire

/-- A SHA-256 digest. -/
abbrev Digest := Bytes 32

/-- The SHA-256 digest of a message. -/
def sha256 (message : List UInt8) : Digest :=
  (Sha2.Variant.sha256.hash message : Sha2.State UInt32).toBytes

/-- The SHA-512 digest of a message. -/
def sha512 (message : List UInt8) : Bytes 64 :=
  (Sha2.Variant.sha512.hash message : Sha2.State UInt64).toBytes

end WalletWire
