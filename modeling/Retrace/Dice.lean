import Retrace.Point

/-!
# Directions by chance

The machine draws directions from a source, and which source that is, is open (`DirectionSource`).
The source given here is the generator xoshiro256++ on four words of 64 bits. Its state is filled
from a seed by a linear congruential generator whose output is permuted, and a direction is taken
from the two top bits of a word. A word whose bit 61 is set is passed over, and is used up.
-/

namespace Retrace

class DirectionSource (ρ : Type u) where
  draw : ρ → Direction × ρ

structure Xoshiro where
  s0 : UInt64
  s1 : UInt64
  s2 : UInt64
  s3 : UInt64
  deriving DecidableEq, Repr, Inhabited

namespace Xoshiro

/-- A 64-bit word rotated to the left by `k` bits, for `0 < k < 64`. -/
def rotateLeft (v : UInt64) (k : UInt64) : UInt64 := (v <<< k) ||| (v >>> (64 - k))

/-- A 32-bit word rotated to the right by `k` bits, for `k < 32`. -/
def rotateRight (v : UInt32) (k : UInt32) : UInt32 := (v >>> k) ||| (v <<< (32 - k))

/-! ### Seeding -/

def expand (state : UInt64) : UInt64 := state * 6364136223846793005 + 11634580027462260723

def permute (state : UInt64) : UInt32 :=
  rotateRight (((state >>> 18) ^^^ state) >>> 27).toUInt32 (state >>> 59).toUInt32

/-- A word of 64 bits made of two outputs, the lower half first. -/
def seedWord (state : UInt64) : UInt64 :=
  (permute (expand state)).toUInt64 ||| ((permute (expand (expand state))).toUInt64 <<< 32)

def ofSeed (seed : UInt64) : Xoshiro :=
  let later (k : Nat) : UInt64 := k.repeat (fun state => expand (expand state)) seed
  ⟨seedWord (later 0), seedWord (later 1), seedWord (later 2), seedWord (later 3)⟩

/-! ### Drawing -/

def word (g : Xoshiro) : UInt64 := rotateLeft (g.s0 + g.s3) 23 + g.s0

def next (g : Xoshiro) : Xoshiro :=
  let s2 := g.s2 ^^^ g.s0
  let s3 := g.s3 ^^^ g.s1
  ⟨g.s0 ^^^ s3, g.s1 ^^^ s2, s2 ^^^ (g.s1 <<< 17), rotateLeft s3 45⟩

def rejects (v : UInt64) : Bool := (v >>> 61) &&& 1 == 1

/-- The direction in the top two bits of a word. -/
def direction (v : UInt64) : Direction :=
  match (v >>> 62).toNat with
  | 0 => .left
  | 1 => .up
  | 2 => .right
  | _ => .down

/-- Draws a direction, passing over at most `bound` words. -/
def drawWithin : Nat → Xoshiro → Direction × Xoshiro
  | 0, g => (direction g.word, g.next)
  | bound + 1, g =>
    if rejects g.word then drawWithin bound g.next else (direction g.word, g.next)

/-- A search that has passed over a word for each of the generator's states will never end, so this
bound cuts no other search short. -/
instance : DirectionSource Xoshiro := ⟨drawWithin (Nat.pow 2 256)⟩

end Xoshiro

end Retrace
