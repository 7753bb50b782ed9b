/-!
Machine words. A word is carried in sixty-four bits whatever the target's word size; an operation
cuts its result to the target by sign extension from the target's width. Only thirty-two bits are
cut to: every other size keeps the whole word.
-/

namespace Mil

abbrev Word := Int64

namespace Word

/-- The word that agrees with `w` on the target's bits and is sign-extended from them. -/
def normalize (size : Int) (w : Word) : Word :=
  if size = 32 then w.toInt32.toInt64 else w

/-- The target's bits of `w` as an unsigned number. -/
def unsigned (size : Int) (w : Word) : UInt64 :=
  if size = 32 then w.toInt32.toUInt32.toUInt64 else w.toUInt64

/-- The number of places a shift by `w` moves: `w` masked by the word size less one. -/
def shiftAmount (size : Int) (w : Word) : Nat :=
  (w.toUInt64 &&& (Int64.ofInt (size - 1)).toUInt64).toNat

/-- Shift to the left; all bits are lost from sixty-four places on. -/
def shiftLeft (w : Word) (places : Nat) : Word :=
  if places < 64 then w <<< Int64.ofNat places else 0

def shiftRight (w : Word) (places : Nat) : Word :=
  w >>> Int64.ofNat (min places 63)

def shiftRightUnsigned (w : UInt64) (places : Nat) : UInt64 :=
  if places < 64 then w >>> UInt64.ofNat places else 0

def render (w : Word) : String :=
  toString w.toInt

end Word

end Mil
