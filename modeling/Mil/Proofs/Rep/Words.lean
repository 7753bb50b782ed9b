import Mathlib.Data.Nat.Digits.Lemmas
import Mil.Proofs.Prim.Fold
import Mil.Rep.Types

/-!
Bit vectors as words. Words stand for the number of which their bits are the digits, the least significant
word first. A number below a power of two is cut into words of the target, which give it back, and no word
sets a bit that the vector does not have. On the digits, complement and negation of a number are
complement of the words, and complement with a carry that goes on as long as words are zero; what a mask
of the last word leaves is the number modulo the power of two.
-/

namespace Mil

variable {n : Nat}

theorem Width.pos (hn : Width n) : 0 < n := by
  rcases hn with rfl | rfl <;> decide

namespace Word

/-- The word of the target with these bits. -/
def ofBits (b : BitVec n) : Word := Int64.ofInt b.toInt

theorem ofBits_bits (hn : Width n) (w : Word) : ofBits (bits n w) = normalize n w := by
  rw [ofBits, ← toInt_normalize hn, Int64.ofInt_toInt]

@[simp] theorem bits_ofBits (hn : Width n) (b : BitVec n) : bits n (ofBits b) = b := by
  have hint : (ofBits b).toInt = b.toInt.bmod (2 ^ 64) := Int64.toInt_ofInt
  rw [bits_of_toInt hn hint, BitVec.ofInt_toInt]

theorem inRange_ofBits (hn : Width n) (b : BitVec n) : InRange n (ofBits b) := by
  rw [← normalize_eq_self_iff hn, ← ofBits_bits hn, bits_ofBits hn]

end Word

namespace Rep

open Word

/-! ### Numbers of words -/

/-- The number of which the bits of words are the digits. -/
def number (bs : List (BitVec n)) : Nat := Nat.ofDigits (2 ^ n) (bs.map BitVec.toNat)

@[simp] theorem number_nil : number ([] : List (BitVec n)) = 0 := rfl

@[simp] theorem number_cons (b : BitVec n) (bs : List (BitVec n)) :
    number (b :: bs) = b.toNat + 2 ^ n * number bs := Nat.ofDigits_cons ..

theorem number_append (bs cs : List (BitVec n)) :
    number (bs ++ cs) = number bs + 2 ^ (n * bs.length) * number cs := by
  rw [number, List.map_append, Nat.ofDigits_append, List.length_map, ← Nat.pow_mul]
  rfl

theorem number_lt (bs : List (BitVec n)) : number bs < 2 ^ (n * bs.length) := by
  induction bs with
  | nil => simp
  | cons b bs ih =>
      have hb := b.isLt
      rw [number_cons, List.length_cons, Nat.mul_succ, Nat.add_comm (n * bs.length), Nat.pow_add]
      calc b.toNat + 2 ^ n * number bs
          < 2 ^ n * (number bs + 1) := by rw [Nat.mul_succ]; omega
        _ ≤ 2 ^ n * 2 ^ (n * bs.length) := Nat.mul_le_mul_left _ ih

/-- Every number that is small enough has words. -/
theorem exists_number {k v : Nat} (hv : v < 2 ^ (n * k)) :
    ∃ bs : List (BitVec n), bs.length = k ∧ number bs = v := by
  induction k generalizing v with
  | zero =>
      rw [Nat.mul_zero, Nat.pow_zero, Nat.lt_one_iff] at hv
      exact ⟨[], rfl, hv.symm⟩
  | succ k ih =>
      have hrest : v / 2 ^ n < 2 ^ (n * k) := by
        rw [Nat.div_lt_iff_lt_mul (Nat.two_pow_pos n), ← Nat.pow_add, ← Nat.mul_succ]
        exact hv
      obtain ⟨bs, hlen, hnumber⟩ := ih hrest
      refine ⟨BitVec.ofNat n v :: bs, congrArg (· + 1) hlen, ?_⟩
      rw [number_cons, hnumber, BitVec.toNat_ofNat, Nat.mod_add_div]

/-- The low words of a number are those that it has. -/
theorem lowWords_number (hn : Width n) (bs : List (BitVec n)) :
    lowWords n bs.length (number bs) = bs.map ofBits := by
  induction bs with
  | nil => rfl
  | cons b bs ih =>
      have hlow : (number (b :: bs) : Int) % ((2 ^ n : Nat) : Int) = b.toNat := by
        rw [← Int.natCast_emod, number_cons, Nat.add_mul_mod_self_left, Nat.mod_eq_of_lt b.isLt]
      have hrest : (number (b :: bs) : Int) / ((2 ^ n : Nat) : Int) = number bs := by
        rw [← Int.natCast_ediv, number_cons, Nat.add_mul_div_left _ _ (Nat.two_pow_pos n),
          Nat.div_eq_of_lt b.isLt, Nat.zero_add]
      have hword : normalize n (Int64.ofInt b.toNat) = ofBits b := by
        rw [← ofBits_bits hn, bits_of_toInt hn Int64.toInt_ofInt, BitVec.ofInt_natCast,
          BitVec.ofNat_toNat, BitVec.setWidth_eq]
      rw [List.length_cons, lowWords, List.map_cons, ← ih, ← hword]
      show normalize n (Int64.ofInt (_ % ((2 ^ n : Nat) : Int))) ::
        lowWords n bs.length (_ / ((2 ^ n : Nat) : Int)) = _
      rw [hlow, hrest]

/-! ### Words of a vector -/

/-- The number of words of a vector of `w` bits. -/
theorem toNat_wordsFor (hn : Width n) (w : Nat) : (wordsFor n w).toNat = (w + n - 1) / n := by
  have hpos := Width.pos hn
  have hcast : (w : Int) + n - 1 = ((w + n - 1 : Nat) : Int) := by omega
  rw [wordsFor, hcast, Int.tdiv_eq_ediv_of_nonneg (Int.natCast_nonneg _), ← Int.natCast_ediv,
    Int.toNat_natCast]

/-- The words have room for the bits, and no more words than needed. -/
theorem le_mul_wordsFor (hn : Width n) (w : Nat) :
    w ≤ n * (wordsFor n w).toNat ∧ n * (wordsFor n w).toNat < w + n := by
  rw [toNat_wordsFor hn]
  rcases hn with rfl | rfl <;> omega

/-- Words of the right number are those of their number. -/
theorem splitWords_number (hn : Width n) {w : Nat} {bs : List (BitVec n)}
    (hlen : bs.length = (wordsFor n w).toNat) : splitWords n (number bs) w = bs.map ofBits := by
  rw [splitWords, ← hlen, Int.toNat_natCast]
  exact lowWords_number hn bs

/-- The words of a number below a power of two. -/
theorem exists_splitWords (hn : Width n) {v w : Nat} (hv : v < 2 ^ w) :
    ∃ bs : List (BitVec n), bs.length = (wordsFor n w).toNat ∧ number bs = v ∧
      splitWords n v w = bs.map ofBits := by
  have hroom : v < 2 ^ (n * (wordsFor n w).toNat) :=
    Nat.lt_of_lt_of_le hv (Nat.pow_le_pow_right (by decide) (le_mul_wordsFor hn w).1)
  obtain ⟨bs, hlen, rfl⟩ := exists_number hroom
  exact ⟨bs, hlen, rfl, splitWords_number hn hlen⟩

/-- A word contributes to the number as much as its bits are worth. -/
theorem getElem_mul_le_number {bs : List (BitVec n)} {i : Nat} {b : BitVec n} (hb : bs[i]? = some b) :
    b.toNat * 2 ^ (n * i) ≤ number bs := by
  induction bs generalizing i with
  | nil => cases hb
  | cons c bs ih =>
      rw [number_cons]
      cases i with
      | zero =>
          cases hb
          simp
      | succ i =>
          have hle := Nat.mul_le_mul_left (2 ^ n) (ih hb)
          rw [Nat.mul_left_comm, ← Nat.pow_add, Nat.add_comm n, ← Nat.mul_succ] at hle
          exact Nat.le_trans hle (Nat.le_add_left _ _)

/-- **Words of a vector.** A number that `w` bits hold is cut into as many words as `w` bits take. They
are words of the target, the sum of what their bits are worth is the number, and no bit from `w` on is
set. -/
theorem splitWords_spec (hn : Width n) {v w : Nat} (hv : v < 2 ^ w) :
    (splitWords n v w).length = (w + n - 1) / n ∧
    (∀ x ∈ splitWords n v w, InRange n x) ∧
    ((splitWords n v w).mapIdx fun i x => (unsigned n x).toNat * 2 ^ (n * i)).sum = v ∧
    ∀ (i : Nat) (x : Word), (splitWords n v w)[i]? = some x →
      ∀ j, w ≤ n * i + j → (unsigned n x).toNat.testBit j = false := by
  obtain ⟨bs, hlen, hnumber, hsplit⟩ := exists_splitWords hn hv
  have hunsigned (b : BitVec n) : (unsigned n (ofBits b)).toNat = b.toNat := by
    rw [toNat_unsigned hn, bits_ofBits hn]
  rw [hsplit]
  refine ⟨?_, ?_, ?_, ?_⟩
  · rw [List.length_map, hlen, toNat_wordsFor hn]
  · intro x hx
    obtain ⟨b, -, rfl⟩ := List.mem_map.mp hx
    exact inRange_ofBits hn b
  · have hdigits : (bs.map ofBits).mapIdx (fun i x => (unsigned n x).toNat * 2 ^ (n * i)) =
        (bs.map BitVec.toNat).mapIdx fun i d => d * (2 ^ n) ^ i := by
      apply List.ext_getElem?
      intro i
      simp only [List.getElem?_mapIdx, List.getElem?_map, Option.map_map, Function.comp_def, hunsigned,
        Nat.pow_mul]
    rw [hdigits, ← Nat.ofDigits_eq_sum_mapIdx]
    exact hnumber
  · intro i x hx j hj
    rw [List.getElem?_map] at hx
    obtain ⟨b, hb, rfl⟩ := Option.map_eq_some_iff.mp hx
    rw [hunsigned]
    by_contra hset
    have hbit : 2 ^ j ≤ b.toNat := Nat.ge_two_pow_of_testBit (Bool.eq_true_of_not_eq_false hset)
    have hworth : 2 ^ j * 2 ^ (n * i) < 2 ^ w :=
      Nat.lt_of_le_of_lt (Nat.mul_le_mul_right _ hbit)
        (Nat.lt_of_le_of_lt (getElem_mul_le_number hb) (hnumber ▸ hv))
    rw [← Nat.pow_add] at hworth
    have hlt := (Nat.pow_lt_pow_iff_right (by decide)).mp hworth
    omega

/-! ### Complement and negation -/

/-- A number and that of the complements of its words make up all that the words can hold. -/
theorem number_not (bs : List (BitVec n)) :
    number (bs.map (~~~ ·)) + number bs + 1 = 2 ^ (n * bs.length) := by
  induction bs with
  | nil => rfl
  | cons b bs ih =>
      have hb := b.isLt
      have hword : (~~~ b).toNat + b.toNat + 1 = 2 ^ n := by
        rw [BitVec.toNat_not]
        omega
      calc number ((b :: bs).map (~~~ ·)) + number (b :: bs) + 1
          = ((~~~ b).toNat + b.toNat + 1) + 2 ^ n * (number (bs.map (~~~ ·)) + number bs) := by
            rw [List.map_cons, number_cons, number_cons]
            ring
        _ = 2 ^ n * (number (bs.map (~~~ ·)) + number bs + 1) := by
            rw [hword]
            ring
        _ = 2 ^ (n * (b :: bs).length) := by
            rw [ih, ← Nat.pow_add, List.length_cons, Nat.mul_succ, Nat.add_comm]

/-- One word of a negation: the complement, and one more if there is a carry. -/
def negated (carry : Bool) (b : BitVec n) : BitVec n := ~~~ b + if carry then 1 else 0

/-- The words of a negation. The carry goes on as long as words are zero. -/
def negatedAll : Bool → List (BitVec n) → List (BitVec n)
  | _, [] => []
  | carry, b :: bs => negated carry b :: negatedAll (carry && b == 0) bs

/-- What a carry is worth. -/
def worth (carry : Bool) (unit : Nat) : Nat := if carry then unit else 0

/-- A word and its negation, with the carries that come in and go out. -/
theorem toNat_negated (carry : Bool) (b : BitVec n) :
    (negated carry b).toNat + b.toNat + 1 + worth (carry && b == 0) (2 ^ n) =
      worth carry 1 + 2 ^ n := by
  have hb := b.isLt
  cases carry with
  | false =>
      simp only [negated, worth, Bool.false_and, Bool.false_eq_true, if_false, BitVec.ofNat_eq_ofNat,
        BitVec.add_zero, BitVec.toNat_not]
      omega
  | true =>
      have hneg : negated true b = -b := (BitVec.neg_eq_not_add b).symm
      simp only [hneg, worth, Bool.true_and, if_true, beq_iff_eq, BitVec.toNat_neg]
      by_cases hzero : b = 0
      · subst hzero
        simp
      · have hpos : b.toNat ≠ 0 := fun h => hzero (BitVec.eq_of_toNat_eq h)
        rw [if_neg hzero, Nat.mod_eq_of_lt (by omega)]
        omega

theorem worth_mul (carry : Bool) (x y : Nat) : x * worth carry y = worth carry (x * y) := by
  cases carry <;> simp [worth]

/-- A number and its negation, with the carries that come in and go out. -/
theorem number_negatedAll (carry : Bool) (bs : List (BitVec n)) :
    number (negatedAll carry bs) + number bs + 1 +
        worth (carry && bs.all (· == 0)) (2 ^ (n * bs.length)) =
      worth carry 1 + 2 ^ (n * bs.length) := by
  induction bs generalizing carry with
  | nil => cases carry <;> rfl
  | cons b bs ih =>
      have hword := toNat_negated carry b
      have hrest := ih (carry && b == 0)
      have hpow : 2 ^ (n * (b :: bs).length) = 2 ^ n * 2 ^ (n * bs.length) := by
        rw [← Nat.pow_add, List.length_cons, Nat.mul_succ, Nat.add_comm]
      have hone : worth (carry && b == 0) (2 ^ n) = 2 ^ n * worth (carry && b == 0) 1 := by
        rw [worth_mul, Nat.mul_one]
      rw [negatedAll, number_cons, number_cons, hpow, ← worth_mul, List.all_cons, ← Bool.and_assoc]
      rw [hone] at hword
      have hscaled := congrArg (2 ^ n * ·) hrest
      simp only [Nat.mul_add, Nat.mul_one] at hscaled
      omega

theorem length_negatedAll (carry : Bool) (bs : List (BitVec n)) :
    (negatedAll carry bs).length = bs.length := by
  induction bs generalizing carry with
  | nil => rfl
  | cons b bs ih => exact congrArg (· + 1) (ih _)

/-- Negation with a carry is negation modulo what the words can hold. -/
theorem number_negatedAll_true (bs : List (BitVec n)) :
    number (negatedAll true bs) = (2 ^ (n * bs.length) - number bs) % 2 ^ (n * bs.length) := by
  have hsum := number_negatedAll true bs
  have hlt := number_lt bs
  have hneg := number_lt (negatedAll true bs)
  rw [length_negatedAll] at hneg
  rw [Bool.true_and] at hsum
  cases hzero : bs.all (· == 0) with
  | true =>
      rw [hzero] at hsum
      simp only [worth, if_true] at hsum
      have hnumber : number bs = 0 := by omega
      rw [hnumber, Nat.sub_zero, Nat.mod_self]
      omega
  | false =>
      rw [hzero] at hsum
      simp only [worth, if_true, Bool.false_eq_true, if_false] at hsum
      rw [Nat.mod_eq_of_lt (by omega)]
      omega

section Modulo

variable {bs : List (BitVec n)} {w : Nat}

/-- What the words can hold is a multiple of what fewer bits can hold. -/
theorem exists_two_pow_eq (hw : w ≤ n * bs.length) :
    ∃ k, 2 ^ (n * bs.length) = 2 ^ w * k + 2 ^ w := by
  have hpos := Nat.two_pow_pos (n * bs.length - w)
  refine ⟨2 ^ (n * bs.length - w) - 1, ?_⟩
  rw [← Nat.mul_succ, Nat.succ_eq_add_one, Nat.sub_add_cancel hpos, ← Nat.pow_add,
    Nat.add_sub_cancel' hw]

/-- Complement of the words is complement of the bits in use. -/
theorem number_not_mod (hw : w ≤ n * bs.length) (hx : number bs < 2 ^ w) :
    number (bs.map (~~~ ·)) % 2 ^ w = 2 ^ w - 1 - number bs := by
  have hsum := number_not bs
  obtain ⟨k, hk⟩ := exists_two_pow_eq hw
  have hnot : number (bs.map (~~~ ·)) = 2 ^ w * k + (2 ^ w - 1 - number bs) := by omega
  rw [hnot, Nat.mul_add_mod, Nat.mod_eq_of_lt (by omega)]

/-- Negation of the words is negation modulo what the bits in use can hold. -/
theorem number_negatedAll_mod (hw : w ≤ n * bs.length) (hx : number bs < 2 ^ w) :
    number (negatedAll true bs) % 2 ^ w = (2 ^ w - number bs) % 2 ^ w := by
  obtain ⟨k, hk⟩ := exists_two_pow_eq hw
  have hneg : 2 ^ (n * bs.length) - number bs = 2 ^ w * k + (2 ^ w - number bs) := by omega
  rw [number_negatedAll_true, Nat.mod_mod_of_dvd _ (Nat.pow_dvd_pow 2 hw), hneg, Nat.mul_add_mod]

end Modulo

/-! ### Masks -/

/-- A mask of the low bits. -/
def lowMask (n r : Nat) : BitVec n := BitVec.ofNat n (2 ^ r - 1)

theorem toNat_and_lowMask {r : Nat} (hr : r ≤ n) (b : BitVec n) :
    (b &&& lowMask n r).toNat = b.toNat % 2 ^ r := by
  have hpos := Nat.two_pow_pos r
  have hle : 2 ^ r ≤ 2 ^ n := Nat.pow_le_pow_right (by decide) hr
  rw [BitVec.toNat_and, lowMask, BitVec.toNat_ofNat, Nat.mod_eq_of_lt (by omega),
    Nat.and_two_pow_sub_one_eq_mod]

/-- A mask of the last word leaves the number modulo a power of two. -/
theorem number_mask {r : Nat} (hr : r ≤ n) (bs : List (BitVec n)) (b : BitVec n) :
    number (bs ++ [b &&& lowMask n r]) = number (bs ++ [b]) % 2 ^ (n * bs.length + r) := by
  rw [number_append, number_append, Nat.pow_add, Nat.mod_mul, Nat.add_mul_mod_self_left,
    Nat.mod_eq_of_lt (number_lt bs), Nat.add_mul_div_left _ _ (Nat.two_pow_pos _),
    Nat.div_eq_of_lt (number_lt bs), Nat.zero_add]
  simp [toNat_and_lowMask hr]

/-- The mask of the compiler. -/
theorem bits_mask (hn : Width n) {r : Nat} (hr : r < n) :
    bits n (shiftLeft 1 (Int64.ofInt r).toUInt64.toNat - 1) = lowMask n r := by
  have hall : (∀ r : Fin 32, bits 32 (shiftLeft 1 (Int64.ofInt (r : Nat)).toUInt64.toNat - 1) =
      lowMask 32 r) ∧ ∀ r : Fin 64, bits 64 (shiftLeft 1 (Int64.ofInt (r : Nat)).toUInt64.toNat - 1) =
      lowMask 64 r := by decide
  rcases hn with rfl | rfl
  · exact hall.1 ⟨r, hr⟩
  · exact hall.2 ⟨r, hr⟩

end Rep

end Mil
