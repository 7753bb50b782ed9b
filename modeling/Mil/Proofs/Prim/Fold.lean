import Mathlib.Algebra.Group.Int.Defs
import Mathlib.Algebra.Group.Nat.Defs
import Mathlib.Data.List.Basic
import Mil.Prim.Fold

/-!
Pure primitives as operations of the target. A word is carried in sixty-four bits, the target has only
as many bits as the word size, and the rules of evaluation cut some operands first and some results
after. All of it comes to one thing: what is computed on whole words, cut to the bits of the target, is
what bit vectors of that width compute on the bits of the operands, and it is given back as the signed
number that its bits stand for.
-/

namespace Mil

/-! ### Words as bit vectors -/

/-- The numbers of bits that words have. -/
def Width (n : Nat) : Prop := n = 32 ∨ n = 64

theorem Width.le {n : Nat} (hn : Width n) : n ≤ 64 := by
  rcases hn with rfl | rfl <;> decide

theorem Width.dvd {n : Nat} (hn : Width n) : 2 ^ n ∣ 2 ^ 64 := Nat.pow_dvd_pow 2 hn.le

namespace Word

variable {n : Nat} {x y : Word}

/-- The bits of a word that the target has. -/
def bits (n : Nat) (w : Word) : BitVec n := w.toBitVec.setWidth n

theorem bits_eq_ofInt (hn : Width n) (w : Word) : bits n w = BitVec.ofInt n w.toInt := by
  rcases hn with rfl | rfl
  · refine BitVec.toInt_inj.mp ?_
    rw [bits, BitVec.toInt_setWidth, BitVec.toInt_ofInt, Int64.toInt, BitVec.toInt_eq_toNat_bmod]
    exact (Int.bmod_bmod_of_dvd (by decide)).symm
  · rw [bits, BitVec.setWidth_eq]
    exact (BitVec.ofInt_toInt).symm

/-- What two words are modulo the target's bits decides their bits. -/
theorem bits_of_toInt (hn : Width n) {w : Word} {k : Int} (hw : w.toInt = k.bmod (2 ^ 64)) :
    bits n w = BitVec.ofInt n k := by
  refine BitVec.toInt_inj.mp ?_
  rw [bits_eq_ofInt hn, hw, BitVec.toInt_ofInt, BitVec.toInt_ofInt]
  exact Int.bmod_bmod_of_dvd hn.dvd

/-- A word that is cut to the word size is the number of its bits. -/
theorem toInt_normalize (hn : Width n) (w : Word) : (normalize n w).toInt = (bits n w).toInt := by
  rcases hn with rfl | rfl
  · show (w.toInt32.toInt64).toBitVec.toInt = _
    rw [Int32.toBitVec_toInt64, BitVec.toInt_signExtend_of_le (by decide), Int64.toBitVec_toInt32,
      BitVec.signExtend_eq_setWidth_of_le _ (by decide)]
    rfl
  · show w.toBitVec.toInt = _
    rw [bits, BitVec.setWidth_eq]

@[simp] theorem bits_normalize (hn : Width n) (w : Word) : bits n (normalize n w) = bits n w := by
  rw [bits_eq_ofInt hn, toInt_normalize hn, BitVec.ofInt_toInt]

/-- The constant that stands for a word is the number of its bits. -/
theorem ofInt_normalize (hn : Width n) (w : Word) :
    BitVec.ofInt n (normalize n w).toInt = bits n w := by
  rw [toInt_normalize hn, BitVec.ofInt_toInt]

theorem toNat_unsigned (hn : Width n) (w : Word) : (unsigned n w).toNat = (bits n w).toNat := by
  rcases hn with rfl | rfl
  · show (w.toInt32.toUInt32.toUInt64).toBitVec.toNat = _
    rw [UInt32.toBitVec_toUInt64, Int32.toBitVec_toUInt32, Int64.toBitVec_toInt32,
      BitVec.signExtend_eq_setWidth_of_le _ (by decide), BitVec.toNat_setWidth]
    exact Nat.mod_eq_of_lt (Nat.lt_trans (BitVec.isLt _) (by decide))
  · show w.toUInt64.toBitVec.toNat = _
    rw [Int64.toBitVec_toUInt64, bits, BitVec.setWidth_eq]

/-! ### Operations on words -/

theorem bits_add (hn : Width n) : bits n (x + y) = bits n x + bits n y := by
  rw [bits_of_toInt hn (Int64.toInt_add x y), BitVec.ofInt_add, ← bits_eq_ofInt hn, ← bits_eq_ofInt hn]

theorem bits_sub (hn : Width n) : bits n (x - y) = bits n x - bits n y := by
  rw [bits_of_toInt hn (Int64.toInt_sub x y), Int.sub_eq_add_neg, BitVec.ofInt_add, BitVec.ofInt_neg,
    ← bits_eq_ofInt hn, ← bits_eq_ofInt hn, BitVec.sub_eq_add_neg]

theorem bits_mul (hn : Width n) : bits n (x * y) = bits n x * bits n y := by
  rw [bits_of_toInt hn (Int64.toInt_mul x y), BitVec.ofInt_mul, ← bits_eq_ofInt hn, ← bits_eq_ofInt hn]

theorem bits_neg (hn : Width n) : bits n (-x) = -bits n x := by
  rw [bits_of_toInt hn (Int64.toInt_neg x), BitVec.ofInt_neg, ← bits_eq_ofInt hn]

theorem bits_not (hn : Width n) : bits n (~~~ x) = ~~~ bits n x := by
  unfold bits
  rw [Int64.toBitVec_not, BitVec.setWidth_not hn.le]

theorem bits_and : bits n (x &&& y) = bits n x &&& bits n y := by
  unfold bits
  rw [Int64.toBitVec_and, BitVec.setWidth_and]

theorem bits_or : bits n (x ||| y) = bits n x ||| bits n y := by
  unfold bits
  rw [Int64.toBitVec_or, BitVec.setWidth_or]

theorem bits_xor : bits n (x ^^^ y) = bits n x ^^^ bits n y := by
  unfold bits
  rw [Int64.toBitVec_xor, BitVec.setWidth_xor]

/-- A word has no bits exactly if cutting it to the word size leaves nothing. -/
theorem bits_eq_zero_iff (hn : Width n) : bits n x = 0 ↔ normalize n x = 0 := by
  constructor
  · intro hzero
    refine Int64.toInt_inj.mp ?_
    rw [toInt_normalize hn, hzero]
    exact BitVec.toInt_zero
  · intro hzero
    rw [← bits_normalize hn, hzero, bits_eq_ofInt hn]
    exact BitVec.ofInt_ofNat n 0

theorem bits_div (hn : Width n) :
    bits n (normalize n x / normalize n y) = (bits n x).sdiv (bits n y) := by
  rw [bits_of_toInt hn (Int64.toInt_div _ _), toInt_normalize hn, toInt_normalize hn]
  refine BitVec.toInt_inj.mp ?_
  rw [BitVec.toInt_ofInt, BitVec.toInt_sdiv]

theorem bits_mod (hn : Width n) :
    bits n (normalize n x % normalize n y) = (bits n x).srem (bits n y) := by
  rw [bits_eq_ofInt hn, Int64.toInt_mod, toInt_normalize hn, toInt_normalize hn, ← BitVec.toInt_srem,
    BitVec.ofInt_toInt]

theorem shiftAmount_eq (hn : Width n) (w : Word) : shiftAmount n w = (bits n w).toNat % n := by
  have hmask : shiftAmount n w = w.toBitVec.toNat % n := by
    rcases hn with rfl | rfl
    · exact Nat.and_two_pow_sub_one_eq_mod _ 5
    · exact Nat.and_two_pow_sub_one_eq_mod _ 6
  rw [hmask, bits, BitVec.toNat_setWidth]
  rcases hn with rfl | rfl
  · exact (Nat.mod_mod_of_dvd _ (by decide)).symm
  · exact (Nat.mod_mod_of_dvd _ (by decide)).symm

theorem shiftAmount_lt (hn : Width n) (w : Word) : shiftAmount n w < 64 := by
  rw [shiftAmount_eq hn]
  rcases hn with rfl | rfl
  · exact Nat.lt_trans (Nat.mod_lt _ (by decide)) (by decide)
  · exact Nat.mod_lt _ (by decide)

/-- A shift takes its count modulo the sixty-four bits that the word is carried in. -/
theorem smod_ofNat {k : Nat} (hk : k < 64) : ((Int64.ofNat k).toBitVec.smod 64).toNat = k := by
  have hall : ∀ k : Fin 64, ((Int64.ofNat k).toBitVec.smod 64).toNat = k := by decide
  exact hall ⟨k, hk⟩

theorem bits_shiftLeft (hn : Width n) :
    bits n (shiftLeft x (shiftAmount n y)) = bits n x <<< ((bits n y).toNat % n) := by
  have hlt := shiftAmount_lt hn y
  rw [shiftLeft, if_pos hlt, bits, Int64.toBitVec_shiftLeft, BitVec.shiftLeft_eq', smod_ofNat hlt,
    BitVec.setWidth_shiftLeft_of_le hn.le, shiftAmount_eq hn]
  rfl

theorem bits_shiftRight (hn : Width n) :
    bits n (shiftRight (normalize n x) (shiftAmount n y)) =
      (bits n x).sshiftRight ((bits n y).toNat % n) := by
  have hlt := shiftAmount_lt hn y
  rw [shiftRight, Nat.min_eq_left (Nat.le_of_lt_succ hlt), bits_eq_ofInt hn]
  have hint : (normalize n x >>> Int64.ofNat (shiftAmount n y)).toInt =
      (normalize n x).toInt >>> shiftAmount n y := by
    show (normalize n x >>> Int64.ofNat (shiftAmount n y)).toBitVec.toInt = _
    rw [Int64.toBitVec_shiftRight, BitVec.sshiftRight_eq', smod_ofNat hlt, BitVec.toInt_sshiftRight]
    rfl
  rw [hint, toInt_normalize hn, shiftAmount_eq hn, BitVec.sshiftRight_eq]

theorem bits_shiftRightUnsigned (hn : Width n) :
    bits n (shiftRightUnsigned (unsigned n x) (shiftAmount n y)).toInt64 =
      bits n x >>> ((bits n y).toNat % n) := by
  have hlt := shiftAmount_lt hn y
  have hnat : (shiftRightUnsigned (unsigned n x) (shiftAmount n y)).toNat =
      (bits n x).toNat >>> shiftAmount n y := by
    rw [shiftRightUnsigned, if_pos hlt, UInt64.toNat_shiftRight, toNat_unsigned hn,
      UInt64.toNat_ofNat', Nat.mod_eq_of_lt (Nat.lt_trans hlt (by decide)), Nat.mod_eq_of_lt hlt]
  refine BitVec.eq_of_toNat_eq ?_
  rw [bits, UInt64.toBitVec_toInt64, BitVec.toNat_setWidth, BitVec.toNat_ushiftRight,
    ← shiftAmount_eq hn]
  refine Eq.trans (congrArg (· % 2 ^ n) hnat) (Nat.mod_eq_of_lt ?_)
  exact Nat.lt_of_le_of_lt (Nat.shiftRight_le _ _) (BitVec.isLt _)

theorem normalize_eq_iff (hn : Width n) : normalize n x = normalize n y ↔ (bits n x).toInt = (bits n y).toInt := by
  rw [← Int64.toInt_inj, toInt_normalize hn, toInt_normalize hn]

theorem normalize_lt_iff (hn : Width n) : normalize n x < normalize n y ↔ (bits n x).toInt < (bits n y).toInt := by
  rw [Int64.lt_iff_toInt_lt, toInt_normalize hn, toInt_normalize hn]

theorem normalize_le_iff (hn : Width n) : normalize n x ≤ normalize n y ↔ (bits n x).toInt ≤ (bits n y).toInt := by
  rw [Int64.le_iff_toInt_le, toInt_normalize hn, toInt_normalize hn]

theorem unsigned_lt_iff (hn : Width n) :
    unsigned n x < unsigned n y ↔ ((bits n x).toNat : Int) < (bits n y).toNat := by
  rw [UInt64.lt_iff_toNat_lt, toNat_unsigned hn, toNat_unsigned hn, Int.ofNat_lt]

theorem unsigned_le_iff (hn : Width n) :
    unsigned n x ≤ unsigned n y ↔ ((bits n x).toNat : Int) ≤ (bits n y).toNat := by
  rw [UInt64.le_iff_toNat_le, toNat_unsigned hn, toNat_unsigned hn, Int.ofNat_le]

/-! ### Words of the target -/

/-- The word is one of the target's. -/
def InRange (n : Nat) (w : Word) : Prop := -2 ^ (n - 1) ≤ w.toInt ∧ w.toInt < 2 ^ (n - 1)

instance (n : Nat) (w : Word) : Decidable (InRange n w) := inferInstanceAs (Decidable (_ ∧ _))

/-- What is cut is a word of the target. -/
theorem inRange_normalize (hn : Width n) (w : Word) : InRange n (normalize n w) := by
  rw [InRange, toInt_normalize hn]
  exact ⟨BitVec.le_toInt _, BitVec.toInt_lt⟩

/-- Cutting leaves the words of the target alone, and no others. -/
theorem normalize_eq_self_iff (hn : Width n) (w : Word) : normalize n w = w ↔ InRange n w := by
  constructor
  · intro h
    rw [← h]
    exact inRange_normalize hn w
  · intro h
    have hpow : (2 : Int) ^ n = 2 * 2 ^ (n - 1) := by
      rcases hn with rfl | rfl <;> decide
    rw [← Int64.toInt_inj, toInt_normalize hn, bits_eq_ofInt hn, BitVec.toInt_ofInt]
    unfold InRange at h
    apply Int.bmod_eq_of_le_mul_two <;> push_cast <;> omega

/-- All words are words of sixty-four bits. -/
theorem inRange_sixtyFour (w : Word) : InRange 64 w := (normalize_eq_self_iff (.inr rfl) w).mp rfl

theorem bits_zero (n : Nat) : bits n 0 = 0 := by
  show (0#64).setWidth n = 0#n
  simp

theorem bits_one (hn : Width n) : bits n 1 = 1 := by
  rcases hn with rfl | rfl <;> decide

end Word

/-! ### Primitives on bit vectors -/

/-- What the target computes with: a word of its own size, or a truth value. -/
inductive Datum (n : Nat)
  | word (b : BitVec n)
  | flag (b : Bool)
deriving DecidableEq

namespace Datum

variable {n : Nat}

/-- The bits of a word; none is set in a truth value. -/
def bits : Datum n → BitVec n
  | .word b => b
  | .flag _ => 0

/-- The truth value; false for a word. -/
def truth : Datum n → Bool
  | .word _ => false
  | .flag b => b

/-- The literal that stands for a datum: the signed number of the bits, or the truth value. -/
def literal : Datum n → Literal
  | .word b => .word (Int64.ofInt b.toInt)
  | .flag b => .flag b

/-- One of the operands of an operation. -/
def operand (args : List (Datum n)) (i : Nat) : Datum n := (args[i]?).getD (.word 0)

end Datum

/-- A literal as the target has it: a word modulo the word size, or a truth value. -/
def Literal.reduce (n : Nat) : Literal → Datum n
  | .word w => .word (BitVec.ofInt n w.toInt)
  | .flag b => .flag b

/-- Do two literals agree modulo the word size? -/
def Literal.Agree (n : Nat) (l m : Literal) : Prop :=
  l.asFlag = m.asFlag ∧ l.asWord.toInt % 2 ^ n = m.asWord.toInt % 2 ^ n

/-- The operations of the target. Arithmetic goes round, shifts take their count modulo the number of
bits, a comparison reads the bits with or without sign, and a quotient is rounded towards zero and
then goes round. -/
def PrimOp.onBits? {n : Nat} (x y : Datum n) : PrimOp → Option (Datum n)
  | .not => some (.word (~~~ x.bits))
  | .neg => some (.word (-x.bits))
  | .and => some (.word (x.bits &&& y.bits))
  | .or => some (.word (x.bits ||| y.bits))
  | .xor => some (.word (x.bits ^^^ y.bits))
  | .shl => some (.word (x.bits <<< (y.bits.toNat % n)))
  | .lshr => some (.word (x.bits >>> (y.bits.toNat % n)))
  | .ashr => some (.word (x.bits.sshiftRight (y.bits.toNat % n)))
  | .add => some (.word (x.bits + y.bits))
  | .sub => some (.word (x.bits - y.bits))
  | .mul => some (.word (x.bits * y.bits))
  | .nzdiv =>
    if y.bits = 0 then none else some (.word (BitVec.ofInt n (x.bits.toInt.tdiv y.bits.toInt)))
  | .eq => some (.flag (x.bits = y.bits))
  | .neq => some (.flag (x.bits ≠ y.bits))
  | .slt => some (.flag (x.bits.toInt < y.bits.toInt))
  | .sle => some (.flag (x.bits.toInt ≤ y.bits.toInt))
  | .sgt => some (.flag (x.bits.toInt > y.bits.toInt))
  | .sge => some (.flag (x.bits.toInt ≥ y.bits.toInt))
  | .ult => some (.flag (x.bits.toNat < y.bits.toNat))
  | .ule => some (.flag (x.bits.toNat ≤ y.bits.toNat))
  | .ugt => some (.flag (x.bits.toNat > y.bits.toNat))
  | .uge => some (.flag (x.bits.toNat ≥ y.bits.toNat))
  | .bnot => some (.flag (!x.truth))
  | .band => some (.flag (x.truth && y.truth))
  | .bor => some (.flag (x.truth || y.truth))
  | .bxor => some (.flag (x.truth ≠ y.truth))
  | .beq => some (.flag (x.truth = y.truth))
  | .blt => some (.flag (x.truth < y.truth))
  | .ble => some (.flag (x.truth ≤ y.truth))
  | .bgt => some (.flag (x.truth > y.truth))
  | .bge => some (.flag (x.truth ≥ y.truth))
  | .flagToWord => some (.word (if x.truth then 1 else 0))
  | _ => none

section Reduced

open Word

variable {n : Nat} {op : PrimOp}

@[simp] theorem Literal.truth_reduce (l : Literal) : (l.reduce n).truth = l.asFlag := by
  cases l <;> rfl

theorem Literal.bits_reduce (hn : Width n) (l : Literal) : (l.reduce n).bits = Word.bits n l.asWord := by
  cases l with
  | word w => exact (bits_eq_ofInt hn w).symm
  | flag b =>
    rcases hn with rfl | rfl
    · rfl
    · rfl

theorem Literal.Agree.bits_eq {l m : Literal} (hn : Width n) (h : l.Agree n m) :
    (l.reduce n).bits = (m.reduce n).bits := by
  rw [bits_reduce hn, bits_reduce hn, bits_eq_ofInt hn, bits_eq_ofInt hn]
  refine BitVec.eq_of_toNat_eq ?_
  rw [BitVec.toNat_ofInt, BitVec.toNat_ofInt]
  exact congrArg Int.toNat (by exact_mod_cast h.2)

theorem Literal.Agree.truth_eq {l m : Literal} (h : l.Agree n m) :
    (l.reduce n).truth = (m.reduce n).truth := by
  rw [truth_reduce, truth_reduce, h.1]

/-- An operation of the target reads nothing of its operands but their bits and truth values. -/
theorem PrimOp.onBits?_congr {x y x' y' : Datum n} (hx : x.bits = x'.bits) (hy : y.bits = y'.bits)
    (fx : x.truth = x'.truth) (fy : y.truth = y'.truth) : op.onBits? x y = op.onBits? x' y' := by
  unfold onBits?
  rw [hx, hy, fx, fy]

/-- The operands of a reduced list are the reduced operands. -/
theorem Datum.operand_map (args : List Literal) (i : Nat) :
    operand (args.map (Literal.reduce n)) i = ((args[i]?).getD (.word 0)).reduce n := by
  rw [operand, List.getElem?_map]
  cases args[i]? with
  | some l => rfl
  | none => exact congrArg Datum.word (BitVec.ofInt_ofNat n 0).symm

/-- A word that is cut to the word size is the literal of its bits. -/
theorem literal_normalize (hn : Width n) {b : BitVec n} {w : Word} (hb : Word.bits n w = b) :
    some (Literal.word (normalize n w)) = some (Datum.literal (.word b)) := by
  rw [← hb, Datum.literal, ← toInt_normalize hn, Int64.ofInt_toInt]

/-- A truth value as a word of the target is zero or one. -/
theorem literal_ofBool (hn : Width n) (f : Bool) :
    some (Literal.word (if f then 1 else 0)) =
      some (Datum.literal (.word (if f then (1 : BitVec n) else 0))) := by
  rcases hn with rfl | rfl <;> cases f <;> rfl

/-- Evaluation of literals is the operation of the target on what the target has of them. -/
theorem PrimOp.eval?_reduce (hn : Width n) (op : PrimOp) (x y : Literal) :
    op.eval? n [x, y] = (op.onBits? (x.reduce n) (y.reduce n)).map Datum.literal := by
  unfold onBits?
  rw [Literal.bits_reduce hn, Literal.bits_reduce hn, Literal.truth_reduce, Literal.truth_reduce]
  have htruth : ∀ {f g : Bool}, f = g →
      some (Literal.flag f) = some (Datum.literal (n := n) (.flag g)) :=
    fun hfg => congrArg (fun b => some (Literal.flag b)) hfg
  have hflag : ∀ {P Q : Prop} [Decidable P] [Decidable Q], (P ↔ Q) →
      some (Literal.flag (decide P)) = some (Datum.literal (n := n) (.flag (decide Q))) :=
    fun hPQ => htruth (decide_eq_decide.mpr hPQ)
  cases op
  case not => exact literal_normalize hn (bits_not hn)
  case neg => exact literal_normalize hn (bits_neg hn)
  case and => exact literal_normalize hn bits_and
  case or => exact literal_normalize hn bits_or
  case xor => exact literal_normalize hn bits_xor
  case shl => exact literal_normalize hn (bits_shiftLeft hn)
  case lshr => exact literal_normalize hn (bits_shiftRightUnsigned hn)
  case ashr => exact literal_normalize hn (bits_shiftRight hn)
  case add => exact literal_normalize hn (bits_add hn)
  case sub => exact literal_normalize hn (bits_sub hn)
  case mul => exact literal_normalize hn (bits_mul hn)
  case nzdiv =>
    change Option.map _ (if normalize n y.asWord = 0 then none else some _) = Option.map _ (if _ then none else _)
    by_cases hy : Word.bits n y.asWord = 0
    · rw [if_pos hy, if_pos ((bits_eq_zero_iff hn).mp hy)]
      rfl
    · rw [if_neg hy, if_neg (mt (bits_eq_zero_iff hn).mpr hy)]
      refine literal_normalize hn ((bits_div (x := x.asWord) (y := y.asWord) hn).trans ?_)
      exact BitVec.toInt_inj.mp (by rw [BitVec.toInt_ofInt, BitVec.toInt_sdiv])
  case eq => exact hflag ((normalize_eq_iff hn).trans BitVec.toInt_inj)
  case neq => exact hflag (not_congr ((normalize_eq_iff hn).trans BitVec.toInt_inj))
  case slt => exact hflag (normalize_lt_iff hn)
  case sle => exact hflag (normalize_le_iff hn)
  case sgt => exact hflag (normalize_lt_iff hn)
  case sge => exact hflag (normalize_le_iff hn)
  case ult => exact hflag ((unsigned_lt_iff hn).trans Int.ofNat_lt)
  case ule => exact hflag ((unsigned_le_iff hn).trans Int.ofNat_le)
  case ugt => exact hflag ((unsigned_lt_iff hn).trans Int.ofNat_lt)
  case uge => exact hflag ((unsigned_le_iff hn).trans Int.ofNat_le)
  case flagToWord => exact literal_ofBool hn x.asFlag
  case bnot | band | bor => rfl
  case bxor => exact htruth ((by decide : ∀ f g : Bool, (f != g) = decide (f ≠ g)) _ _)
  case beq => exact htruth ((by decide : ∀ f g : Bool, (f == g) = decide (f = g)) _ _)
  case blt => exact htruth ((by decide : ∀ f g : Bool, (!f && g) = decide (f < g)) _ _)
  case ble => exact htruth ((by decide : ∀ f g : Bool, (!f || g) = decide (f ≤ g)) _ _)
  case bgt => exact htruth ((by decide : ∀ f g : Bool, (f && !g) = decide (f > g)) _ _)
  case bge => exact htruth ((by decide : ∀ f g : Bool, (f || !g) = decide (f ≥ g)) _ _)
  all_goals rfl

/-- An operation of the target that has a dual gives a truth value, and the dual gives its negation. -/
theorem PrimOp.onBits?_dual {d : PrimOp} (hd : op.dual? = some d) (x y : Datum n) :
    ∃ b, op.onBits? x y = some (.flag b) ∧ d.onBits? x y = some (.flag !b) := by
  have hneg : ∀ {P Q : Prop} [Decidable P] [Decidable Q], (Q ↔ ¬ P) →
      some (Datum.flag (n := n) (decide Q)) = some (Datum.flag (!decide P)) :=
    fun hQP => congrArg (fun b => some (Datum.flag b)) ((decide_eq_decide.mpr hQP).trans decide_not)
  cases op <;> cases hd <;> refine ⟨_, rfl, hneg ?_⟩
  case eq | beq => exact Iff.rfl
  case neq | bxor => exact not_not.symm
  case slt | sgt => exact Int.not_lt.symm
  case sle | sge => exact Int.not_le.symm
  case ult | ugt => exact Nat.not_lt.symm
  case ule | uge => exact Nat.not_le.symm
  case blt => exact (by decide : ∀ f g : Bool, f ≥ g ↔ ¬ f < g) _ _
  case ble => exact (by decide : ∀ f g : Bool, f > g ↔ ¬ f ≤ g) _ _
  case bgt => exact (by decide : ∀ f g : Bool, f ≤ g ↔ ¬ f > g) _ _
  case bge => exact (by decide : ∀ f g : Bool, f < g ↔ ¬ f ≥ g) _ _

/-- What has a dual compares, and so does the dual. -/
theorem PrimOp.purity_dual {d : PrimOp} (hd : op.dual? = some d) : d.purity = .pure := by
  cases op <;> cases hd <;> rfl

/-- The dual gives the other truth value, at every word size. -/
theorem PrimOp.eval?_dual {d : PrimOp} (hd : op.dual? = some d) (size : Int) (lits : List Literal) :
    ∃ b, op.eval? size lits = some (.flag b) ∧ d.eval? size lits = some (.flag (!b)) := by
  have hneg {P Q : Prop} [Decidable P] [Decidable Q] (h : Q ↔ ¬ P) : decide Q = !decide P :=
    (decide_eq_decide.mpr h).trans decide_not
  cases op <;> cases hd <;> refine ⟨_, rfl, congrArg (some ∘ Literal.flag) ?_⟩
  case eq => exact hneg Iff.rfl
  case neq => exact hneg not_not.symm
  case slt | sgt => exact hneg Int64.not_lt.symm
  case sle | sge => exact hneg Int64.not_le.symm
  case ult | ugt => exact hneg UInt64.not_lt.symm
  case ule | uge => exact hneg UInt64.not_le.symm
  all_goals
    generalize ((lits[0]?).getD (Literal.word 0)).asFlag = x, ((lits[1]?).getD (Literal.word 0)).asFlag = y
    revert x y
    decide

/-- A pure built-in operation gives nothing only if it divides by a word without bits. -/
theorem PrimOp.onBits?_eq_none_iff (hop : op ∈ builtins) (hpure : op.purity = .pure) {x y : Datum n} :
    op.onBits? x y = none ↔ op = .nzdiv ∧ y.bits = 0 := by
  cases op
  case nzdiv =>
    change (if _ then none else some _) = none ↔ _
    by_cases hy : y.bits = 0
    · rw [if_pos hy]
      exact ⟨fun _ => ⟨rfl, hy⟩, fun _ => rfl⟩
    · rw [if_neg hy]
      exact ⟨nofun, fun h => absurd h.2 hy⟩
  case user => exact absurd hop (by decide)
  all_goals first
    | exact ⟨fun h => absurd h (Option.some_ne_none _), fun h => nomatch h.1⟩
    | exact absurd hpure (by decide)

/-- A word of the target has no bits exactly if the word size divides the word. -/
theorem Literal.bits_reduce_eq_zero_iff (hn : Width n) (l : Literal) :
    (l.reduce n).bits = 0 ↔ (2 ^ n : Int) ∣ l.asWord.toInt := by
  rw [bits_reduce hn, bits_eq_ofInt hn, ← BitVec.toInt_inj, BitVec.toInt_ofInt]
  exact ⟨fun h => by exact_mod_cast Int.dvd_of_bmod_eq_zero (h.trans BitVec.toInt_zero),
    fun h => (Int.bmod_eq_zero_of_dvd (by exact_mod_cast h)).trans BitVec.toInt_zero.symm⟩

/-- Lists of operands that agree do so at every place. -/
theorem Literal.Agree.getD {args args' : List Literal} (h : List.Forall₂ (Agree n) args args') (i : Nat) :
    ((args[i]?).getD (.word 0)).Agree n ((args'[i]?).getD (.word 0)) := by
  induction h generalizing i with
  | nil => exact ⟨rfl, rfl⟩
  | cons hl _ ih =>
    cases i with
    | zero => exact hl
    | succ i => exact ih i

end Reduced

/-- **What pure primitives compute.** A pure primitive gives what the operation of the target of that
name gives on its operands modulo the word size: words come back as the signed numbers of their bits.
Nothing is given exactly if the operation divides and the divisor is zero modulo the word size; so
operands that agree modulo the word size give the same. If a primitive has a dual, both give a truth
value on every two operands, the dual the negation. -/
theorem Prim.fold?_modulo {n : Nat} (hn : Width n) {p : Prim} (hop : p.op ∈ PrimOp.builtins)
    (hpure : p.op.purity = .pure) (hp : p.purity = .pure) :
    (∀ args, p.fold? n args =
      (p.op.onBits? (Datum.operand (args.map (Literal.reduce n)) 0)
        (Datum.operand (args.map (Literal.reduce n)) 1)).map Datum.literal) ∧
    (∀ args, p.fold? n args = none ↔
      p.op = .nzdiv ∧ (2 ^ n : Int) ∣ ((args[1]?).getD (Literal.word 0)).asWord.toInt) ∧
    (∀ args args', List.Forall₂ (Literal.Agree n) args args' → p.fold? n args = p.fold? n args') ∧
    (∀ q, p.dual? = some q → ∀ x y, ∃ b,
      p.fold? n [x, y] = some (.flag b) ∧ q.fold? n [x, y] = some (.flag !b)) := by
  have hfold : ∀ {r : Prim} (_ : r.purity = .pure) (args : List Literal), r.fold? n args =
      (r.op.onBits? (((args[0]?).getD (Literal.word 0)).reduce n)
        (((args[1]?).getD (Literal.word 0)).reduce n)).map Datum.literal :=
    fun hr _ => (if_pos hr).trans (PrimOp.eval?_reduce hn _ _ _)
  refine ⟨?_, ?_, ?_, ?_⟩
  · intro args
    rw [Datum.operand_map, Datum.operand_map]
    exact hfold hp args
  · intro args
    rw [hfold hp, Option.map_eq_none_iff, PrimOp.onBits?_eq_none_iff hop hpure,
      Literal.bits_reduce_eq_zero_iff hn]
  · intro args args' hargs
    have hx := Literal.Agree.getD hargs 0
    have hy := Literal.Agree.getD hargs 1
    rw [hfold hp, hfold hp, PrimOp.onBits?_congr (hx.bits_eq hn) (hy.bits_eq hn) hx.truth_eq hy.truth_eq]
  · intro q hq x y
    obtain ⟨d, hd, rfl⟩ := Option.map_eq_some_iff.mp hq
    obtain ⟨b, hb, hnb⟩ := PrimOp.onBits?_dual hd (x.reduce n) (y.reduce n)
    have hd_pure : (builtin d).purity = .pure := PrimOp.purity_dual hd
    refine ⟨b, ?_, ?_⟩
    · exact (hfold hp [x, y]).trans (congrArg (Option.map Datum.literal) hb)
    · exact (hfold hd_pure [x, y]).trans (congrArg (Option.map Datum.literal) hnb)

/-- Words of thirty-two bits, with operands out of their range: the most negative word divided by
minus one goes round, a divisor of which only high bits are set is zero, and a comparison and its dual
read the low bits alike. -/
theorem Prim.fold?_outOfRange :
    (builtin .nzdiv).fold? 32 [.word 2147483648, .word 4294967295] = some (.word (-2147483648)) ∧
    (builtin .nzdiv).fold? 32 [.word 7, .word 4294967296] = none ∧
    (builtin .slt).fold? 32 [.word 4294967295, .word 1] = (builtin .slt).fold? 32 [.word (-1), .word 1] ∧
    ∃ b, (builtin .slt).fold? 32 [.word 4294967295, .word 1] = some (.flag b) ∧
      (builtin .sge).fold? 32 [.word 4294967295, .word 1] = some (.flag !b) := by
  have hdiv := fold?_modulo (p := builtin .nzdiv) (Or.inl rfl) (by decide) rfl rfl
  have hless := fold?_modulo (p := builtin .slt) (Or.inl rfl) (by decide) rfl rfl
  refine ⟨(hdiv.1 _).trans (by decide), (hdiv.2.1 _).mpr ⟨rfl, by decide⟩,
    hless.2.2.1 _ _ ?_, hless.2.2.2 _ rfl _ _⟩
  exact .cons ⟨rfl, by decide⟩ (.cons ⟨rfl, rfl⟩ .nil)

end Mil
