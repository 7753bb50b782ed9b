import Mil.Optimize.Simplify
import Mil.Proofs.Machine.Evaluate
import Mil.Proofs.Machine.Operate
import Mil.Proofs.Prim.Fold

/-!
Arithmetic with a neutral operand. Simplification puts the other operand in place of the call, while
the machine cuts what it computes to the bits of the target. So both come to the same exactly if that
operand is one of the target's words already.
-/

namespace Mil

variable {n : Nat}

/-! ### Neutral operands -/

/-- With this word on the right, an operation gives what it has on the left. -/
def PrimOp.RightNeutral (n : Nat) (op : PrimOp) (c : Word) : Prop :=
  ∀ w : Word, op.eval? n [.word w, .word c] = some (.word (Word.normalize n w))

/-- With this word on the left, an operation gives what it has on the right. -/
def PrimOp.LeftNeutral (n : Nat) (op : PrimOp) (c : Word) : Prop :=
  ∀ w : Word, op.eval? n [.word c, .word w] = some (.word (Word.normalize n w))

section Neutral

variable {op : PrimOp}

theorem PrimOp.eval?_of_bits (hn : Width n) {x y w : Word}
    (h : op.onBits? ((Literal.word x).reduce n) ((Literal.word y).reduce n) =
      some (.word (Word.bits n w))) :
    op.eval? n [.word x, .word y] = some (.word (Word.normalize n w)) := by
  rw [eval?_reduce hn, h]
  exact (literal_normalize hn rfl).symm

/-- Zero on the right is neutral for sums, differences, shifts and bitwise operations. -/
theorem PrimOp.rightNeutral_zero (hn : Width n)
    (hop : op ∈ [.add, .or, .xor, .sub, .shl, .lshr, .ashr]) : op.RightNeutral n 0 := by
  intro w
  apply eval?_of_bits hn
  have hx : ((Literal.word w).reduce n).bits = Word.bits n w := Literal.bits_reduce hn _
  have hy : ((Literal.word 0).reduce n).bits = 0 :=
    (Literal.bits_reduce hn _).trans (Word.bits_zero n)
  simp only [List.mem_cons, List.not_mem_nil, or_false] at hop
  rcases hop with rfl | rfl | rfl | rfl | rfl | rfl | rfl <;> simp [PrimOp.onBits?, hx, hy]

/-- Zero on the left is neutral for sums and bitwise operations. -/
theorem PrimOp.leftNeutral_zero (hn : Width n) (hop : op ∈ [.add, .or, .xor]) :
    op.LeftNeutral n 0 := by
  intro w
  apply eval?_of_bits hn
  have hx : ((Literal.word 0).reduce n).bits = 0 :=
    (Literal.bits_reduce hn _).trans (Word.bits_zero n)
  have hy : ((Literal.word w).reduce n).bits = Word.bits n w := Literal.bits_reduce hn _
  simp only [List.mem_cons, List.not_mem_nil, or_false] at hop
  rcases hop with rfl | rfl | rfl <;> simp [PrimOp.onBits?, hx, hy]

/-- One is neutral for products, on either side. -/
theorem PrimOp.neutral_one (hn : Width n) :
    PrimOp.mul.RightNeutral n 1 ∧ PrimOp.mul.LeftNeutral n 1 := by
  have hbits (w : Word) : ((Literal.word w).reduce n).bits = Word.bits n w := Literal.bits_reduce hn _
  constructor <;> intro w <;> apply eval?_of_bits hn <;>
    simp [PrimOp.onBits?, hbits, Word.bits_one hn]

namespace Optimize.Simplify

theorem eq_of_right {c x y a : Atom} (h : (if y = c then some x else none) = some a) :
    y = c ∧ a = x := by
  split at h
  · exact ⟨‹y = c›, (Option.some.inj h).symm⟩
  · cases h

theorem eq_of_either {c x y a : Atom}
    (h : (if y = c then some x else if x = c then some y else none) = some a) :
    (y = c ∧ a = x) ∨ (x = c ∧ a = y) := by
  split at h
  · exact .inl ⟨‹y = c›, (Option.some.inj h).symm⟩
  · exact .inr (eq_of_right h)

/-- Where simplification finds a neutral operand, it is one, and the other operand is what stays. -/
theorem neutral?_spec (hn : Width n) {x y a : Atom} (h : neutral? op x y = some a) :
    (∃ c, y = .word c ∧ a = x ∧ op.RightNeutral n c) ∨
      ∃ c, x = .word c ∧ a = y ∧ op.LeftNeutral n c := by
  unfold neutral? at h
  split at h
  case h_1 | h_2 | h_3 =>
    rcases eq_of_either h with ⟨hc, ha⟩ | ⟨hc, ha⟩
    · exact .inl ⟨0, hc, ha, PrimOp.rightNeutral_zero hn (by decide)⟩
    · exact .inr ⟨0, hc, ha, PrimOp.leftNeutral_zero hn (by decide)⟩
  case h_4 | h_5 | h_6 | h_7 =>
    obtain ⟨hc, ha⟩ := eq_of_right h
    exact .inl ⟨0, hc, ha, PrimOp.rightNeutral_zero hn (by decide)⟩
  case h_8 =>
    rcases eq_of_either h with ⟨hc, ha⟩ | ⟨hc, ha⟩
    · exact .inl ⟨1, hc, ha, (PrimOp.neutral_one hn).1⟩
    · exact .inr ⟨1, hc, ha, (PrimOp.neutral_one hn).2⟩
  case h_9 => cases h

theorem byRule_of_neutral? {x y a : Atom} (h : neutral? op x y = some a) : Machine.ByRule op := by
  unfold neutral? at h
  split at h
  case h_9 => cases h
  all_goals decide

theorem identity?_inv {q : Prim} {args : List Atom} {a : Atom} (h : identity? q args = some a) :
    q.purity = .pure ∧ ∃ x y, args = [x, y] ∧ neutral? q.op x y = some a := by
  unfold identity? at h
  split at h
  · exact ⟨‹_›, _, _, rfl, h⟩
  · cases h

/-- What a call with a neutral operand gives. -/
theorem operate_of_identity? (hn : Width n) {m : Machine} (hm : m.size = n) {p : Program}
    {env : Machine.Locals} {q : Prim} {args : List Atom} {inst : Option BlockType} {a : Atom} {w : Word}
    (h : identity? q args = some a) (ha : Machine.atom p m env a = .ok (.word w)) :
    Machine.operate p m env (.prim q args inst) = .ok (.values [.word (Word.normalize n w)], m) := by
  obtain ⟨hpure, x, y, rfl, hneutral⟩ := identity?_inv h
  obtain ⟨lits, hargs, hl⟩ : ∃ lits : List Literal,
      Machine.atoms p m env [x, y] = .ok (lits.map .ofLit) ∧
      q.op.eval? m.size lits = some (.word (Word.normalize n w)) := by
    rw [hm]
    rcases neutral?_spec hn hneutral with ⟨c, rfl, rfl, hc⟩ | ⟨c, rfl, rfl, hc⟩
    · exact ⟨[.word w, .word c], Machine.atoms_eq_ok.mpr (.cons ha (.cons rfl .nil)), hc w⟩
    · exact ⟨[.word c, .word w], Machine.atoms_eq_ok.mpr (.cons rfl (.cons ha .nil)), hc w⟩
  exact Machine.operate_byRule (byRule_of_neutral? hneutral) hpure hargs hl

/-- **Neutral operands.** On a machine whose words have thirty-two or sixty-four bits, let simplification
put an operand in place of a call with a neutral operand, and let the value of that operand be any word.
The call gives the word cut to the word size, the operand gives it as it is. So the two agree on the words
of the target and on no others; with sixty-four bits they always agree. -/
theorem identity?_evaluates (hn : Width n) {m : Machine} (hm : m.size = n) {p : Program}
    {env : Machine.Locals} {q : Prim} {args : List Atom} {inst : Option BlockType} {a : Atom} {w : Word}
    (h : identity? q args = some a) (ha : Machine.atom p m env a = .ok (.word w)) :
    Machine.operate p m env (.prim q args inst) = .ok (.values [.word (Word.normalize n w)], m) ∧
    Machine.operate p m env (.ret [a]) = .ok (.values [.word w], m) ∧
    (Machine.operate p m env (.ret [a]) = Machine.operate p m env (.prim q args inst) ↔
      Word.InRange n w) ∧
    (n = 64 → Machine.operate p m env (.ret [a]) = Machine.operate p m env (.prim q args inst)) := by
  have hcall : Machine.operate p m env (.prim q args inst) =
      .ok (.values [.word (Word.normalize n w)], m) := operate_of_identity? hn hm h ha
  have hret : Machine.operate p m env (.ret [a]) = .ok (.values [.word w], m) := by
    unfold Machine.operate
    dsimp only
    rw [Machine.atoms_eq_ok.mpr (.cons ha .nil)]
    rfl
  have hagree : Machine.operate p m env (.ret [a]) = Machine.operate p m env (.prim q args inst) ↔
      Word.InRange n w := by
    rw [hcall, hret, ← Word.normalize_eq_self_iff hn]
    simp [eq_comm]
  refine ⟨hcall, hret, hagree, fun h64 => hagree.mpr ?_⟩
  subst h64
  exact Word.inRange_sixtyFour w

/-- With thirty-two bits, the sum of zero and the word that has only the bit above them is zero. -/
theorem identity?_overflow :
    identity? (.builtin .add) [.temp 0, .word 0] = some (.temp 0) ∧
    Machine.operate .empty (.new 32 0) [(0, .word 4294967296)]
        (.prim (.builtin .add) [.temp 0, .word 0] none) = .ok (.values [.word 0], .new 32 0) ∧
    Machine.operate .empty (.new 32 0) [(0, .word 4294967296)] (.ret [.temp 0]) =
      .ok (.values [.word 4294967296], .new 32 0) := ⟨rfl, rfl, rfl⟩

/-- The product of one and the largest word of the target, and that of one and the next number. -/
theorem identity?_largest :
    identity? (.builtin .mul) [.word 1, .temp 0] = some (.temp 0) ∧
    Machine.operate .empty (.new 32 0) [(0, .word 2147483647)] (.ret [.temp 0]) =
      Machine.operate .empty (.new 32 0) [(0, .word 2147483647)]
        (.prim (.builtin .mul) [.word 1, .temp 0] none) ∧
    Machine.operate .empty (.new 32 0) [(0, .word 2147483648)] (.ret [.temp 0]) ≠
      Machine.operate .empty (.new 32 0) [(0, .word 2147483648)]
        (.prim (.builtin .mul) [.word 1, .temp 0] none) := by
  have hidentity : identity? (.builtin .mul) [.word 1, .temp 0] = some (.temp 0) := rfl
  have hread (w : Word) : Machine.atom .empty (.new 32 0) [(0, .word w)] (.temp 0) = .ok (.word w) := rfl
  have hagree (w : Word) : Machine.operate .empty (.new 32 0) [(0, .word w)] (.ret [.temp 0]) =
      Machine.operate .empty (.new 32 0) [(0, .word w)] (.prim (.builtin .mul) [.word 1, .temp 0] none) ↔
        Word.InRange 32 w :=
    (identity?_evaluates (.inl rfl) rfl hidentity (hread w)).2.2.1
  exact ⟨hidentity, (hagree 2147483647).mpr (by decide), mt (hagree 2147483648).mp (by decide)⟩

end Optimize.Simplify

end Neutral

end Mil
