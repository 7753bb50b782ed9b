import Mil.Proofs.Prim.Fold
import Mil.Proofs.Rtl.Passes
import Mil.Proofs.Rtl.Semantics
import Mil.Proofs.Rtl.WordLevel
import Mil.Rtl.Builder
import Mil.Rtl.Body

/-!
How values are carried by words. A word is its bits and a truth value zero or one; a closure is a
record of the symbol of its code and of what it stores, a data value one of the number of its
constructor and of its fields. Records only become more, so what is carried stays carried.
What the machine computes with a primitive is what the operation that the primitive is translated to
computes on the bits of the operands.
-/

namespace Mil

/-! ### Operations on bits -/

/-- The bits of a literal: those of a word, or a truth value as zero or one. -/
def Literal.bits (n : Nat) : Literal → BitVec n
  | .word w => Word.bits n w
  | .flag b => Rtl.flagBits n b

namespace Rtl

open Word

variable {n : Nat} {op : PrimOp} {o : Operation} {l : Literal}

/-- A literal in a register. -/
def Val.ofLit (n : Nat) (l : Literal) : Val n := .word (l.bits n)

/-- A word that is cut to the word size stands for its bits. -/
theorem ofLit_normalize (hn : Width n) {b : BitVec n} {w : Word} (hb : bits n w = b) :
    some (Val.word b) = some (Val.ofLit n (.word (normalize n w))) := by
  rw [← hb, Val.ofLit, Literal.bits, bits_normalize hn]

/-- The operation of a primitive on two words. -/
theorem eval_words (hn : Width n) (ho : Operation.ofPrim? op = some o)
    (htype : op.wordType.dom = .tuple [.word, .word]) {x y : Word}
    (hl : op.eval? n [.word x, .word y] = some l) :
    o.eval [Val.ofLit n (.word x), Val.ofLit n (.word y)] = some (Val.ofLit n l) := by
  have hflag : ∀ {P Q : Prop} [Decidable P] [Decidable Q], (P ↔ Q) →
      some (Val.word (flagBits n (decide Q))) = some (Val.ofLit n (.flag (decide P))) := by
    intro P Q _ _ hPQ
    rw [Val.ofLit, Literal.bits, decide_eq_decide.mpr hPQ]
  cases op <;> cases htype <;> cases ho
  case and => cases hl; exact ofLit_normalize hn bits_and
  case or => cases hl; exact ofLit_normalize hn bits_or
  case xor => cases hl; exact ofLit_normalize hn bits_xor
  case shl => cases hl; exact ofLit_normalize hn (bits_shiftLeft hn)
  case lshr => cases hl; exact ofLit_normalize hn (bits_shiftRightUnsigned hn)
  case ashr => cases hl; exact ofLit_normalize hn (bits_shiftRight hn)
  case add => cases hl; exact ofLit_normalize hn (bits_add hn)
  case sub => cases hl; exact ofLit_normalize hn (bits_sub hn)
  case mul => cases hl; exact ofLit_normalize hn (bits_mul hn)
  case div => cases hl
  case rem => cases hl
  case nzdiv =>
      obtain ⟨w, hw, rfl⟩ := Option.map_eq_some_iff.mp hl
      change (if normalize n y = 0 then none else some (normalize n x / normalize n y)) = some w at hw
      split at hw
      · cases hw
      · rename_i hy
        cases hw
        exact (congrArg (Option.map Val.word) (if_neg (mt (bits_eq_zero_iff hn).mp hy))).trans (ofLit_normalize hn (bits_div hn))
  case eq => cases hl; exact hflag (normalize_eq_iff hn)
  case neq => cases hl; exact hflag (not_congr (normalize_eq_iff hn))
  case slt => cases hl; exact hflag (normalize_lt_iff hn)
  case sle => cases hl; exact hflag (normalize_le_iff hn)
  case sgt => cases hl; exact hflag (normalize_lt_iff hn)
  case sge => cases hl; exact hflag (normalize_le_iff hn)
  case ult => cases hl; exact hflag (unsigned_lt_iff hn)
  case ule => cases hl; exact hflag (unsigned_le_iff hn)
  case ugt => cases hl; exact hflag (unsigned_lt_iff hn)
  case uge => cases hl; exact hflag (unsigned_le_iff hn)

/-- The operation of a primitive on one word. -/
theorem eval_word (hn : Width n) (ho : Operation.ofPrim? op = some o)
    (htype : op.wordType.dom = .tuple [.word]) {x : Word} (hl : op.eval? n [.word x] = some l) :
    o.eval [Val.ofLit n (.word x)] = some (Val.ofLit n l) := by
  cases op <;> cases htype <;> cases ho
  case not => cases hl; exact ofLit_normalize hn (bits_not hn)
  case neg => cases hl; exact ofLit_normalize hn (bits_neg hn)

/-- The operation of a primitive on two truth values. -/
theorem eval_flags (hn : Width n) (ho : Operation.ofPrim? op = some o)
    (htype : op.wordType.dom = .tuple [.flag, .flag]) {x y : Bool}
    (hl : op.eval? n [.flag x, .flag y] = some l) :
    o.eval [Val.ofLit n (.flag x), Val.ofLit n (.flag y)] = some (Val.ofLit n l) := by
  cases op <;> cases htype <;> cases ho <;> cases hl <;> rcases hn with rfl | rfl <;>
    cases x <;> cases y <;> decide

/-- The operation of a primitive on one truth value. -/
theorem eval_flag (hn : Width n) (ho : Operation.ofPrim? op = some o)
    (htype : op.wordType.dom = .tuple [.flag]) {x : Bool} (hl : op.eval? n [.flag x] = some l) :
    o.eval [Val.ofLit n (.flag x)] = some (Val.ofLit n l) := by
  cases op <;> cases htype <;> cases ho <;> cases hl <;> rcases hn with rfl | rfl <;> cases x <;>
    decide

/-- The operation of a division, or of the remainder of one. -/
theorem eval_divide (hn : Width n) (rem : Bool) {x y : Word} (hy : normalize n y ≠ 0) :
    Operation.eval (if rem then .mod else .div) [Val.ofLit n (.word x), Val.ofLit n (.word y)] =
      some (Val.ofLit n (.word (normalize n
        (if rem then normalize n x % normalize n y else normalize n x / normalize n y)))) := by
  have hy' := mt (bits_eq_zero_iff hn).mp hy
  cases rem with
  | false => exact (congrArg (Option.map Val.word) (if_neg hy')).trans (ofLit_normalize hn (bits_div hn))
  | true => exact (congrArg (Option.map Val.word) (if_neg hy')).trans (ofLit_normalize hn (bits_mod hn))

/-- Literals of the types that a primitive takes. -/
theorem eval_lits (hn : Width n) (ho : Operation.ofPrim? op = some o) {lits : List Literal}
    (htype : op.wordType.dom = .tuple (lits.map Machine.literalType))
    (hl : op.eval? n lits = some l) : o.eval (lits.map (Val.ofLit n)) = some (Val.ofLit n l) := by
  have hshape : op.wordType.dom = .tuple [.word, .word] ∨ op.wordType.dom = .tuple [.word] ∨
      op.wordType.dom = .tuple [.flag, .flag] ∨ op.wordType.dom = .tuple [.flag] := by
    cases op <;> cases ho <;> simp [PrimOp.wordType, PrimOp.access?, PrimOp.type, BlockType.ofLists]
  have hlits : ∀ {τs : List Ty}, op.wordType.dom = .tuple τs → lits.map Machine.literalType = τs := by
    intro τs hτs
    rw [htype] at hτs
    exact Ty.tuple.inj hτs
  rcases hshape with h | h | h | h
  · obtain ⟨x, rest, rfl, hx, hrest⟩ := List.map_eq_cons_iff.mp (hlits h)
    obtain ⟨y, rest, rfl, hy, hnil⟩ := List.map_eq_cons_iff.mp hrest
    obtain rfl := List.map_eq_nil_iff.mp hnil
    cases x <;> cases hx
    cases y <;> cases hy
    exact eval_words hn ho h hl
  · obtain ⟨x, rest, rfl, hx, hnil⟩ := List.map_eq_cons_iff.mp (hlits h)
    obtain rfl := List.map_eq_nil_iff.mp hnil
    cases x <;> cases hx
    exact eval_word hn ho h hl
  · obtain ⟨x, rest, rfl, hx, hrest⟩ := List.map_eq_cons_iff.mp (hlits h)
    obtain ⟨y, rest, rfl, hy, hnil⟩ := List.map_eq_cons_iff.mp hrest
    obtain rfl := List.map_eq_nil_iff.mp hnil
    cases x <;> cases hx
    cases y <;> cases hy
    exact eval_flags hn ho h hl
  · obtain ⟨x, rest, rfl, hx, hnil⟩ := List.map_eq_cons_iff.mp (hlits h)
    obtain rfl := List.map_eq_nil_iff.mp hnil
    cases x <;> cases hx
    exact eval_flag hn ho h hl

end Rtl

open Typing

/-! ### Types of values -/

/-- The type of a value of a word-level program. -/
inductive CarriedHas (p : Program) (fields : FieldLayout) : Value → Ty → Prop
  | word {w : Word} : CarriedHas p fields (.word w) .word
  | flag {b : Bool} : CarriedHas p fields (.flag b) .flag
  | closure {id : DefnId} {d : Defn} {k : Closure} {stored : List Ty} {dom rng : Ty} {vals : List Value}
      (hid : id ∈ p.reachable) (hd : p.defns[id]? = some d) (hk : d.body = .closure k)
      (hdeclared : k.declared = some ⟨[], stored, .func dom rng⟩)
      (hvals : List.Forall₂ (CarriedHas p fields) vals stored) :
      CarriedHas p fields (.closure id vals) (.func dom rng)
  | data {k : Cfun} {τ : Ty} {vals : List Value} {name : String} (hk : p.env.cfun? k.name = some k)
      (hdata : k.data = .data name) (hhead : τ.head? = some k.data)
      (hvals : List.Forall₂ (CarriedHas p fields) vals (fields k τ)) :
      CarriedHas p fields (.data k vals) τ

section Types

variable {p : Program} {fields : FieldLayout} {v : Value} {τ : Ty}

theorem CarriedHas.of_word (h : CarriedHas p fields v .word) : ∃ w, v = .word w := by
  cases h with
  | word => exact ⟨_, rfl⟩
  | data _ hdata hhead =>
      rw [hdata] at hhead
      cases hhead

theorem CarriedHas.of_flag (h : CarriedHas p fields v .flag) : ∃ b, v = .flag b := by
  cases h with
  | flag => exact ⟨_, rfl⟩
  | data _ hdata hhead =>
      rw [hdata] at hhead
      cases hhead

theorem CarriedHas.of_func {dom rng : Ty} (h : CarriedHas p fields v (.func dom rng)) :
    ∃ id d k stored vals, v = .closure id vals ∧ id ∈ p.reachable ∧ p.defns[id]? = some d ∧
      d.body = .closure k ∧ k.declared = some ⟨[], stored, .func dom rng⟩ ∧
      List.Forall₂ (CarriedHas p fields) vals stored := by
  generalize hτ : Ty.func dom rng = τ at h
  cases h with
  | word => cases hτ
  | flag => cases hτ
  | closure hid hd hk hdeclared hvals =>
      simp only [Ty.func, Ty.ap.injEq, true_and] at hτ
      obtain ⟨rfl, rfl⟩ := hτ
      exact ⟨_, _, _, _, _, rfl, hid, hd, hk, hdeclared, hvals⟩
  | data _ hdata hhead =>
      rw [← hτ, hdata] at hhead
      cases hhead

theorem CarriedHas.of_data {k : Cfun} {vals : List Value} (h : CarriedHas p fields (.data k vals) τ) :
    p.env.cfun? k.name = some k ∧ τ.head? = some k.data ∧
      List.Forall₂ (CarriedHas p fields) vals (fields k τ) := by
  cases h with
  | data hk _ hhead hvals => exact ⟨hk, hhead, hvals⟩

/-- Values of the types of literals are literals. -/
theorem exists_lits_of_carriedHas {vals : List Value} {τs : List Ty}
    (h : List.Forall₂ (CarriedHas p fields) vals τs) (hτs : ∀ τ ∈ τs, τ = .word ∨ τ = .flag) :
    ∃ lits : List Literal, vals = lits.map .ofLit ∧ τs = lits.map Machine.literalType := by
  induction h with
  | nil => exact ⟨[], rfl, rfl⟩
  | cons hv _ ih =>
      obtain ⟨lits, rfl, rfl⟩ := ih fun τ hτ => hτs τ (.tail _ hτ)
      rcases hτs _ (.head _) with rfl | rfl
      · obtain ⟨w, rfl⟩ := hv.of_word
        exact ⟨.word w :: lits, rfl, rfl⟩
      · obtain ⟨b, rfl⟩ := hv.of_flag
        exact ⟨.flag b :: lits, rfl, rfl⟩

theorem carriedHas_ofLit (l : Literal) : CarriedHas p fields (.ofLit l) (Machine.literalType l) := by
  cases l with
  | word w => exact .word
  | flag b => exact .flag

end Types

namespace Rtl

variable {n : Nat}

/-- The records, in the order of their addresses. -/
abbrev Heap (n : Nat) := List (List (Option (Val n)))

/-- What carries a value, with the symbols of code and the records that there are. -/
inductive Encodes (S : Symbols) (heap : Heap n) : Value → Val n → Prop
  | word (w : Word) : Encodes S heap (.word w) (.word (Word.bits n w))
  | flag (b : Bool) : Encodes S heap (.flag b) (.word (flagBits n b))
  | closure {id : DefnId} {vals : List Value} {name : String} {a : Nat} {xs : List (Val n)}
      (hname : S.codeNames.lookup id = some name)
      (hrecord : heap[a]? = some (some (.code name) :: xs.map some))
      (hvals : List.Forall₂ (Encodes S heap) vals xs) : Encodes S heap (.closure id vals) (.record a)
  | data {k : Cfun} {vals : List Value} {a : Nat} {xs : List (Val n)}
      (hrecord : heap[a]? = some (some (.word (BitVec.ofNat n k.tag)) :: xs.map some))
      (hvals : List.Forall₂ (Encodes S heap) vals xs) : Encodes S heap (.data k vals) (.record a)

section Encodings

variable {S : Symbols} {heap heap' : Heap n}

theorem getElem?_of_le (hle : heap <+: heap') {a : Nat} {ws : List (Option (Val n))}
    (ha : heap[a]? = some ws) : heap'[a]? = some ws := by
  obtain ⟨rest, rfl⟩ := hle
  rw [List.getElem?_append_left (List.getElem?_eq_some_iff.mp ha).1]
  exact ha

mutual

/-- More records change nothing about what is carried. -/
theorem Encodes.mono (hle : heap <+: heap') {v : Value} {x : Val n} (h : Encodes S heap v x) :
    Encodes S heap' v x :=
  match h with
  | .word w => .word w
  | .flag b => .flag b
  | .closure hname hrecord hvals =>
    .closure hname (getElem?_of_le hle hrecord) (Encodes.mono_all hle hvals)
  | .data hrecord hvals => .data (getElem?_of_le hle hrecord) (Encodes.mono_all hle hvals)

theorem Encodes.mono_all (hle : heap <+: heap') {vs : List Value} {xs : List (Val n)}
    (h : List.Forall₂ (Encodes S heap) vs xs) : List.Forall₂ (Encodes S heap') vs xs :=
  match h with
  | .nil => .nil
  | .cons hv hvs => .cons (hv.mono hle) (Encodes.mono_all hle hvs)

end

/-- A literal is carried by its bits only. -/
theorem encodes_ofLit_iff {l : Literal} {x : Val n} :
    Encodes S heap (.ofLit l) x ↔ x = Val.ofLit n l := by
  cases l with
  | word w =>
      refine ⟨fun h => ?_, fun h => h ▸ .word w⟩
      cases h
      rfl
  | flag b =>
      refine ⟨fun h => ?_, fun h => h ▸ .flag b⟩
      cases h
      rfl

theorem encodes_lits_iff {lits : List Literal} {xs : List (Val n)} :
    List.Forall₂ (Encodes S heap) (lits.map .ofLit) xs ↔ xs = lits.map (Val.ofLit n) := by
  induction lits generalizing xs with
  | nil => exact List.forall₂_nil_left_iff
  | cons l lits ih =>
      rw [List.map_cons, List.forall₂_cons_left_iff]
      constructor
      · rintro ⟨x, ys, hx, hys, rfl⟩
        rw [encodes_ofLit_iff.mp hx, ih.mp hys]
        rfl
      · rintro rfl
        exact ⟨_, _, encodes_ofLit_iff.mpr rfl, ih.mpr rfl, rfl⟩

end Encodings

/-! ### Registers -/

/-- A register holds what carries a value. -/
def Shows (S : Symbols) (heap : Heap n) (regs : Regs n) (r : Reg) (v : Value) : Prop :=
  ∃ x, regs r = some x ∧ Encodes S heap v x

section Registers

variable {S : Symbols} {heap heap' : Heap n} {regs regs' : Regs n} {r d : Reg} {v : Value}
  {rs ds : List Reg} {vals : List Value} {x : Val n} {xs : List (Val n)}

theorem Shows.mono (hle : heap <+: heap') (h : Shows S heap regs r v) : Shows S heap' regs r v := by
  obtain ⟨x, hx, hv⟩ := h
  exact ⟨x, hx, hv.mono hle⟩

theorem Shows.congr (hr : regs' r = regs r) (h : Shows S heap regs r v) : Shows S heap regs' r v := by
  unfold Shows
  rw [hr]
  exact h

theorem Regs.set_self (regs : Regs n) (d : Reg) (x : Val n) : regs.set d x d = some x := if_pos rfl

theorem Regs.set_of_ne (regs : Regs n) (x : Val n) (hr : r ≠ d) : regs.set d x r = regs r := if_neg hr

theorem Regs.assign_of_not_mem (regs : Regs n) (xs : List (Val n)) (hr : r ∉ ds) :
    regs.assign ds xs r = regs r := by
  induction ds generalizing regs xs with
  | nil => rfl
  | cons d ds ih =>
      cases xs with
      | nil => rfl
      | cons x xs =>
          rw [List.mem_cons, not_or] at hr
          exact (ih (regs.set d x) xs hr.2).trans (regs.set_of_ne x hr.1)

/-- Registers that show values hold words. -/
theorem exists_of_shows (h : List.Forall₂ (Shows S heap regs) rs vals) :
    ∃ xs, List.Forall₂ (fun r x => regs r = some x) rs xs ∧ List.Forall₂ (Encodes S heap) vals xs := by
  induction h with
  | nil => exact ⟨[], .nil, .nil⟩
  | cons hr _ ih =>
      obtain ⟨x, hx, hv⟩ := hr
      obtain ⟨xs, hxs, hvs⟩ := ih
      exact ⟨x :: xs, .cons hx hxs, .cons hv hvs⟩

theorem getAll_of_forall₂ (h : List.Forall₂ (fun r x => regs r = some x) rs xs) :
    regs.getAll rs = some xs := by
  unfold Regs.getAll
  induction h with
  | nil => rfl
  | cons hr _ ih =>
      rw [List.mapM_cons, hr, ih]
      rfl

theorem getAll_of_shows (h : List.Forall₂ (Shows S heap regs) rs vals) :
    ∃ xs, regs.getAll rs = some xs ∧ List.Forall₂ (Encodes S heap) vals xs := by
  obtain ⟨xs, hxs, hvs⟩ := exists_of_shows h
  exact ⟨xs, getAll_of_forall₂ hxs, hvs⟩

/-- Different registers that get words show what these carry. -/
theorem shows_assign (hds : ds.Nodup) (hlen : vals.length = ds.length)
    (h : List.Forall₂ (Encodes S heap) vals xs) :
    List.Forall₂ (Shows S heap (regs.assign ds xs)) ds vals := by
  induction h generalizing ds regs with
  | nil =>
      rw [List.length_eq_zero_iff.mp hlen.symm]
      exact .nil
  | @cons v x vals xs hv _ ih =>
      cases ds with
      | nil => cases hlen
      | cons d ds =>
          obtain ⟨hd, hds⟩ := List.nodup_cons.mp hds
          refine .cons ⟨x, ?_, hv⟩ (ih hds (Nat.succ.inj hlen))
          exact (Regs.assign_of_not_mem _ xs hd).trans (Regs.set_self _ _ _)

theorem forall₂_shows_congr (h : List.Forall₂ (Shows S heap regs) rs vals)
    (hrs : ∀ r ∈ rs, regs' r = regs r) : List.Forall₂ (Shows S heap regs') rs vals := by
  induction h with
  | nil => exact .nil
  | cons hr _ ih => exact .cons (hr.congr (hrs _ (.head _))) (ih fun r hr => hrs r (.tail _ hr))

end Registers

/-! ### Records -/

section Records

variable {s : State n} {a k : Nat} {ws : List (Option (Val n))} {x : Val n}

theorem load_of_record (hrecord : s.heap[a]? = some ws) (hk : ws[k]? = some (some x)) :
    s.load a k = some x := by
  unfold State.load
  rw [hrecord, Option.bind_some, hk]
  rfl

/-- The first word of a record. -/
theorem load_head {xs : List (Val n)} (hrecord : s.heap[a]? = some (some x :: xs.map some)) :
    s.load a 0 = some x :=
  load_of_record hrecord rfl

/-- The words of a record after the first. -/
theorem load_field {h : Val n} {xs : List (Val n)} (hrecord : s.heap[a]? = some (some h :: xs.map some))
    (hk : xs[k]? = some x) : s.load a (k + 1) = some x := by
  refine load_of_record hrecord ?_
  rw [List.getElem?_cons_succ, List.getElem?_map, hk]
  rfl

/-- A word of the newest record is stored. -/
theorem store_last {heap : Heap n} (hs : s.heap = heap ++ [ws]) (hk : k < ws.length) :
    s.store heap.length k x = some { s with heap := heap ++ [ws.set k (some x)] } := by
  unfold State.store
  have hlast : s.heap[heap.length]? = some ws := by
    rw [hs, List.getElem?_concat_length]
  rw [hlast]
  dsimp only
  rw [if_pos hk, hs, List.set_append_right _ _ (Nat.le_refl _), Nat.sub_self]
  rfl

end Records

end Rtl

end Mil
