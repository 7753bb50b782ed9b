import Mil.Proofs.Machine.Soundness
import Mil.Proofs.Rtl.Run

/-!
What the code of a tail does that neither calls nor enters anything. It leaves the values of the tail
in the registers that take them, and changes no other register that was there before; records that it
makes come after those that there are.
-/

namespace Mil.Rtl

open Typing BuildM

variable {n : Nat} {call : String → List (Val n) → State n → List (Val n) → State n → Prop}

section Memory

variable {cx : Setting} {fields : FieldLayout} {F b b' : Builder} {regs : Regs n} {s s' : State n}
  {a : Nat} {x : Val n}

theorem slot_word (hcx : cx.Plain n fields) (i a : Nat) :
    Address.slot? cx.chunk (.indexed (i * cx.wordBytes)) [Val.record (n := n) a] = some (a, i) := by
  have hpos : (0 : Int) < cx.chunk.bytes := by
    cases cx.chunk <;> decide
  unfold Address.slot?
  dsimp only
  rw [hcx.bytes, if_pos ⟨hcx.chunk, Int.mul_nonneg (Int.natCast_nonneg i) (Int.le_of_lt hpos),
    Int.mul_emod_left _ _⟩, Int.mul_ediv_cancel _ (Int.ne_of_gt hpos)]
  rfl

theorem runs_loadWord (hcx : cx.Plain n fields) {record dest : Reg} {index : Int} {i : Nat} {u : Unit}
    (hi : index = i) (hrecord : regs record = some (.record a)) (hx : s.load a i = some x)
    (h : Builds cx (loadWord record index dest) b u b') (hle : b'.Le F) :
    Runs call F b b' regs s (regs.set dest x) s := by
  rw [loadWord, Builds.read_bind, Builds.wordOffset_bind, hi] at h
  refine runs_emit h hle fun _ => .load ?_ (slot_word hcx i a) hx
  simp [Regs.getAll, hrecord]

theorem runs_storeWord (hcx : cx.Plain n fields) {record src : Reg} {index : Int} {i : Nat} {u : Unit}
    (hi : index = i) (hrecord : regs record = some (.record a)) (hsrc : regs src = some x)
    (hx : s.store a i x = some s') (h : Builds cx (storeWord record index src) b u b') (hle : b'.Le F) :
    Runs call F b b' regs s regs s' := by
  rw [storeWord, Builds.read_bind, Builds.wordOffset_bind, hi] at h
  refine runs_emit h hle fun _ => .store ?_ (slot_word hcx i a) hsrc hx
  simp [Regs.getAll, hrecord]

end Memory

/-! ### Copies -/

section Moves

variable {cx : Setting} {w : Nat} {D : List Node} {S : Symbols} {F b b' : Builder} {regs : Regs n}
  {s : State n}

theorem runs_move {src dest : Reg} {x : Val n} {u : Unit} (hsrc : regs src = some x)
    (h : Builds cx (move src dest) b u b') (hle : b'.Le F) :
    Runs call F b b' regs s (regs.set dest x) s := by
  have hargs : regs.getAll [src] = some [x] := by simp [Regs.getAll, hsrc]
  exact runs_operation hargs rfl h hle

variable (call) in
/-- Registers are copied to different ones that are none of them. -/
theorem runs_moves (hb : b.Sound (lawful cx w) D) {srcs dests : List Reg} {vs : List Value} {u : Unit}
    (hnodup : dests.Nodup) (hlen : dests.length = srcs.length) (hapart : ∀ r ∈ srcs, r ∉ dests)
    (hshows : List.Forall₂ (Shows S s.heap regs) srcs vs)
    (h : Builds cx ((srcs.zip dests).forM fun (r, d) => move r d) b u b') (hle : b'.Le F) :
    ∃ regs', Runs call F b b' regs s regs' s ∧ List.Forall₂ (Shows S s.heap regs') dests vs ∧
      ∀ r, r ∉ dests → regs' r = regs r := by
  induction srcs generalizing b regs dests vs with
  | nil =>
      cases hshows
      rw [List.length_eq_zero_iff.mp hlen] at h ⊢
      rw [Builds.forM_nil_iff.mp h]
      exact ⟨regs, .of_current rfl, .nil, fun _ _ => rfl⟩
  | cons r srcs ih =>
      cases dests with
      | nil => cases hlen
      | cons d dests =>
          obtain ⟨v, vs, hr, hrest, rfl⟩ := List.forall₂_cons_left_iff.mp hshows
          obtain ⟨b₁, hmove, h⟩ := Builds.forM_cons_iff.mp h
          obtain ⟨hd, hnodup⟩ := List.nodup_cons.mp hnodup
          obtain ⟨x, hx, hv⟩ := hr
          obtain ⟨hb₁, -⟩ := (acts_move (w := w) (D := D) hmove).sound hb
          obtain ⟨-, hle₁⟩ := (acts_forM (R := lawful cx w) (D := D) (fun _ _ => acts_move) h).sound hb₁
          have hkeep : ∀ r ∈ srcs, regs.set d x r = regs r := fun r hr =>
            regs.set_of_ne x fun he => hapart r (.tail _ hr) (he ▸ .head _)
          obtain ⟨regs', hruns, hshows, hsame⟩ := ih hb₁ hnodup (Nat.succ.inj hlen)
            (fun r hr hmem => hapart r (.tail _ hr) (.tail _ hmem)) (forall₂_shows_congr hrest hkeep) h
          refine ⟨regs', (runs_move hx hmove (hle₁.trans hle)).trans hruns,
            .cons ⟨x, (hsame d hd).trans (Regs.set_self _ _ _), hv⟩ hshows, fun r hr => ?_⟩
          rw [List.mem_cons, not_or] at hr
          exact (hsame r hr.2).trans (regs.set_of_ne x hr.1)

end Moves

/-! ### Records -/

section Records

variable {cx : Setting} {fields : FieldLayout} {w : Nat} {D : List Node} {S : Symbols}
  {F b b' : Builder} {regs : Regs n} {s : State n} {m : Machine} {env : Machine.Locals}
  {scope : List Temp}

/-- The words of the newest record are stored, one after the other. -/
theorem runs_stores (hcx : cx.Plain n fields) (hb : b.Sound (lawful cx w) D) (stored : List (Val n))
    {d : Reg} {words : List Reg} {xs : List (Val n)} {head : Option (Val n)} {heap : Heap n} {u : Unit}
    (hwords : List.Forall₂ (fun r x => regs r = some x) words xs)
    (hd : regs d = some (.record heap.length))
    (hheap : s.heap = heap ++ [head :: (stored.map some ++ List.replicate words.length none)])
    (h : Builds cx ((words.zipIdx stored.length).forM fun (r, i) => storeWord d (1 + i) r) b u b')
    (hle : b'.Le F) :
    Runs call F b b' regs s regs { s with heap := heap ++ [head :: (stored ++ xs).map some] } := by
  induction hwords generalizing b s stored with
  | nil =>
      rw [Builds.forM_nil_iff.mp h]
      have hsame : { s with heap := heap ++ [head :: (stored ++ []).map some] } = s := by
        rw [List.length_nil, List.replicate_zero, List.append_nil] at hheap
        rw [List.append_nil, ← hheap]
      rw [hsame]
      exact .of_current rfl
  | @cons r x words xs hr _ ih =>
      rw [List.zipIdx_cons] at h
      obtain ⟨b₁, hstore, h⟩ := Builds.forM_cons_iff.mp h
      obtain ⟨hb₁, -⟩ := (acts_storeWord (w := w) (D := D) hstore).sound hb
      obtain ⟨-, hle₁⟩ := (acts_forM (R := lawful cx w) (D := D) (fun _ _ => acts_storeWord) h).sound hb₁
      have hset : (head :: (stored.map some ++ List.replicate (words.length + 1) none)).set
          (stored.length + 1) (some x) =
          head :: ((stored ++ [x]).map some ++ List.replicate words.length none) := by
        simp [List.replicate_succ]
      have hs := store_last (x := x) (k := stored.length + 1) hheap (by simp)
      rw [List.length_cons, hset] at hs
      have hfirst : Runs call F b b₁ regs s regs _ :=
        runs_storeWord hcx (i := stored.length + 1) (by push_cast; omega) hd hr hs hstore
          (hle₁.trans hle)
      rw [← List.length_singleton (a := x), ← List.length_append] at h
      have hrest := ih (s := { s with heap := heap ++ [_] }) hb₁ (stored ++ [x]) rfl h
      rw [List.append_assoc] at hrest
      exact hfirst.trans hrest

/-- A record is made: its head, and then the values of operands. -/
theorem runs_record (hcx : cx.Plain n fields) (hb : b.Sound (lawful cx w) D) {head : BuildM Reg}
    {args : List Atom} {τs : List Ty} {d : Reg} {vs : List Value} {P : Val n → Prop} {u : Unit}
    (hargs : ArgsHave (cx.program.wordContext fields) args τs)
    (hreach : ∀ a ∈ args, ∀ id, a.defn? = some id → id ∈ cx.program.reachable)
    (hscope : InScope scope args) (hholds : Holds cx.program fields S F s.heap regs env scope)
    (hvs : Machine.atoms cx.program m env args = .ok vs) (hd : d < b.nextReg)
    (hapart : ∀ t ∈ scope, F.regs.lookup t ≠ some d)
    (hacts : ∀ {b r b'}, Builds cx head b r b' → Acts (lawful cx w) D b D b')
    (hhead : ∀ {b r b'} (regs : Regs n) (s : State n), b.Sound (lawful cx w) D →
      Builds cx head b r b' → b'.Le F → ∃ regs' y, Runs call F b b' regs s regs' s ∧
        regs' r = some y ∧ P y ∧ Frame F b regs regs')
    (h : Builds cx (record head args [d]) b u b') (hle : b'.Le F) :
    ∃ regs' xs y, Runs call F b b' regs s regs' { s with heap := s.heap ++ [some y :: xs.map some] } ∧
      P y ∧ List.Forall₂ (Encodes S s.heap) vs xs ∧
      List.Forall₂ (CarriedHas cx.program fields) vs τs ∧ regs' d = some (.record s.heap.length) ∧
      ∀ r, Kept F b r → r ≠ d → regs' r = regs r := by
  obtain ⟨words, b₁, hwords, hrest⟩ := Builds.bind_iff.mp h
  obtain ⟨d', b₂, hdest, hrest⟩ := Builds.bind_iff.mp hrest
  obtain ⟨hd', hb₂⟩ := Builds.pure_iff.mp hdest
  rw [hd', hb₂] at hrest
  obtain ⟨_, b₃, halloc, hrest⟩ := Builds.bind_iff.mp hrest
  obtain ⟨r, b₄, hr, hrest⟩ := Builds.bind_iff.mp hrest
  obtain ⟨_, b₅, hstore, hstores⟩ := Builds.bind_iff.mp hrest
  obtain ⟨hb₁, hle₁⟩ := (acts_atoms (w := w) (D := D) hwords).1.sound hb
  have hacts₃ := acts_emit (R := lawful cx w) (D := D) halloc (fun _ => rfl) fun _ => trivial
  obtain ⟨hb₃, hle₃⟩ := hacts₃.sound hb₁
  obtain ⟨hb₄, hle₄⟩ := (hacts hr).sound hb₃
  obtain ⟨hb₅, hle₅⟩ := (acts_storeWord (w := w) (D := D) hstore).sound hb₄
  obtain ⟨-, hle₆⟩ :=
    (acts_forM (R := lawful cx w) (D := D) (fun _ _ => acts_storeWord) hstores).sound hb₅
  have hle₅' := hle₆.trans hle
  have hle₄' := hle₅.trans hle₅'
  have hle₃' := hle₄.trans hle₄'
  obtain ⟨regs₁, hruns₁, hshows, hhas, hframe₁, hsources⟩ :=
    runs_atoms call hcx hb hargs hreach hscope hholds hvs hwords (hle₃.trans hle₃')
  have hruns₃ : Runs call F b₁ b₃ regs₁ s (regs₁.set d (.record s.heap.length))
      (s.alloc (1 + words.length)) := runs_emit halloc hle₃' fun _ => .alloc
  obtain ⟨regs₄, y, hruns₄, hy, hP, hframe₄⟩ :=
    hhead (regs₁.set d (.record s.heap.length)) (s.alloc (1 + words.length)) hb₃ hr hle₄'
  have hd₃ : Kept F b₃ d := .inl (Int.lt_of_lt_of_le hd (Int.le_trans hle₁.nextReg hle₃.nextReg))
  have hd₄ : regs₄ d = some (.record s.heap.length) := (hframe₄ d hd₃).trans (Regs.set_self _ _ _)
  have hsame : ∀ r, Kept F b₁ r → r ≠ d → regs₄ r = regs₁ r := fun r hr hne =>
    (hframe₄ r (hr.mono hle₃.nextReg)).trans (regs₁.set_of_ne _ hne)
  have hne : ∀ r ∈ words, r ≠ d := fun r hr he => by
    rcases (hsources r hr).1 with ⟨t, ht, hreg⟩ | hge
    · exact hapart t ht (he ▸ hreg)
    · exact Int.lt_irrefl _ (Int.lt_of_lt_of_le (he ▸ hd) hge)
  obtain ⟨xs, hxs, hvals⟩ := exists_of_shows
    (forall₂_shows_congr hshows fun r hr => hsame r (hsources r hr).2 (hne r hr))
  have hheap : (s.alloc (1 + words.length)).heap = s.heap ++ [List.replicate (words.length + 1) none] := by
    rw [Nat.add_comm]
    rfl
  have hs := store_last (x := y) (k := 0) hheap (by simp)
  have hruns₅ : Runs call F b₄ b₅ regs₄ (s.alloc (1 + words.length)) regs₄ _ :=
    runs_storeWord hcx (i := 0) rfl hd₄ hy hs hstore hle₅'
  have hruns₆ : Runs call F b₅ b' regs₄ _ regs₄ _ := runs_stores
    (s := { s with heap := s.heap ++ [some y :: List.replicate words.length none] }) hcx hb₅ [] hxs hd₄
    rfl hstores hle
  refine ⟨regs₄, xs, y, ?_, hP, hvals, hhas, hd₄, fun r hr hne => ?_⟩
  · exact hruns₁.trans (hruns₃.trans (hruns₄.trans (hruns₅.trans hruns₆)))
  · exact (hsame r (hr.mono hle₁.nextReg) hne).trans (hframe₁ r hr)

end Records

/-! ### Primitives -/

section Primitives

variable {p : Mil.Program} {cx : Setting} {fields : FieldLayout} {w : Nat} {D : List Node}
  {F b b' : Builder} {regs : Regs n} {s : State n} {m m' : Machine} {q : Prim} {o : Operation} {vals vs : List Value} {τs : List Ty}

/-- A primitive that has an operation is at its word-level type. -/
theorem type_of_ofPrim? (hq : q.OnWords) (ho : Operation.ofPrim? q.op = some o) :
    q.purity = q.op.purity ∧ q.type = q.op.wordType := by
  unfold Prim.OnWords at hq
  split at hq
  · rename_i hop
    rw [hop] at ho
    cases ho
  · rename_i hop
    rw [hop] at ho
    cases ho
  · rename_i hop
    rw [hop] at ho
    cases ho
  · exact hq

/-- A division of words that gives values. -/
theorem words_of_divide {rem : Bool} (hvals : List.Forall₂ (CarriedHas p fields) vals [.word, .word])
    (h : m.divide rem vals = .ok vs) : ∃ x y, vals = [.word x, .word y] ∧ Word.normalize m.size y ≠ 0 ∧
      vs = [.word (Word.normalize m.size (if rem then Word.normalize m.size x % Word.normalize m.size y
        else Word.normalize m.size x / Word.normalize m.size y))] := by
  obtain ⟨v, rest, hv, hrest, rfl⟩ := List.forall₂_cons_right_iff.mp hvals
  obtain ⟨v', rest, hv', hnil, rfl⟩ := List.forall₂_cons_right_iff.mp hrest
  cases hnil
  obtain ⟨x, rfl⟩ := hv.of_word
  obtain ⟨y, rfl⟩ := hv'.of_word
  unfold Machine.divide at h
  dsimp only at h
  split at h
  · cases h
  · rename_i hy
    cases h
    exact ⟨x, y, rfl, hy, rfl⟩

theorem map_ok {α : Type} {r : Except Halt (List Value)} {f : List Value → α} {a : α}
    (h : r.map f = .ok a) : ∃ vs, r = .ok vs ∧ a = f vs := by
  cases r with
  | error e => cases h
  | ok vs => exact ⟨vs, rfl, (Except.ok.inj h).symm⟩

/-- An operation gives on literals what a primitive of some results has given. -/
def Operation.Matches (n : Nat) (o : Operation) (vals vs : List Value) (rng : Ty) : Prop :=
  ∃ (lits : List Literal) (l : Literal), vals = lits.map .ofLit ∧ vs = [.ofLit l] ∧
    o.eval (lits.map (Val.ofLit n)) = some (Val.ofLit n l) ∧ rng = .tuple [Machine.literalType l]

theorem matches_divide (hn : Width n) (hsize : m.size = n) {rem : Bool}
    (hvals : List.Forall₂ (CarriedHas p fields) vals [.word, .word]) (h : m.divide rem vals = .ok vs) :
    Operation.Matches n (if rem then .mod else .div) vals vs (.tuple [.word]) := by
  obtain ⟨x, y, rfl, hy, rfl⟩ := words_of_divide hvals h
  rw [hsize] at hy ⊢
  exact ⟨[.word x, .word y], .word _, rfl, rfl, eval_divide hn rem hy, rfl⟩

/-- What a primitive gives is what its operation gives. -/
theorem matches_prim (hn : Width n) (hsize : m.size = n) (hq : q.OnWords)
    (ho : Operation.ofPrim? q.op = some o) (hdom : q.type.dom = .tuple τs)
    (hvals : List.Forall₂ (CarriedHas p fields) vals τs) (h : m.prim q vals = .ok (vs, m')) :
    o.Matches n vals vs q.type.rng ∧ m' = m := by
  obtain ⟨hpurity, htype⟩ := type_of_ofPrim? hq ho
  rw [htype] at hdom ⊢
  unfold Machine.prim at h
  split at h
  case h_1 hop | h_2 hop | h_3 hop =>
    obtain ⟨vs', hdivide, heq⟩ := map_ok h
    cases heq
    rw [hop] at ho hdom ⊢
    cases ho
    cases hdom
    exact ⟨matches_divide hn hsize hvals hdivide, rfl⟩
  case h_4 => cases h
  case h_5 => cases h
  case h_6 hop =>
    rw [hop] at ho
    cases ho
  case h_7 => cases h
  case h_8 hdiv hnzdiv hrem hhalt hloop hprint huser =>
    have haccess : q.op.access? = none := by
      revert ho
      cases q.op <;> intro ho <;> first | rfl | cases ho
    rw [haccess] at h
    obtain ⟨vs', h, heq⟩ := map_ok h
    cases heq
    have hpure : q.op.purity = .pure := by
      revert ho hdiv hrem
      cases q.op <;> simp [Operation.ofPrim?, PrimOp.purity, PrimOp.access?]
    have hword : q.op.wordType = q.op.type := by
      unfold PrimOp.wordType
      split
      · exact absurd ‹q.op = .nzdiv› hnzdiv
      · rw [haccess]
    have hfull : q.op.type = ⟨[], .tuple τs, q.op.wordType.rng⟩ := by
      rw [← hdom, hword]
      revert ho
      cases q.op <;> intro ho <;> first | rfl | cases ho
    obtain ⟨hτs, heval⟩ := Machine.eval?_typed hpure hnzdiv huser hfull
    obtain ⟨lits, rfl, rfl⟩ := exists_lits_of_carriedHas hvals hτs
    obtain ⟨l, hl, hrng⟩ := heval m.size lits
    have hfold : q.fold? m.size lits = some l := by
      rw [Prim.fold?, hpurity, if_pos hpure, hl]
    rw [Machine.pureCall_lits m q lits hfold] at h
    cases h
    rw [hsize] at hl
    exact ⟨⟨lits, l, rfl, rfl, eval_lits hn ho hdom hl, hrng⟩, rfl⟩

/-- A divisor that is not zero passes. -/
theorem runs_checkDivisor (hb : b.Sound (lawful cx w) D) {y : Reg} {x : BitVec n} {u : Unit}
    (hy : regs y = some (.word x)) (hx : x ≠ 0) (h : Builds cx (checkDivisor y) b u b')
    (hle : b'.Le F) : Runs call F b b' regs s regs s := by
  rw [checkDivisor, Builds.freshNode_bind, Builds.freshNode_bind] at h
  dsimp only at h
  obtain ⟨_, b₁, hbranch, h⟩ := Builds.bind_iff.mp h
  obtain ⟨_, b₂, hbad, h⟩ := Builds.bind_iff.mp h
  obtain ⟨_, b₃, habort, hgood⟩ := Builds.bind_iff.mp h
  obtain ⟨hacts₁, hcur₁⟩ := acts_terminate (R := lawful cx w)
    (D := (b.nextNode + 1) :: b.nextNode :: D) hbranch trivial (by simp [Instr.successors])
  have hacts₂ := acts_startAt (R := lawful cx w) hbad hcur₁ (.swap b.nextNode (b.nextNode + 1) D)
  obtain ⟨hacts₃, hcur₃⟩ := acts_terminate (R := lawful cx w)
    (D := (b.nextNode + 1) :: D) habort trivial (List.forall_mem_nil _)
  have hacts₄ := acts_startAt (R := lawful cx w) (D := (b.nextNode + 1) :: D) hgood hcur₃ (.refl _)
  obtain ⟨hb₁, -⟩ := Acts.sound (.step .node (.step .node hacts₁)) hb
  obtain ⟨-, hle₁⟩ := (hacts₂.trans (hacts₃.trans hacts₄)).sound hb₁
  intro node hnode
  have hi := lookup_of_terminate hbranch (hle₁.trans hle) hnode
  refine ⟨b.nextNode + 1, by rw [Builds.startAt_iff.mp hgood], fun vals s'' hbody => .step hi ?_ hbody⟩
  have hargs : regs.getAll [y] = some [.word x] := by simp [Regs.getAll, hy]
  have htest : Test.eval (.const .eq 0) [Val.word x] = some false := by
    simpa [Test.eval, Comparison.holds] using fun he => hx (BitVec.eq_of_toInt_eq (by simpa using he))
  exact .branch hargs htest

/-- An operation of a primitive sets the register of its result. -/
theorem runs_primOperation {args : List Reg} {d : Reg} {xs : List (Val n)} {x : Val n} {u : Unit}
    (haccess : q.op.access? = none) (ho : Operation.ofPrim? q.op = some o)
    (hargs : regs.getAll args = some xs) (hx : o.eval xs = some x)
    (h : Builds cx (primOperation q args [d]) b u b') (hle : b'.Le F) :
    Runs call F b b' regs s (regs.set d x) s := by
  unfold primOperation at h
  rw [haccess] at h
  dsimp only at h
  rw [ho] at h
  dsimp only at h
  obtain ⟨d', b₁, hdest, hop⟩ := Builds.bind_iff.mp h
  obtain ⟨rfl, rfl⟩ := Builds.pure_iff.mp hdest
  exact runs_operation hargs hx hop hle

end Primitives

/-! ### Tails -/

/-- What the machine has printed is what was printed. -/
def Printed (m : Machine) (s : State n) : Prop := s.printed = m.printed.map (Word.bits n)

/-- The machine and the registers agree: temporaries in scope have values and registers that show
these, the same was printed, and words have the same size. -/
structure Agree (cx : Setting) (fields : FieldLayout) (S : Symbols) (F : Builder) (scope : List Temp)
    (m : Machine) (env : Machine.Locals) (regs : Regs n) (s : State n) : Prop where
  holds : Holds cx.program fields S F s.heap regs env scope
  printed : Printed m s
  size : m.size = n

/-- Registers that can take results: they are different, were taken before, and belong to no temporary
in scope. -/
structure Free (F b : Builder) (scope : List Temp) (dests : List Reg) : Prop where
  nodup : dests.Nodup
  below : ∀ d ∈ dests, d < b.nextReg
  apart : ∀ d ∈ dests, ∀ t ∈ scope, F.regs.lookup t ≠ some d

theorem Free.not_source {F b : Builder} {scope : List Temp} {dests : List Reg} {r : Reg}
    (h : Free F b scope dests) (hr : Source F b scope r) : r ∉ dests := by
  intro hmem
  rcases hr with ⟨t, ht, hreg⟩ | hge
  · exact h.apart r hmem t ht hreg
  · exact Int.lt_irrefl _ (Int.lt_of_lt_of_le (h.below r hmem) hge)

/-- The code between two points leaves values in registers, and the machine is where it is then. Other
registers that were there before are as they were, and records only became more. -/
def Leaves (call : String → List (Val n) → State n → List (Val n) → State n → Prop) (p : Mil.Program)
    (fields : FieldLayout) (S : Symbols) (F b b' : Builder) (regs : Regs n) (s : State n)
    (dests : List Reg) (vs : List Value) (ρs : List Ty) (m : Machine) : Prop :=
  ∃ regs' s', Runs call F b b' regs s regs' s' ∧ List.Forall₂ (Shows S s'.heap regs') dests vs ∧
    List.Forall₂ (CarriedHas p fields) vs ρs ∧ s.heap <+: s'.heap ∧ Printed m s' ∧
    ∀ r, Kept F b r → r ∉ dests → regs' r = regs r

/-- Operands that were read before make no difference. -/
theorem Leaves.after {p : Mil.Program} {fields : FieldLayout} {S : Symbols} {F b b₁ b' : Builder}
    {regs regs₁ : Regs n} {s : State n} {dests : List Reg} {vs : List Value} {ρs : List Ty} {m : Machine}
    (hruns : Runs call F b b₁ regs s regs₁ s) (hframe : Frame F b regs regs₁) (hle : b.Le b₁)
    (h : Leaves call p fields S F b₁ b' regs₁ s dests vs ρs m) :
    Leaves call p fields S F b b' regs s dests vs ρs m := by
  obtain ⟨regs', s', hruns', hshows, hhas, hheap, hprinted, hkeep⟩ := h
  exact ⟨regs', s', hruns.trans hruns', hshows, hhas, hheap, hprinted,
    fun r hr hnot => (hkeep r (hr.mono hle.nextReg) hnot).trans (hframe r hr)⟩

section Tails

variable {cx : Setting} {fields : FieldLayout} {w : Nat} {D : List Node} {S : Symbols}
  {F b b' : Builder} {regs : Regs n} {s : State n} {m m' : Machine} {env : Machine.Locals}
  {scope : List Temp} {dests : List Reg} {vs : List Value} {ρs : List Ty} {args : List Atom} {u : Unit}

theorem TailOk.reach {t : Tail} (ht : TailOk cx fields t ρs) :
    ∀ a ∈ t.atoms, ∀ id, a.defn? = some id → id ∈ cx.program.reachable :=
  fun a ha id hid => ht.refs id (List.mem_append_left _ (List.mem_filterMap.mpr ⟨a, ha, hid⟩))

/-- One register takes one result. -/
theorem exists_dest {τ : Ty} (hlen : dests.length = [τ].length) : ∃ d, dests = [d] :=
  List.length_eq_one_iff.mp hlen

/-- Values that are returned are copied. -/
theorem leaves_ret (hcx : cx.Plain n fields) (hb : b.Sound (lawful cx w) D)
    (ht : TailOk cx fields (.ret args) ρs) (hscope : InScope scope args)
    (hagree : Agree cx fields S F scope m env regs s) (hfree : Free F b scope dests)
    (hlen : dests.length = ρs.length)
    (hop : Machine.operate cx.program m env (.ret args) = .ok (.values vs, m'))
    (h : Builds cx (compute (some (.ret args)) dests) b u b') (hle : b'.Le F) :
    Leaves call cx.program fields S F b b' regs s dests vs ρs m' := by
  obtain ⟨srcs, b₁, hsrcs, hmoves⟩ := Builds.bind_iff.mp h
  obtain ⟨vs', hvs, hop⟩ := Except.bind_eq_ok.mp hop
  cases hop
  obtain ⟨τs, hτs, hargs⟩ := ht.typed.ret_inv
  cases hτs
  obtain ⟨hacts, hsame⟩ := acts_atoms (w := w) (D := D) hsrcs
  obtain ⟨hb₁, hle₁⟩ := hacts.sound hb
  obtain ⟨-, hle₂⟩ := (acts_forM (R := lawful cx w) (D := D) (fun _ _ => acts_move) hmoves).sound hb₁
  obtain ⟨regs₁, hruns₁, hshows, hhas, hframe, hsources⟩ :=
    runs_atoms call hcx hb hargs ht.reach hscope hagree.holds hvs hsrcs (hle₂.trans hle)
  obtain ⟨regs', hruns₂, hshows', hkeep⟩ := runs_moves call hb₁ hfree.nodup
    (by rw [hlen, hsame, length_of_argsHave hargs]) (fun r hr => hfree.not_source (hsources r hr).1)
    hshows hmoves hle
  exact ⟨regs', s, hruns₁.trans hruns₂, hshows', hhas, List.prefix_refl _, hagree.printed,
    fun r hr hnot => (hkeep r hnot).trans (hframe r hr)⟩

theorem leaves_print (hcx : cx.Plain n fields) {q : Prim} (hq : q.OnWords) (hop : q.op = .printWord)
    {args : List Reg} {vals : List Value} {τs : List Ty} (hdom : q.type.dom = .tuple τs)
    (hrng : q.type.rng = .tuple ρs) (hvals : List.Forall₂ (CarriedHas cx.program fields) vals τs)
    (hshows : List.Forall₂ (Shows S s.heap regs) args vals) (hprinted : Printed m s)
    (hsize : m.size = n) (hlen : dests.length = ρs.length) (hprim : m.prim q vals = .ok (vs, m'))
    (h : Builds cx (emit (.builtin "printWord" args none)) b u b') (hle : b'.Le F) :
    Leaves call cx.program fields S F b b' regs s dests vs ρs m' := by
  have htype : q.type = PrimOp.printWord.wordType := by
    unfold Prim.OnWords at hq
    rw [hop] at hq
    exact hq.2
  rw [htype] at hdom hrng
  cases hdom
  cases hrng
  obtain ⟨v, rest, hv, hnil, rfl⟩ := List.forall₂_cons_right_iff.mp hvals
  cases hnil
  obtain ⟨x, rfl⟩ := hv.of_word
  obtain ⟨xs, hxs, henc⟩ := getAll_of_shows hshows
  obtain rfl : xs = [Literal.word x].map (Val.ofLit n) := encodes_lits_iff.mp henc
  unfold Machine.prim at hprim
  rw [hop] at hprim
  cases hprim
  rw [List.length_eq_zero_iff.mp hlen]
  refine ⟨regs, { s with printed := Word.bits n x :: s.printed },
    runs_emit h hle fun _ => .print hxs, .nil, .nil, List.prefix_refl _, ?_, fun _ _ _ => rfl⟩
  show Word.bits n x :: s.printed = _
  rw [hprinted, hsize]
  exact congrArg (· :: _) (Word.bits_normalize hcx.width x).symm

theorem leaves_operation (hcx : cx.Plain n fields) {q : Prim} (hq : q.OnWords)
    (haccess : q.op.access? = none) {o : Operation} (ho : Operation.ofPrim? q.op = some o)
    {rs : List Reg} {vals : List Value} {τs : List Ty} (hdom : q.type.dom = .tuple τs)
    (hrng : q.type.rng = .tuple ρs) (hvals : List.Forall₂ (CarriedHas cx.program fields) vals τs)
    (hshows : List.Forall₂ (Shows S s.heap regs) rs vals) (hprinted : Printed m s)
    (hsize : m.size = n) (hlen : dests.length = ρs.length) (hprim : m.prim q vals = .ok (vs, m'))
    (h : Builds cx (primOperation q rs dests) b u b') (hle : b'.Le F) :
    Leaves call cx.program fields S F b b' regs s dests vs ρs m' := by
  obtain ⟨⟨lits, l, rfl, rfl, heval, hτ⟩, rfl⟩ := matches_prim hcx.width hsize hq ho hdom hvals hprim
  rw [hrng] at hτ
  cases hτ
  obtain ⟨d, rfl⟩ := exists_dest hlen
  obtain ⟨xs, hxs, henc⟩ := getAll_of_shows hshows
  rw [encodes_lits_iff.mp henc] at hxs
  exact ⟨regs.set d (Val.ofLit n l), s, runs_primOperation haccess ho hxs heval h hle,
    .cons ⟨_, Regs.set_self _ _ _, encodes_ofLit_iff.mpr rfl⟩ .nil, .cons (carriedHas_ofLit l) .nil,
    List.prefix_refl _, hprinted, fun r _ hr => regs.set_of_ne _ fun he => hr (he ▸ .head _)⟩

/-- The divisor of a division that gives values passes. -/
theorem runs_divisor (hcx : cx.Plain n fields) (hb : b.Sound (lawful cx w) D) {q : Prim} (hq : q.OnWords)
    {rem : Bool} (hop : q.op = if rem then .rem else .div) {x y : Reg} {vals : List Value} {τs : List Ty}
    (hdom : q.type.dom = .tuple τs) (hvals : List.Forall₂ (CarriedHas cx.program fields) vals τs)
    (hshows : List.Forall₂ (Shows S s.heap regs) [x, y] vals) (hsize : m.size = n)
    (hprim : m.prim q vals = .ok (vs, m')) (h : Builds cx (checkDivisor y) b u b') (hle : b'.Le F) :
    Runs call F b b' regs s regs s := by
  have hdivide : ∃ vs, m.divide rem vals = .ok vs := by
    unfold Machine.prim at hprim
    rw [hop] at hprim
    cases rem with
    | false => exact (map_ok hprim).imp fun _ h => h.1
    | true => exact (map_ok hprim).imp fun _ h => h.1
  have htype : q.type = .ofLists [.word, .word] [.word] := by
    unfold Prim.OnWords at hq
    rw [hop] at hq
    cases rem with
    | false => exact hq.2
    | true => exact hq.2
  rw [htype] at hdom
  cases hdom
  obtain ⟨_, hdivide⟩ := hdivide
  obtain ⟨v, v', rfl, hv', -⟩ := words_of_divide hvals hdivide
  rw [hsize] at hv'
  cases hshows with
  | cons _ hrest =>
      cases hrest with
      | cons hy _ =>
          obtain ⟨z, hz, henc⟩ := hy
          cases henc
          exact runs_checkDivisor hb hz (mt (Word.bits_eq_zero_iff hcx.width).mp hv') h hle

theorem leaves_prim (hcx : cx.Plain n fields) (hb : b.Sound (lawful cx w) D) {q : Prim}
    {inst : Option BlockType} (ht : TailOk cx fields (.prim q args inst) ρs)
    (hbuiltin : Tail.Builtin (.prim q args inst)) (hscope : InScope scope args)
    (hagree : Agree cx fields S F scope m env regs s) (hlen : dests.length = ρs.length)
    (hop : Machine.operate cx.program m env (.prim q args inst) = .ok (.values vs, m'))
    (h : Builds cx (compute (some (.prim q args inst)) dests) b u b') (hle : b'.Le F) :
    Leaves call cx.program fields S F b b' regs s dests vs ρs m' := by
  obtain ⟨rs, b₁, hrs, h⟩ := Builds.bind_iff.mp h
  obtain ⟨vals, hvals, hop⟩ := Except.bind_eq_ok.mp hop
  obtain ⟨⟨vs', m₁⟩, hprim, hop⟩ := Except.bind_eq_ok.mp hop
  cases hop
  have hprim := Machine.orHalt_eq_ok hprim
  obtain ⟨hq, hrng, τs, hdom, hargs⟩ := ht.typed.prim_inv
  obtain ⟨hacts, hsame⟩ := acts_atoms (w := w) (D := D) hrs
  obtain ⟨hb₁, hle₁⟩ := hacts.sound hb
  have hhalt : q.op ≠ .halt ∧ q.op ≠ .loop := by
    constructor <;> intro hop <;> unfold Machine.prim at hprim <;> rw [hop] at hprim <;> cases hprim
  by_cases hprint : q.op = .printWord
  · simp only [hprint] at h
    have hacts₂ := acts_emit (R := lawful cx w) (D := D) h (fun _ => rfl) fun _ => trivial
    obtain ⟨-, hle₂⟩ := hacts₂.sound hb₁
    obtain ⟨regs₁, hruns, hshows, hhas, hframe, -⟩ :=
      runs_atoms call hcx hb hargs ht.reach hscope hagree.holds hvals hrs (hle₂.trans hle)
    exact .after hruns hframe hle₁
      (leaves_print hcx hq hprint hdom hrng hhas hshows hagree.printed hagree.size hlen hprim h hle)
  · obtain ⟨o, ho⟩ : ∃ o, Operation.ofPrim? q.op = some o := by
      obtain ⟨huser, haccess⟩ := hbuiltin
      revert huser haccess hhalt hprint
      cases q.op <;> simp [Operation.ofPrim?, PrimOp.access?]
    -- what is left is the operation, after the divisor was checked
    obtain ⟨b₂, hcheck, hoperation⟩ : ∃ b₂, (b₂ = b₁ ∨ ∃ x y, ∃ rem : Bool, rs = [x, y] ∧
        q.op = (if rem then .rem else .div) ∧ Builds cx (checkDivisor y) b₁ () b₂) ∧
        Builds cx (primOperation q rs dests) b₂ u b' := by
      split at h
      · exact absurd ‹_› hhalt.1
      · exact absurd ‹_› hhalt.2
      · exact absurd ‹_› hprint
      · exact absurd ‹_› hbuiltin.1
      · rename_i x y hop
        obtain ⟨_, b₂, hcheck, h⟩ := Builds.bind_iff.mp h
        exact ⟨b₂, .inr ⟨x, y, false, rfl, hop, hcheck⟩, h⟩
      · rename_i x y hop
        obtain ⟨_, b₂, hcheck, h⟩ := Builds.bind_iff.mp h
        exact ⟨b₂, .inr ⟨x, y, true, rfl, hop, hcheck⟩, h⟩
      · exact ⟨b₁, .inl rfl, h⟩
    have hacts₂ : Acts (lawful cx w) D b₁ D b₂ := by
      rcases hcheck with rfl | ⟨x, y, rem, -, -, hcheck⟩
      · exact .refl
      · exact acts_checkDivisor hcheck
    obtain ⟨hb₂, hle₂⟩ := hacts₂.sound hb₁
    obtain ⟨-, hle₃⟩ := (acts_primOperation (w := w) (D := D) hoperation).sound hb₂
    obtain ⟨regs₁, hruns, hshows, hhas, hframe, -⟩ := runs_atoms call hcx hb hargs ht.reach hscope
      hagree.holds hvals hrs (hle₂.trans (hle₃.trans hle))
    have hpass : Runs call F b₁ b₂ regs₁ s regs₁ s := by
      rcases hcheck with rfl | ⟨x, y, rem, rfl, hop, hcheck⟩
      · exact .of_current rfl
      · exact runs_divisor hcx hb₁ hq hop hdom hhas hshows hagree.size hprim hcheck (hle₃.trans hle)
    exact .after (hruns.trans hpass) hframe (hle₁.trans hle₂)
      (leaves_operation hcx hq hbuiltin.2 ho hdom hrng hhas hshows hagree.printed hagree.size hlen hprim
        hoperation hle)

theorem leaves_sel (hcx : cx.Plain n fields) (hb : b.Sound (lawful cx w) D) {k : Cfun} {field : Int}
    {arg : Atom} {inst : Option AllocType} (ht : TailOk cx fields (.sel k field arg inst) ρs)
    (hscope : InScope scope [arg]) (hagree : Agree cx fields S F scope m env regs s)
    (hlen : dests.length = ρs.length)
    (hstray : Machine.strays cx.program m env (.sel k field arg inst) = false)
    (hop : Machine.operate cx.program m env (.sel k field arg inst) = .ok (.values vs, m'))
    (h : Builds cx (compute (some (.sel k field arg inst)) dests) b u b') (hle : b'.Le F) :
    Leaves call cx.program fields S F b b' regs s dests vs ρs m' := by
  obtain ⟨r, b₁, hr, hrest⟩ := Builds.bind_iff.mp h
  obtain ⟨type, τ, ⟨hcfun, hstored, -⟩, hfield, hτ, harg, heq⟩ := ht.typed.sel_inv
  cases heq
  obtain ⟨d, rfl⟩ := exists_dest hlen
  obtain ⟨d', b₂, hdest, hload⟩ := Builds.bind_iff.mp hrest
  obtain ⟨rfl, rfl⟩ := Builds.pure_iff.mp hdest
  obtain ⟨hb₁, hle₁⟩ := (acts_atom (w := w) (D := D) hr).sound hb
  obtain ⟨-, hle₂⟩ := (acts_loadWord (w := w) (D := D) hload).sound hb₁
  obtain ⟨v, hv, hop⟩ := Except.bind_eq_ok.mp hop
  obtain ⟨regs₁, hruns, ⟨x, hx, henc⟩, hhas, hframe, -, -⟩ := runs_atom call hcx hb harg
    (fun id hid => ht.reach arg (.head _) id hid) hscope hagree.holds hv hr (hle₂.trans hle)
  dsimp only at hop
  split at hop
  · rename_i f hfound
    cases hop
    split at hfound
    · rename_i l vals
      -- the value was built by the constructor whose field is asked for
      have hname : l.name = k.name := by
        unfold Machine.strays at hstray
        dsimp only at hstray
        rw [hv] at hstray
        simpa [hfound] using hstray
      obtain ⟨hl, -, hvals⟩ := hhas.of_data
      obtain rfl : l = k := by
        rw [hname, hcfun] at hl
        exact (Option.some.inj hl).symm
      cases henc with
      | data hrecord hfields =>
          obtain ⟨y, hy, hyf⟩ := Machine.forall₂_getElem? hfields.flip hfound
          rw [hstored] at hτ
          obtain ⟨f', hf', hhasf⟩ := Machine.forall₂_getElem? hvals hτ
          cases hfound.symm.trans hf'
          have hindex : 1 + field = ((field.toNat + 1 : Nat) : Int) := by omega
          refine .after hruns hframe hle₁ ⟨regs₁.set d' y, s,
            runs_loadWord hcx hindex hx (load_field hrecord hy) hload hle,
            .cons ⟨y, Regs.set_self _ _ _, hyf⟩ .nil, .cons hhasf .nil, List.prefix_refl _,
            hagree.printed, fun r _ hr => regs₁.set_of_ne _ fun he => hr (he ▸ .head _)⟩
    · cases hfound
  · cases hop

/-- A value that is carried by a record is made. -/
theorem leaves_record (hcx : cx.Plain n fields) (hb : b.Sound (lawful cx w) D) {head : BuildM Reg}
    {τs : List Ty} {τ : Ty} {d : Reg} {vals : List Value} {v : Value} {P : Val n → Prop}
    (hargs : ArgsHave (cx.program.wordContext fields) args τs)
    (hreach : ∀ a ∈ args, ∀ id, a.defn? = some id → id ∈ cx.program.reachable)
    (hscope : InScope scope args) (hagree : Agree cx fields S F scope m env regs s)
    (hfree : Free F b scope [d]) (hvals : Machine.atoms cx.program m env args = .ok vals)
    (hacts : ∀ {b r b'}, Builds cx head b r b' → Acts (lawful cx w) D b D b')
    (hhead : ∀ {b r b'} (regs : Regs n) (s : State n), b.Sound (lawful cx w) D →
      Builds cx head b r b' → b'.Le F → ∃ regs' y, Runs call F b b' regs s regs' s ∧
        regs' r = some y ∧ P y ∧ Frame F b regs regs')
    (hhas : List.Forall₂ (CarriedHas cx.program fields) vals τs → CarriedHas cx.program fields v τ)
    (hcarry : ∀ {heap : Heap n} {a : Nat} {y : Val n} {xs : List (Val n)}, P y →
      heap[a]? = some (some y :: xs.map some) → List.Forall₂ (Encodes S heap) vals xs →
      Encodes S heap v (.record a))
    (h : Builds cx (record head args [d]) b u b') (hle : b'.Le F) :
    Leaves call cx.program fields S F b b' regs s [d] [v] [τ] m := by
  obtain ⟨regs', xs, y, hruns, hy, hxs, hvalues, hd, hkeep⟩ := runs_record hcx hb hargs hreach hscope
    hagree.holds hvals (hfree.below d (.head _)) (hfree.apart d (.head _)) hacts hhead h hle
  have hheap : s.heap <+: s.heap ++ [some y :: xs.map some] := List.prefix_append _ _
  refine ⟨regs', { s with heap := s.heap ++ [some y :: xs.map some] }, hruns, .cons ⟨_, hd, ?_⟩ .nil,
    .cons (hhas hvalues) .nil, hheap, hagree.printed,
    fun r hr hnot => hkeep r hr fun he => hnot (he ▸ .head _)⟩
  exact hcarry hy (List.getElem?_concat_length) (Encodes.mono_all hheap hxs)

/-- The record of a closure is made. -/
theorem leaves_alloc (hcx : cx.Plain n fields) (hb : b.Sound (lawful cx w) D) {id : DefnId}
    {inst : Option AllocType} (ht : TailOk cx fields (.alloc id args inst) ρs)
    (hscope : InScope scope args) (hS : F.symbols.Le S) (hagree : Agree cx fields S F scope m env regs s)
    (hfree : Free F b scope dests) (hlen : dests.length = ρs.length)
    (hop : Machine.operate cx.program m env (.alloc id args inst) = .ok (.values vs, m'))
    (h : Builds cx (compute (some (.alloc id args inst)) dests) b u b') (hle : b'.Le F) :
    Leaves call cx.program fields S F b b' regs s dests vs ρs m' := by
  obtain ⟨d, k, type, hd, hk, htype, hρs, hargs⟩ := ht.typed.alloc_inv
  have hid : id ∈ cx.program.reachable := ht.refs id (List.mem_append_right _ (.head _))
  obtain ⟨-, stored, τs, ρs', -, -, -, hdeclared, -⟩ := hcx.ready.closure hid hd hk
  cases htype.symm.trans hdeclared
  cases hρs
  obtain ⟨dest, rfl⟩ := exists_dest hlen
  unfold compute at h
  rw [Builds.resolve_bind, hcx.ready.words.resolve hid] at h
  obtain ⟨vals, hvals, hop⟩ := Except.bind_eq_ok.mp hop
  rw [hcx.ready.words.resolve hid] at hop
  cases hop
  refine leaves_record (P := fun y => ∃ name, y = .code name ∧ S.codeNames.lookup id = some name) hcx hb
    hargs ht.reach hscope hagree hfree hvals (fun {b r b'} h => ?_) (fun {b r b'} regs s hb h hle => ?_)
    (fun hvals => .closure hid hd hk hdeclared hvals) ?_ h hle
  · rw [Builds.freshReg_bind] at h
    obtain ⟨name, b₁, hname, h⟩ := Builds.bind_iff.mp h
    obtain ⟨_, b₂, hop, h⟩ := Builds.bind_iff.mp h
    obtain ⟨-, rfl⟩ := Builds.pure_iff.mp h
    obtain ⟨hacts, hname⟩ := acts_codeSymbol (R := lawful cx w) (D := D) hname
    exact .step .reg (hacts.trans (acts_emit hop (fun _ => rfl) fun _ => ⟨id, d, k, hid, hd, hk, hname⟩))
  · rw [Builds.freshReg_bind] at h
    obtain ⟨name, b₁, hname, h⟩ := Builds.bind_iff.mp h
    obtain ⟨_, b₂, hop, h⟩ := Builds.bind_iff.mp h
    obtain ⟨rfl, rfl⟩ := Builds.pure_iff.mp h
    obtain ⟨hacts₁, hname'⟩ := acts_codeSymbol (R := lawful cx w) (D := D) hname
    obtain ⟨hb₀, -⟩ := (Acts.of (.reg (R := lawful cx w) (D := D))).sound hb
    obtain ⟨hb₁, hle₁⟩ := hacts₁.sound hb₀
    obtain ⟨-, hle₂⟩ := (acts_emit (R := lawful cx w) (D := D) hop (fun _ => rfl)
      fun _ => ⟨id, d, k, hid, hd, hk, hname'⟩).sound hb₁
    refine ⟨regs.set b.nextReg (.code name), .code name, ?_, Regs.set_self _ _ _, ⟨name, rfl, ?_⟩,
      frame_set (not_kept_nextReg hb (hle₁.trans (hle₂.trans hle)))⟩
    · have hsame : b₁.current = b.current := by
        obtain ⟨-, rfl⟩ := Builds.codeSymbol_iff.mp hname
        rfl
      exact (Runs.of_current hsame).trans (runs_operation rfl rfl hop hle)
    · exact hS.codes ((hle₂.trans hle).symbols.codes hname')
  · rintro heap a y xs ⟨name, rfl, hname⟩ hrecord hxs
    exact .closure hname hrecord hxs

/-- The record of a data value is made. -/
theorem leaves_data (hcx : cx.Plain n fields) (hb : b.Sound (lawful cx w) D) {k : Cfun}
    {inst : Option AllocType} (ht : TailOk cx fields (.data k args inst) ρs)
    (hscope : InScope scope args) (hagree : Agree cx fields S F scope m env regs s)
    (hfree : Free F b scope dests) (hlen : dests.length = ρs.length)
    (hop : Machine.operate cx.program m env (.data k args inst) = .ok (.values vs, m'))
    (h : Builds cx (compute (some (.data k args inst)) dests) b u b') (hle : b'.Le F) :
    Leaves call cx.program fields S F b b' regs s dests vs ρs m' := by
  obtain ⟨type, ⟨hcfun, hstored, name, hdata, hresult⟩, hρs, hargs⟩ := ht.typed.data_inv
  cases hρs
  obtain ⟨dest, rfl⟩ := exists_dest hlen
  obtain ⟨vals, hvals, hop⟩ := Except.bind_eq_ok.mp hop
  cases hop
  rw [hstored] at hargs
  refine leaves_record (P := fun y => y = .word (BitVec.ofNat n k.tag)) hcx hb hargs ht.reach hscope
    hagree hfree hvals acts_const (fun {b r b'} regs s hb h hle => ?_)
    (fun hvals => .data hcfun hdata hresult hvals) ?_ h hle
  · obtain ⟨regs', hruns, hr, hframe, -, -⟩ := runs_const call regs s hb h hle
    rw [BitVec.ofInt_natCast] at hr
    exact ⟨regs', _, hruns, hr, rfl, hframe⟩
  · rintro heap a y xs rfl hrecord hxs
    exact .data hrecord hxs

/-- What a tail comes to that neither calls nor enters anything is left in registers. -/
theorem leaves_compute (hcx : cx.Plain n fields) (hb : b.Sound (lawful cx w) D) {t : Tail}
    (ht : TailOk cx fields t ρs) (hbuiltin : t.Builtin) (hscope : InScope scope t.atoms)
    (hS : F.symbols.Le S) (hagree : Agree cx fields S F scope m env regs s)
    (hfree : Free F b scope dests) (hlen : dests.length = ρs.length)
    (hstray : Machine.strays cx.program m env t = false)
    (hop : Machine.operate cx.program m env t = .ok (.values vs, m'))
    (h : Builds cx (compute (some t) dests) b u b') (hle : b'.Le F) :
    Leaves call cx.program fields S F b b' regs s dests vs ρs m' := by
  cases t with
  | ret args => exact leaves_ret hcx hb ht hscope hagree hfree hlen hop h hle
  | prim q args inst => exact leaves_prim hcx hb ht hbuiltin hscope hagree hlen hop h hle
  | alloc id args inst => exact leaves_alloc hcx hb ht hscope hS hagree hfree hlen hop h hle
  | data k args inst => exact leaves_data hcx hb ht hscope hagree hfree hlen hop h hle
  | sel k field arg inst => exact leaves_sel hcx hb ht hscope hagree hlen hstray hop h hle
  | call c => exact (Builds.throw_iff h).elim
  | enter fn args => exact (Builds.throw_iff h).elim

end Tails

end Mil.Rtl
