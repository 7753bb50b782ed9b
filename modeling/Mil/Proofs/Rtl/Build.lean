import Mathlib.Data.List.Perm.Basic
import Mil.Proofs.Rtl.Symbols
import Mil.Proofs.Ty.Reader
import Mil.Rtl.Body

/-!
What the construction of a function does, one action after the other: it takes nodes, registers and
symbols, gives registers to temporaries and nodes to blocks, places an instruction at the current
node, and goes on at a node that it has taken before. Nodes that were taken and are not current yet
are held, in any order.

An action that starts from a sound builder leaves one, and changes nothing of what was placed. A
builder is sound if no node that is still open has an instruction, and every place that an instruction
leads to has one or is still open.
-/

namespace Mil.Rtl

/-! ### Runs of the construction -/

/-- A construction leads from one builder to another and gives a value. -/
def Builds {α : Type} (cx : Setting) (x : BuildM α) (b : Builder) (a : α) (b' : Builder) : Prop :=
  (x.run cx).run b = .ok (a, b')

namespace Builds

variable {α β : Type} {cx : Setting} {b b' b'' : Builder}

@[simp] theorem pure_iff {a a' : α} : Builds cx (pure a) b a' b' ↔ a' = a ∧ b' = b := by
  refine ⟨fun h => ?_, fun ⟨ha, hb⟩ => ha ▸ hb ▸ rfl⟩
  cases h
  exact ⟨rfl, rfl⟩

theorem bind_iff {x : BuildM α} {f : α → BuildM β} {c : β} :
    Builds cx (x >>= f) b c b'' ↔ ∃ a b', Builds cx x b a b' ∧ Builds cx (f a) b' c b'' := by
  refine Except.bind_eq_ok.trans ⟨?_, ?_⟩
  · rintro ⟨⟨a, b'⟩, hx, hf⟩
    exact ⟨a, b', hx, hf⟩
  · rintro ⟨a, b', hx, hf⟩
    exact ⟨(a, b'), hx, hf⟩

@[simp] theorem map_iff {x : BuildM α} {f : α → β} {c : β} :
    Builds cx (f <$> x) b c b' ↔ ∃ a, Builds cx x b a b' ∧ c = f a := by
  rw [map_eq_pure_bind, bind_iff]
  constructor
  · rintro ⟨a, b₁, hx, hp⟩
    obtain ⟨rfl, rfl⟩ := pure_iff.mp hp
    exact ⟨a, hx, rfl⟩
  · rintro ⟨a, hx, rfl⟩
    exact ⟨a, b', hx, pure_iff.mpr ⟨rfl, rfl⟩⟩

@[simp] theorem get_iff {a : Builder} : Builds cx get b a b' ↔ a = b ∧ b' = b :=
  show Builds cx (pure b) b a b' ↔ _ from pure_iff

@[simp] theorem read_iff {a : Setting} : Builds cx read b a b' ↔ a = cx ∧ b' = b :=
  show Builds cx (pure cx) b a b' ↔ _ from pure_iff

@[simp] theorem modify_iff {f : Builder → Builder} {u : Unit} :
    Builds cx (modify f) b u b' ↔ b' = f b := by
  refine ⟨fun h => ?_, fun h => h ▸ rfl⟩
  cases h
  rfl

@[simp] theorem modifyGet_iff {f : Builder → α × Builder} {a : α} :
    Builds cx (modifyGet f) b a b' ↔ f b = (a, b') := by
  refine ⟨fun h => Except.ok.inj h, fun h => ?_⟩
  show Except.ok (f b) = _
  rw [h]

@[simp] theorem throw_iff {e : Defect} {a : α} : ¬ Builds cx (throw e) b a b' := nofun

/-! What is read can be put in its place. -/

@[simp] theorem get_bind {f : Builder → BuildM β} {c : β} :
    Builds cx (get >>= f) b c b' ↔ Builds cx (f b) b c b' := Iff.rfl

@[simp] theorem read_bind {f : Setting → BuildM β} {c : β} :
    Builds cx (read >>= f) b c b' ↔ Builds cx (f cx) b c b' := Iff.rfl

@[simp] theorem modify_bind {g : Builder → Builder} {f : Unit → BuildM β} {c : β} :
    Builds cx (modify g >>= f) b c b' ↔ Builds cx (f ()) (g b) c b' := Iff.rfl

@[simp] theorem isOpen_bind {f : Bool → BuildM β} {c : β} :
    Builds cx (BuildM.isOpen >>= f) b c b' ↔ Builds cx (f b.current.isSome) b c b' := Iff.rfl

@[simp] theorem label?_bind {id : DefnId} {f : Option Node → BuildM β} {c : β} :
    Builds cx (BuildM.label? id >>= f) b c b' ↔ Builds cx (f (b.labels.lookup id)) b c b' := Iff.rfl

@[simp] theorem resolve_bind {id : DefnId} {f : DefnId → BuildM β} {c : β} :
    Builds cx (BuildM.resolve id >>= f) b c b' ↔ Builds cx (f (cx.program.resolve id)) b c b' :=
  Iff.rfl

@[simp] theorem wordOffset_bind {index : Int} {f : Int → BuildM β} {c : β} :
    Builds cx (BuildM.wordOffset index >>= f) b c b' ↔ Builds cx (f (index * cx.wordBytes)) b c b' :=
  Iff.rfl

@[simp] theorem freshNode_bind {f : Node → BuildM β} {c : β} :
    Builds cx (BuildM.freshNode >>= f) b c b' ↔
      Builds cx (f b.nextNode) { b with nextNode := b.nextNode + 1 } c b' := Iff.rfl

@[simp] theorem freshReg_bind {f : Reg → BuildM β} {c : β} :
    Builds cx (BuildM.freshReg >>= f) b c b' ↔
      Builds cx (f b.nextReg) { b with nextReg := b.nextReg + 1 } c b' := Iff.rfl

@[simp] theorem startAt_bind {n : Node} {f : Unit → BuildM β} {c : β} :
    Builds cx (BuildM.startAt n >>= f) b c b' ↔ Builds cx (f ()) { b with current := some n } c b' :=
  Iff.rfl

theorem block_iff {id : DefnId} {a : Block} :
    Builds cx (BuildM.block id) b a b' ↔ cx.program.block id = .ok a ∧ b' = b := by
  rw [BuildM.block, read_bind]
  cases cx.program.block id with
  | error e => exact ⟨fun h => (throw_iff h).elim, fun h => nomatch h.1⟩
  | ok c => exact pure_iff.trans (and_congr_left' ⟨fun h => h ▸ rfl, fun h => (Except.ok.inj h).symm⟩)

theorem boundReg_iff {t : Temp} {r : Reg} :
    Builds cx (BuildM.boundReg t) b r b' ↔ b.regs.lookup t = some r ∧ b' = b := by
  rw [BuildM.boundReg, get_bind]
  cases b.regs.lookup t with
  | none => exact ⟨fun h => (throw_iff h).elim, fun h => nomatch h.1⟩
  | some c => exact pure_iff.trans (and_congr_left' ⟨fun h => h ▸ rfl, fun h => (Option.some.inj h).symm⟩)

theorem symbol_iff {id : DefnId} {name : String} : Builds cx (BuildM.symbol id) b name b' ↔
    name = (b.symbols.ofDefn cx.program id).1 ∧
      b' = { b with symbols := (b.symbols.ofDefn cx.program id).2 } := by
  rw [BuildM.symbol, read_bind, modifyGet_iff, Prod.mk.injEq, eq_comm, eq_comm (a := b')]

theorem codeSymbol_iff {id : DefnId} {name : String} : Builds cx (BuildM.codeSymbol id) b name b' ↔
    name = (b.symbols.ofCode cx.program id).1 ∧
      b' = { b with symbols := (b.symbols.ofCode cx.program id).2 } := by
  rw [BuildM.codeSymbol, read_bind, modifyGet_iff, Prod.mk.injEq, eq_comm, eq_comm (a := b')]

@[simp] theorem freshNode_iff {n : Node} : Builds cx BuildM.freshNode b n b' ↔
    n = b.nextNode ∧ b' = { b with nextNode := b.nextNode + 1 } := by
  rw [BuildM.freshNode, modifyGet_iff, Prod.mk.injEq, eq_comm, eq_comm (a := b')]

@[simp] theorem freshReg_iff {r : Reg} : Builds cx BuildM.freshReg b r b' ↔
    r = b.nextReg ∧ b' = { b with nextReg := b.nextReg + 1 } := by
  rw [BuildM.freshReg, modifyGet_iff, Prod.mk.injEq, eq_comm, eq_comm (a := b')]

@[simp] theorem startAt_iff {n : Node} {u : Unit} :
    Builds cx (BuildM.startAt n) b u b' ↔ b' = { b with current := some n } :=
  modify_iff

theorem newLabel_iff {id : DefnId} {n : Node} : Builds cx (BuildM.newLabel id) b n b' ↔
    n = b.nextNode ∧ b' = { b with
      nextNode := b.nextNode + 1, labels := (id, b.nextNode) :: b.labels,
      pending := b.pending ++ [id] } := by
  rw [BuildM.newLabel, freshNode_bind, modify_bind, pure_iff]

/-- A temporary keeps its register, or takes a new one. -/
theorem regOf_iff {t : Temp} {r : Reg} : Builds cx (BuildM.regOf t) b r b' ↔
    (b.regs.lookup t = some r ∧ b' = b) ∨ (b.regs.lookup t = none ∧ r = b.nextReg ∧
      b' = { b with nextReg := b.nextReg + 1, regs := (t, b.nextReg) :: b.regs }) := by
  rw [BuildM.regOf, get_bind]
  cases b.regs.lookup t with
  | none =>
      dsimp only
      rw [freshReg_bind, modify_bind, pure_iff]
      exact ⟨fun h => .inr ⟨rfl, h⟩, fun h => (h.resolve_left fun h => nomatch h.1).2⟩
  | some c =>
      refine pure_iff.trans ⟨fun h => .inl ⟨h.1 ▸ rfl, h.2⟩, fun h => ?_⟩
      rcases h with h | h
      · exact ⟨(Option.some.inj h.1).symm, h.2⟩
      · cases h.1

/-- An instruction is placed at the current node, if there is one. -/
theorem emit_iff {make : Node → Instr} {u : Unit} : Builds cx (BuildM.emit make) b u b' ↔
    (b.current = none ∧ b' = b) ∨ ∃ n, b.current = some n ∧ b' = { b with
      nextNode := b.nextNode + 1, code := b.code.insert n (make b.nextNode),
      current := some b.nextNode } := by
  rw [BuildM.emit, get_bind]
  cases b.current with
  | none =>
      refine pure_iff.trans ⟨fun h => .inl ⟨rfl, h.2⟩, fun h => ?_⟩
      rcases h with h | ⟨n, h, -⟩
      · exact ⟨rfl, h.2⟩
      · cases h
  | some n =>
      dsimp only
      rw [freshNode_bind, modify_iff]
      refine ⟨fun h => .inr ⟨n, rfl, h⟩, fun h => ?_⟩
      rcases h with h | ⟨m, hm, h⟩
      · cases h.1
      · cases hm
        exact h

theorem terminate_iff {i : Instr} {u : Unit} : Builds cx (BuildM.terminate i) b u b' ↔
    (b.current = none ∧ b' = b) ∨ ∃ n, b.current = some n ∧ b' = { b with
      code := b.code.insert n i, current := none } := by
  rw [BuildM.terminate, modify_iff]
  cases b.current with
  | none =>
      refine ⟨fun h => .inl ⟨rfl, h⟩, fun h => ?_⟩
      rcases h with h | ⟨n, h, -⟩
      · exact h.2
      · cases h
  | some n =>
      refine ⟨fun h => .inr ⟨n, rfl, h⟩, fun h => ?_⟩
      rcases h with h | ⟨m, hm, h⟩
      · cases h.1
      · cases hm
        exact h

theorem mapM_nil_iff {f : α → BuildM β} {bs : List β} :
    Builds cx (List.mapM f []) b bs b' ↔ bs = [] ∧ b' = b := by
  rw [List.mapM_nil, pure_iff]

theorem mapM_cons_iff {f : α → BuildM β} {a : α} {as : List α} {bs : List β} :
    Builds cx (List.mapM f (a :: as)) b bs b'' ↔ ∃ x xs b', Builds cx (f a) b x b' ∧
      Builds cx (as.mapM f) b' xs b'' ∧ bs = x :: xs := by
  rw [List.mapM_cons, bind_iff]
  constructor
  · rintro ⟨x, b', hx, h⟩
    obtain ⟨xs, b₁, hxs, h⟩ := bind_iff.mp h
    obtain ⟨rfl, rfl⟩ := pure_iff.mp h
    exact ⟨x, xs, b', hx, hxs, rfl⟩
  · rintro ⟨x, xs, b', hx, hxs, rfl⟩
    exact ⟨x, b', hx, bind_iff.mpr ⟨xs, b'', hxs, pure_iff.mpr ⟨rfl, rfl⟩⟩⟩

theorem forM_nil_iff {f : α → BuildM Unit} {u : Unit} :
    Builds cx (([] : List α).forM f) b u b' ↔ b' = b := by
  rw [List.forM_eq_forM, List.forM_nil, pure_iff]
  exact ⟨fun h => h.2, fun h => ⟨rfl, h⟩⟩

theorem forM_cons_iff {f : α → BuildM Unit} {a : α} {as : List α} {u : Unit} :
    Builds cx ((a :: as).forM f) b u b'' ↔ ∃ b', Builds cx (f a) b () b' ∧
      Builds cx (as.forM f) b' () b'' := by
  rw [List.forM_eq_forM, List.forM_cons, bind_iff]
  exact ⟨fun ⟨_, b', hx, hxs⟩ => ⟨b', hx, hxs⟩, fun ⟨b', hx, hxs⟩ => ⟨(), b', hx, hxs⟩⟩

end Builds

/-! ### Actions -/

/-- Which instructions may be placed, with the symbols that are known, and which blocks may become
parts of the function. -/
structure Rules where
  instr : Symbols → Instr → Prop
  label : DefnId → Prop
  mono : ∀ {s s' i}, s.Le s' → instr s i → instr s' i

/-- One action. The first list holds the nodes that are held before it, the second those after it. -/
inductive Act (R : Rules) : List Node → Builder → List Node → Builder → Prop
  | node {D b} : Act R D b (b.nextNode :: D) { b with nextNode := b.nextNode + 1 }
  | reg {D b} : Act R D b D { b with nextReg := b.nextReg + 1 }
  | bind {D b t} (hnone : b.regs.lookup t = none) :
      Act R D b D { b with nextReg := b.nextReg + 1, regs := (t, b.nextReg) :: b.regs }
  | symbols {D b s} (hle : b.symbols.Le s) : Act R D b D { b with symbols := s }
  | place {D b n i} (hcur : b.current = some n) (hok : R.instr b.symbols i)
      (hsucc : ∀ s ∈ i.successors, s ∈ D ∨ ∃ id, b.labels.lookup id = some s) :
      Act R D b D { b with code := b.code.insert n i, current := none }
  | perm {D D' b} (hperm : D.Perm D') : Act R D b D' b
  | start {D b n} (hcur : b.current = none) : Act R (n :: D) b D { b with current := some n }
  | label {D b id} (hnone : b.labels.lookup id = none) (hok : R.label id) :
      Act R D b D { b with
        nextNode := b.nextNode + 1, labels := (id, b.nextNode) :: b.labels,
        pending := b.pending ++ [id] }

/-- Actions in turn. -/
inductive Acts (R : Rules) : List Node → Builder → List Node → Builder → Prop
  | refl {D b} : Acts R D b D b
  | step {D b D₁ b₁ D₂ b₂} (hfirst : Act R D b D₁ b₁) (hrest : Acts R D₁ b₁ D₂ b₂) :
      Acts R D b D₂ b₂

namespace Acts

variable {R : Rules} {D D₁ D₂ : List Node} {b b₁ b₂ : Builder}

theorem trans (h : Acts R D b D₁ b₁) (h' : Acts R D₁ b₁ D₂ b₂) : Acts R D b D₂ b₂ := by
  induction h with
  | refl => exact h'
  | step hfirst _ ih => exact .step hfirst (ih h')

theorem of (h : Act R D b D₁ b₁) : Acts R D b D₁ b₁ := .step h .refl

end Acts

/-! ### Sound builders -/

namespace Builder

/-- The nodes of the blocks that wait in line. -/
def waiting (b : Builder) : List Node := b.pending.filterMap fun id => b.labels.lookup id

/-- The nodes that are still to get an instruction. -/
def opened (D : List Node) (b : Builder) : List Node := b.current.toList ++ (D ++ b.waiting)

/-- A node that has an instruction or is still to get one. -/
def Covers (D : List Node) (b : Builder) (n : Node) : Prop :=
  (b.code.lookup n).isSome ∨ n ∈ b.opened D

/-- No open node has an instruction, and what instructions lead to is covered. Registers belong to
one temporary each. -/
structure Sound (R : Rules) (D : List Node) (b : Builder) : Prop where
  nodup : (b.opened D).Nodup
  unplaced : ∀ {n}, n ∈ b.opened D → b.code.lookup n = none
  below : ∀ {n}, b.Covers D n → n < b.nextNode
  keys : (b.code.map Prod.fst).Nodup
  pending : ∀ {id}, id ∈ b.pending → (b.labels.lookup id).isSome
  labels : ∀ {id n}, b.labels.lookup id = some n → R.label id ∧ b.Covers D n
  labelled : (b.labels.map Prod.fst).Nodup
  closed : ∀ {n i}, (n, i) ∈ b.code → ∀ s ∈ i.successors, b.Covers D s
  instr : ∀ {n i}, (n, i) ∈ b.code → R.instr b.symbols i
  regs : ∀ {t r}, b.regs.lookup t = some r → r < b.nextReg
  own : ∀ {t t' r}, b.regs.lookup t = some r → b.regs.lookup t' = some r → t = t'

/-- More was placed and given out, and what was there before is as it was: a register that was taken
before belongs to no other temporary. -/
structure Le (b b' : Builder) : Prop where
  code : ∀ {n i}, b.code.lookup n = some i → b'.code.lookup n = some i
  labels : ∀ {id n}, b.labels.lookup id = some n → b'.labels.lookup id = some n
  regs : ∀ {t r}, b.regs.lookup t = some r → b'.regs.lookup t = some r
  old : ∀ {t r}, b'.regs.lookup t = some r → r < b.nextReg → b.regs.lookup t = some r
  nextReg : b.nextReg ≤ b'.nextReg
  symbols : b.symbols.Le b'.symbols

theorem Le.refl (b : Builder) : b.Le b := ⟨id, id, id, fun h _ => h, Int.le_refl _, .refl _⟩

theorem Le.trans {b₁ b₂ b₃ : Builder} (h : b₁.Le b₂) (h' : b₂.Le b₃) : b₁.Le b₃ :=
  ⟨fun hn => h'.code (h.code hn), fun hn => h'.labels (h.labels hn), fun hn => h'.regs (h.regs hn),
    fun hr hlt => h.old (h'.old hr (Int.lt_of_lt_of_le hlt h.nextReg)) hlt, Int.le_trans h.nextReg h'.nextReg, h.symbols.trans h'.symbols⟩

end Builder

section Actions

open Builder

variable {R : Rules} {D D' : List Node} {b b' : Builder}

/-- Anything but the nodes, the code and the labels may change. -/
theorem Builder.Sound.congr (h : b.Sound R D) (hcode : b'.code = b.code)
    (hcurrent : b'.current = b.current) (hlabels : b'.labels = b.labels)
    (hpending : b'.pending = b.pending) (hnode : b'.nextNode = b.nextNode)
    (hsymbols : b.symbols.Le b'.symbols) (hregs : ∀ {t r}, b'.regs.lookup t = some r → r < b'.nextReg)
    (hown : ∀ {t t' r}, b'.regs.lookup t = some r → b'.regs.lookup t' = some r → t = t') :
    b'.Sound R D := by
  have hopened : b'.opened D = b.opened D := by
    unfold opened waiting
    rw [hcurrent, hlabels, hpending]
  have hcovers : ∀ {n}, b'.Covers D n ↔ b.Covers D n := by
    intro n
    unfold Covers
    rw [hopened, hcode]
  exact
    { nodup := hopened ▸ h.nodup
      unplaced := fun hn => hcode ▸ h.unplaced (hopened ▸ hn)
      below := fun hn => hnode ▸ h.below (hcovers.mp hn)
      keys := hcode ▸ h.keys
      pending := fun hid => hlabels ▸ h.pending (hpending ▸ hid)
      labels := fun hn => (h.labels (hlabels ▸ hn)).imp_right hcovers.mpr
      labelled := hlabels ▸ h.labelled
      closed := fun hi s hs => hcovers.mpr (h.closed (hcode ▸ hi) s hs)
      instr := fun hi => R.mono hsymbols (h.instr (hcode ▸ hi))
      regs := hregs
      own := hown }

/-- The open nodes may be held in another order. -/
theorem Builder.Sound.perm (h : b.Sound R D) (hD : (b'.opened D').Perm (b.opened D))
    (hcode : b'.code = b.code) (hlabels : b'.labels = b.labels)
    (hpending : b'.pending ⊆ b.pending) (hnode : b'.nextNode = b.nextNode)
    (hsymbols : b'.symbols = b.symbols) (hnext : b'.nextReg = b.nextReg) (hregs : b'.regs = b.regs) :
    b'.Sound R D' := by
  have hcovers : ∀ {n}, b'.Covers D' n ↔ b.Covers D n := by
    intro n
    unfold Covers
    rw [hD.mem_iff, hcode]
  exact
    { nodup := hD.nodup_iff.mpr h.nodup
      unplaced := fun hn => hcode ▸ h.unplaced (hD.mem_iff.mp hn)
      below := fun hn => hnode ▸ h.below (hcovers.mp hn)
      keys := hcode ▸ h.keys
      pending := fun hid => hlabels ▸ h.pending (hpending hid)
      labels := fun hn => (h.labels (hlabels ▸ hn)).imp_right hcovers.mpr
      labelled := hlabels ▸ h.labelled
      closed := fun hi s hs => hcovers.mpr (h.closed (hcode ▸ hi) s hs)
      instr := fun hi => hsymbols ▸ h.instr (hcode ▸ hi)
      regs := fun hr => hnext ▸ h.regs (hregs ▸ hr)
      own := fun hr hr' => h.own (hregs ▸ hr) (hregs ▸ hr') }

/-- A node that was never taken is not covered. -/
theorem Builder.Sound.fresh (h : b.Sound R D) : ¬ b.Covers D b.nextNode :=
  fun hn => Int.lt_irrefl _ (h.below hn)

theorem Builder.Sound.act_place (h : b.Sound R D) {n : Node} {i : Instr} (hcur : b.current = some n)
    (hok : R.instr b.symbols i)
    (hsucc : ∀ s ∈ i.successors, s ∈ D ∨ ∃ id, b.labels.lookup id = some s) :
    Builder.Sound R D { b with code := b.code.insert n i, current := none } ∧
      b.Le { b with code := b.code.insert n i, current := none } := by
  have hopened : b.opened D = n :: (D ++ b.waiting) := by
    unfold opened
    rw [hcur]
    rfl
  have hn : b.code.lookup n = none := h.unplaced (hopened ▸ .head _)
  have hnodup := h.nodup
  rw [hopened, List.nodup_cons] at hnodup
  have hcovers : ∀ {m}, b.Covers D m →
      Covers D { b with code := b.code.insert n i, current := none } m := by
    intro m hm
    by_cases hmn : m = n
    · refine .inl ?_
      show ((b.code.insert n i).lookup m).isSome
      rw [Graph.lookup_insert, if_pos hmn]
      rfl
    · rcases hm with hm | hm
      · refine .inl ?_
        show ((b.code.insert n i).lookup m).isSome
        rw [Graph.lookup_insert, if_neg hmn]
        exact hm
      · rw [hopened] at hm
        exact .inr ((List.mem_cons.mp hm).resolve_left hmn)
  have hback : ∀ {m}, Covers D { b with code := b.code.insert n i, current := none } m →
      b.Covers D m := by
    intro m hm
    rcases hm with hm | hm
    · change ((b.code.insert n i).lookup m).isSome at hm
      rw [Graph.lookup_insert] at hm
      split at hm
      · rename_i he
        exact .inr (hopened ▸ he ▸ .head _)
      · exact .inl hm
    · exact .inr (hopened ▸ .tail _ hm)
  refine ⟨?_, ⟨fun {m j} hm => ?_, id, id, fun hr _ => hr, Int.le_refl _, .refl _⟩⟩
  · constructor
    · exact hnodup.2
    · intro m hm
      have hne : m ≠ n := fun he => hnodup.1 (he ▸ hm)
      exact (Graph.lookup_insert _ _ _ _).trans ((if_neg hne).trans (h.unplaced (hopened ▸ .tail _ hm)))
    · exact fun hm => h.below (hback hm)
    · exact Graph.nodup_insert h.keys hn
    · exact h.pending
    · exact fun hm => (h.labels hm).imp_right hcovers
    · exact h.labelled
    · intro m j hj s hs
      rcases Graph.mem_insert hj with he | hj
      · cases he
        rcases hsucc s hs with hD | ⟨id, hid⟩
        · exact .inr (List.mem_append_left b.waiting hD)
        · exact hcovers (h.labels hid).2
      · exact hcovers (h.closed hj s hs)
    · intro m j hj
      rcases Graph.mem_insert hj with he | hj
      · cases he
        exact hok
      · exact h.instr hj
    · exact h.regs
    · exact h.own
  · have hne : m ≠ n := fun he => by
      rw [he, hn] at hm
      cases hm
    exact (Graph.lookup_insert _ _ _ _).trans ((if_neg hne).trans hm)

theorem Builder.Sound.act_node (h : b.Sound R D) :
    Builder.Sound R (b.nextNode :: D) { b with nextNode := b.nextNode + 1 } := by
  have hopened : ({ b with nextNode := b.nextNode + 1 } : Builder).opened (b.nextNode :: D) =
      b.current.toList ++ b.nextNode :: (D ++ b.waiting) := rfl
  have hperm : (b.current.toList ++ b.nextNode :: (D ++ b.waiting)).Perm
      (b.nextNode :: b.opened D) := List.perm_middle
  have hcovers : ∀ {m}, Covers (b.nextNode :: D) { b with nextNode := b.nextNode + 1 } m ↔
      m = b.nextNode ∨ b.Covers D m := by
    intro m
    unfold Covers
    rw [hopened, hperm.mem_iff, List.mem_cons, or_left_comm]
  constructor
  · rw [hopened, hperm.nodup_iff, List.nodup_cons]
    exact ⟨fun hn => h.fresh (.inr hn), h.nodup⟩
  · intro m hm
    rw [hopened, hperm.mem_iff, List.mem_cons] at hm
    rcases hm with rfl | hm
    · exact Option.not_isSome_iff_eq_none.mp fun hn => h.fresh (.inl hn)
    · exact h.unplaced hm
  · intro m hm
    rcases hcovers.mp hm with rfl | hm
    · exact Int.lt_succ _
    · exact Int.lt_trans (h.below hm) (Int.lt_succ _)
  · exact h.keys
  · exact h.pending
  · exact fun hm => (h.labels hm).imp_right fun hm => hcovers.mpr (.inr hm)
  · exact h.labelled
  · exact fun hi s hs => hcovers.mpr (.inr (h.closed hi s hs))
  · exact h.instr
  · exact h.regs
  · exact h.own

theorem Builder.Sound.act_label (h : b.Sound R D) {id : DefnId} (hnone : b.labels.lookup id = none)
    (hok : R.label id) :
    Builder.Sound R D { b with
      nextNode := b.nextNode + 1, labels := (id, b.nextNode) :: b.labels,
      pending := b.pending ++ [id] } := by
  have hwaiting : ({ b with
      nextNode := b.nextNode + 1, labels := (id, b.nextNode) :: b.labels,
      pending := b.pending ++ [id] } : Builder).waiting = b.waiting ++ [b.nextNode] := by
    unfold waiting
    rw [List.filterMap_append]
    congr 1
    · refine List.filterMap_congr fun j hj => ?_
      have hne : j ≠ id := fun he => by
        have := h.pending hj
        rw [he, hnone] at this
        cases this
      exact (lookup_cons_ite j id _ _).trans (if_neg hne)
    · rw [List.filterMap_cons, (lookup_cons_ite id id b.nextNode b.labels).trans (if_pos rfl)]
      rfl
  have hopened : ({ b with
      nextNode := b.nextNode + 1, labels := (id, b.nextNode) :: b.labels,
      pending := b.pending ++ [id] } : Builder).opened D = b.opened D ++ [b.nextNode] := by
    unfold opened
    rw [hwaiting, List.append_assoc, List.append_assoc]
  have hcovers : ∀ {m}, Covers D { b with
      nextNode := b.nextNode + 1, labels := (id, b.nextNode) :: b.labels,
      pending := b.pending ++ [id] } m ↔ b.Covers D m ∨ m = b.nextNode := by
    intro m
    unfold Covers
    rw [hopened, List.mem_append, List.mem_singleton, or_assoc]
  have hfresh := h.fresh
  unfold Covers at hfresh
  rw [not_or] at hfresh
  constructor
  · rw [hopened]
    refine List.nodup_append.mpr ⟨h.nodup, List.nodup_singleton _, fun m hm n hn he => ?_⟩
    rw [List.mem_singleton] at hn
    exact hfresh.2 (hn ▸ he ▸ hm)
  · intro m hm
    rw [hopened] at hm
    rcases List.mem_append.mp hm with hm | hm
    · exact h.unplaced hm
    · rw [List.mem_singleton.mp hm]
      exact Option.not_isSome_iff_eq_none.mp hfresh.1
  · intro m hm
    rcases hcovers.mp hm with hm | rfl
    · exact Int.lt_trans (h.below hm) (Int.lt_succ _)
    · exact Int.lt_succ _
  · exact h.keys
  · intro j hj
    rcases List.mem_append.mp hj with hj | hj
    · obtain ⟨n, hn⟩ := Option.isSome_iff_exists.mp (h.pending hj)
      exact Option.isSome_iff_exists.mpr ⟨n, lookup_cons_of_none hnone hn⟩
    · rw [List.mem_singleton.mp hj]
      exact Option.isSome_iff_exists.mpr ⟨_, (lookup_cons_ite id id _ _).trans (if_pos rfl)⟩
  · intro j n hn
    rcases lookup_cons_eq_some hn with ⟨rfl, rfl⟩ | hn'
    · exact ⟨hok, hcovers.mpr (.inr rfl)⟩
    · exact (h.labels hn').imp_right fun hm => hcovers.mpr (.inl hm)
  · rw [List.map_cons, List.nodup_cons]
    exact ⟨lookup_eq_none_iff_not_mem.mp hnone, h.labelled⟩
  · exact fun hi s hs => hcovers.mpr (.inl (h.closed hi s hs))
  · exact h.instr
  · exact h.regs
  · exact h.own

/-- An action keeps a builder sound and what was placed in place. -/
theorem Act.sound (h : b.Sound R D) (hact : Act R D b D' b') : b'.Sound R D' ∧ b.Le b' := by
  cases hact with
  | node => exact ⟨h.act_node, id, id, id, fun hr _ => hr, Int.le_refl _, .refl _⟩
  | reg =>
      refine ⟨h.congr rfl rfl rfl rfl rfl (.refl _) (fun hr => ?_) h.own, id, id, id, fun hr _ => hr,
        Int.le_of_lt (Int.lt_succ _), .refl _⟩
      exact Int.lt_trans (h.regs hr) (Int.lt_succ _)
  | bind hnone =>
      refine ⟨h.congr rfl rfl rfl rfl rfl (.refl _) (fun hr => ?_) fun hr hr' => ?_, id, id,
        fun hr => lookup_cons_of_none hnone hr, fun hr hlt => ?_, Int.le_of_lt (Int.lt_succ _), .refl _⟩
      · rcases lookup_cons_eq_some hr with ⟨-, rfl⟩ | hr
        · exact Int.lt_succ _
        · exact Int.lt_trans (h.regs hr) (Int.lt_succ _)
      · rcases lookup_cons_eq_some hr with ⟨rfl, rfl⟩ | hr₁ <;>
          rcases lookup_cons_eq_some hr' with ⟨rfl, hn⟩ | hr₂
        · rfl
        · exact absurd (h.regs hr₂) (Int.lt_irrefl _)
        · exact absurd (hn ▸ h.regs hr₁) (Int.lt_irrefl _)
        · exact h.own hr₁ hr₂
      · rcases lookup_cons_eq_some hr with ⟨-, rfl⟩ | hr
        · exact absurd hlt (Int.lt_irrefl _)
        · exact hr
  | symbols hle =>
      exact ⟨h.congr rfl rfl rfl rfl rfl hle h.regs h.own, id, id, id, fun hr _ => hr, Int.le_refl _, hle⟩
  | place hcur hok hsucc => exact h.act_place hcur hok hsucc
  | perm hperm =>
      refine ⟨h.perm ?_ rfl rfl (fun _ h => h) rfl rfl rfl rfl, .refl b⟩
      exact ((hperm.append_right _).append_left _).symm
  | start hcur =>
      refine ⟨h.perm ?_ rfl rfl (fun _ h => h) rfl rfl rfl rfl, id, id, id, fun hr _ => hr,
        Int.le_refl _, .refl _⟩
      unfold opened
      rw [hcur]
      exact .refl _
  | label hnone hok =>
      exact ⟨h.act_label hnone hok, id, fun hn => lookup_cons_of_none hnone hn, id, fun hr _ => hr,
        Int.le_refl _, .refl _⟩

theorem Acts.sound (hacts : Acts R D b D' b') (h : b.Sound R D) : b'.Sound R D' ∧ b.Le b' := by
  induction hacts with
  | refl => exact ⟨h, .refl _⟩
  | step hfirst _ ih =>
      obtain ⟨h₁, hle₁⟩ := hfirst.sound h
      obtain ⟨h₂, hle₂⟩ := ih h₁
      exact ⟨h₂, hle₁.trans hle₂⟩

/-- What has an instruction or is still to get one stays so. -/
theorem Act.covers (hact : Act R D b D' b') {n : Node} (hn : b.Covers D n) : b'.Covers D' n := by
  cases hact with
  | node =>
      refine hn.imp_right fun hn => ?_
      rcases List.mem_append.mp hn with hn | hn
      · exact List.mem_append_left _ hn
      · exact List.mem_append_right _ (.tail _ hn)
  | reg | bind | symbols => exact hn
  | @place _ _ m i hcur =>
      have hlookup := Graph.lookup_insert b.code m i n
      by_cases hnm : n = m
      · rw [if_pos hnm] at hlookup
        exact .inl (Option.isSome_iff_exists.mpr ⟨i, hlookup⟩)
      · rw [if_neg hnm] at hlookup
        refine hn.imp (fun hn => ?_) fun hn => ?_
        · rw [← hlookup] at hn
          exact hn
        · unfold opened at hn
          rw [hcur] at hn
          exact (List.mem_cons.mp hn).resolve_left hnm
  | perm hperm => exact hn.imp_right (((hperm.append_right _).append_left _).mem_iff.mp)
  | start hcur =>
      refine hn.imp_right fun hn => ?_
      unfold opened at hn
      rwa [hcur] at hn
  | label hnone =>
      refine hn.imp_right fun hn => ?_
      rcases List.mem_append.mp hn with hn | hn
      · exact List.mem_append_left _ hn
      · refine List.mem_append_right _ ?_
        rcases List.mem_append.mp hn with hn | hn
        · exact List.mem_append_left _ hn
        · obtain ⟨j, hj, hjn⟩ := List.mem_filterMap.mp hn
          exact List.mem_append_right _ (List.mem_filterMap.mpr
            ⟨j, List.mem_append_left _ hj, lookup_cons_of_none hnone hjn⟩)

theorem Acts.covers (hacts : Acts R D b D' b') {n : Node} (hn : b.Covers D n) : b'.Covers D' n := by
  induction hacts with
  | refl => exact hn
  | step hfirst _ ih => exact ih (hfirst.covers hn)

/-- Blocks only join the end of the line, one for each new label. -/
theorem Acts.pending (hacts : Acts R D b D' b') :
    ∃ new, b'.pending = b.pending ++ new ∧ b'.labels.length = b.labels.length + new.length ∧
      ∀ {id n}, b'.labels.lookup id = some n → b.labels.lookup id = some n ∨ id ∈ new := by
  induction hacts with
  | refl => exact ⟨[], (List.append_nil _).symm, rfl, .inl⟩
  | step hfirst _ ih =>
      obtain ⟨new, hpending, hlength, hnew⟩ := ih
      cases hfirst with
      | label hnone hok =>
          rename_i id _
          refine ⟨id :: new, ?_, ?_, fun hn => ?_⟩
          · rw [hpending, List.append_assoc]
            rfl
          · rw [hlength, List.length_cons, List.length_cons]
            omega
          · rcases hnew hn with hn | hn
            · rcases lookup_cons_eq_some hn with ⟨rfl, -⟩ | hn
              · exact .inr (.head _)
              · exact .inl hn
            · exact .inr (.tail _ hn)
      | node | reg | bind | symbols | place | perm | start => exact ⟨new, hpending, hlength, hnew⟩

/-- The first block in line is taken; its node is held. -/
theorem Builder.Sound.pop (h : b.Sound R D) {id : DefnId} {rest : List DefnId} {n : Node}
    (hpending : b.pending = id :: rest) (hn : b.labels.lookup id = some n) :
    Builder.Sound R (n :: D) { b with pending := rest } := by
  have hwaiting : b.waiting = n :: rest.filterMap fun id => b.labels.lookup id := by
    unfold waiting
    rw [hpending, List.filterMap_cons, hn]
  refine h.perm ?_ rfl rfl ?_ rfl rfl rfl rfl
  · unfold opened
    rw [hwaiting]
    exact (List.perm_middle.symm).append_left _
  · rw [hpending]
    exact List.subset_cons_self _ _

theorem Builder.Covers.pop {id : DefnId} {rest : List DefnId} {n m : Node} (hm : b.Covers D m)
    (hpending : b.pending = id :: rest) (hn : b.labels.lookup id = some n) :
    Builder.Covers (n :: D) { b with pending := rest } m := by
  refine hm.imp_right fun hm => ?_
  have hwaiting : b.waiting = n :: rest.filterMap fun id => b.labels.lookup id := by
    unfold waiting
    rw [hpending, List.filterMap_cons, hn]
  unfold opened at hm
  rw [hwaiting] at hm
  exact (List.perm_middle.append_left _).mem_iff.mp hm

end Actions

end Mil.Rtl
