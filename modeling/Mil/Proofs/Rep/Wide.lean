import Mil.Proofs.Machine.Memory
import Mil.Proofs.Rep.Vectors

/-!
Accesses to memory that are wider than a word. On a target of thirty-two bits the block that takes the
place of such an access makes two accesses of one word each, the second four bytes on. An access of
several bytes is the accesses of its parts, so both do the same, as long as the address four bytes on is
one of the target. The address of the second word is cut to the target and that of a byte is not, so at
the last four addresses they differ.
-/

namespace Mil

namespace Memory

variable {m : Memory} {addr : Int64}

/-- The word of thirty-two bits at an address. -/
def word (m : Memory) (addr : Int64) : Word := Word.normalize 32 (m.load addr 4).toInt64

/-- Writes a word of thirty-two bits. -/
def setWord (m : Memory) (addr : Int64) (w : Word) : Memory := m.store addr (Word.unsigned 32 w) 4

/-- The word of a byte with no others above it. -/
theorem word_of_byte {b : UInt8} (hfirst : m.byte (offset addr 0) = b)
    (hrest : ∀ i ∈ [1, 2, 3], m.byte (offset addr i) = 0) :
    m.word addr = Word.normalize 32 b.toUInt64.toInt64 := by
  have hload : m.load addr 4 = b.toUInt64 := by
    simp [load, hfirst, hrest 1, hrest 2, hrest 3]
  rw [word, hload]

end Memory

namespace Machine

open Word

variable {m : Machine}

/-! ### Words of the target in an access -/

theorem toNat_bits_toInt64 (v : UInt64) : (bits 32 v.toInt64).toNat = v.toNat % 2 ^ 32 := by
  rw [bits, UInt64.toBitVec_toInt64, BitVec.toNat_setWidth]
  rfl

/-- The word of a number depends on the low bits alone. -/
theorem normalize_toInt64_congr {v v' : UInt64} (h : v.toNat % 2 ^ 32 = v'.toNat % 2 ^ 32) :
    normalize 32 v.toInt64 = normalize 32 v'.toInt64 := by
  have hbits : bits 32 v.toInt64 = bits 32 v'.toInt64 := by
    refine BitVec.eq_of_toNat_eq ?_
    rw [toNat_bits_toInt64, toNat_bits_toInt64, h]
  have hv := ofBits_bits (.inl rfl : Width 32) v.toInt64
  rw [hbits, ofBits_bits (.inl rfl)] at hv
  exact hv.symm

theorem cutWords_word (v : UInt64) : cutWords 32 v 32 = [normalize 32 v.toInt64] := by
  have hcut : cutWords 32 v 32 = [normalize 32 (v >>> 0).toInt64] := rfl
  rw [hcut, UInt64.shiftRight_zero]

theorem cutWords_pair (v : UInt64) :
    cutWords 32 v 64 = [normalize 32 v.toInt64, normalize 32 (v >>> UInt64.ofNat (8 * 4)).toInt64] := by
  have hcut : cutWords 32 v 64 =
      [normalize 32 (v >>> 0).toInt64, normalize 32 (v >>> UInt64.ofNat (8 * 4)).toInt64] := rfl
  rw [hcut, UInt64.shiftRight_zero]

theorem joinWords_word (w : Word) : joinWords 32 [w] = unsigned 32 w := by
  have hjoin : joinWords 32 [w] = 0 <<< UInt64.ofNat (8 * 4) ||| unsigned 32 w := rfl
  rw [hjoin, UInt64.zero_shiftLeft, UInt64.zero_or]

theorem toNat_unsigned_lt (w : Word) : (unsigned 32 w).toNat < 2 ^ 32 :=
  (toNat_unsigned (.inl rfl : Width 32) w).trans_lt (bits 32 w).isLt

theorem toNat_joinWords_pair (lo hi : Word) :
    (joinWords 32 [lo, hi]).toNat = (unsigned 32 hi).toNat * 2 ^ 32 + (unsigned 32 lo).toNat := by
  have hjoin : joinWords 32 [lo, hi] =
      joinWords 32 [hi] <<< UInt64.ofNat (8 * 4) ||| unsigned 32 lo := rfl
  have hhi := toNat_unsigned_lt hi
  rw [hjoin, joinWords_word, UInt64.toNat_or, Memory.toNat_shiftLeft_bytes (by decide),
    Nat.mod_eq_of_lt (by omega), ← Nat.shiftLeft_eq, ← Nat.shiftLeft_add_eq_or_of_lt (toNat_unsigned_lt lo)]

theorem access_load (hm : m.size = 32) (a : Word) (n : Nat) : m.access ⟨n, false⟩ [.word a] =
    ((cutWords 32 (m.memory.load a n) (8 * n)).map .word, m) := by
  unfold access
  rw [hm]
  rfl

theorem access_store (hm : m.size = 32) (a : Word) (ws : List Word) (n : Nat) :
    m.access ⟨n, true⟩ (.word a :: ws.map .word) =
      ([], { m with memory := m.memory.store a (joinWords 32 ws) n }) := by
  have hjoin : joinWords m.size ((ws.map Value.word).map Value.asWord) = joinWords 32 ws := by
    rw [hm, List.map_map]
    exact congrArg _ (List.map_id ws)
  rw [← hjoin]
  rfl

theorem access_load_word (hm : m.size = 32) (a : Word) :
    m.access ⟨4, false⟩ [.word a] = ([.word (m.memory.word a)], m) := by
  rw [access_load hm, cutWords_word]
  rfl

theorem access_store_word (hm : m.size = 32) (a w : Word) :
    m.access ⟨4, true⟩ [.word a, .word w] = ([], { m with memory := m.memory.setWord a w }) := by
  have hstore := access_store hm a [w] 4
  rw [joinWords_word] at hstore
  exact hstore

/-- To load two words is to load one word, and one word four bytes on. -/
theorem access_load_pair (hm : m.size = 32) (a : Word) : m.access ⟨8, false⟩ [.word a] =
    ([.word (m.memory.word a), .word (m.memory.word (Memory.offset a 4))], m) := by
  have hload : (m.memory.load a 8).toNat =
      (m.memory.load a 4).toNat + 2 ^ 32 * (m.memory.load (Memory.offset a 4) 4).toNat :=
    Memory.toNat_load_add (j := 4) (k := 4) (by decide)
  have hlow : (m.memory.load a 4).toNat < 2 ^ 32 := Memory.toNat_load_lt m.memory a (by decide)
  have hshift : (m.memory.load a 8 >>> UInt64.ofNat (8 * 4)).toNat = (m.memory.load a 8).toNat / 2 ^ 32 :=
    Memory.toNat_shiftRight_bytes (by decide) _
  have hfirst : normalize 32 (m.memory.load a 8).toInt64 = m.memory.word a :=
    normalize_toInt64_congr (by omega)
  have hsecond : normalize 32 (m.memory.load a 8 >>> UInt64.ofNat (8 * 4)).toInt64 =
      m.memory.word (Memory.offset a 4) := normalize_toInt64_congr (by omega)
  rw [access_load hm, cutWords_pair, hfirst, hsecond]
  rfl

/-- To store two words is to store one word, and one word four bytes on. -/
theorem access_store_pair (hm : m.size = 32) (a lo hi : Word) :
    m.access ⟨8, true⟩ [.word a, .word lo, .word hi] =
      ([], { m with memory := (m.memory.setWord a lo).setWord (Memory.offset a 4) hi }) := by
  have hjoin := toNat_joinWords_pair lo hi
  have hlow := toNat_unsigned_lt lo
  have hshift : (joinWords 32 [lo, hi] >>> UInt64.ofNat (8 * 4)).toNat =
      (joinWords 32 [lo, hi]).toNat / 2 ^ 32 := Memory.toNat_shiftRight_bytes (by decide) _
  have hfirst : m.memory.store a (joinWords 32 [lo, hi]) 4 = m.memory.setWord a lo := by
    refine Memory.store_congr (by decide) ?_
    show _ % 2 ^ 32 = _ % 2 ^ 32
    omega
  have hsecond : m.memory.store a (joinWords 32 [lo, hi]) 8 =
      (m.memory.setWord a lo).setWord (Memory.offset a 4) hi := by
    rw [Memory.store_add (j := 4) (k := 4) (by decide), hfirst]
    refine Memory.store_congr (by decide) ?_
    show _ % 2 ^ 32 = _ % 2 ^ 32
    omega
  have hstore := access_store hm a [lo, hi] 8
  rw [hsecond] at hstore
  exact hstore

end Machine

namespace Rep

open Machine (Reaches Locals)

/-! ### The blocks that are made -/

/-- The address of the second word. -/
def nextBinding (a next : Temp) : Binding :=
  ([next], .prim (.builtin .add) [.temp a, .word 4] (some (Prim.builtin .add).type))

/-- The block makes two accesses of one word each. -/
inductive Halves : PrimOp → Block → Prop
  | load {q : Prim} (k : Temp) (hq : q.op = .load32) : Halves .load64 (.typed [k]
      (some (sequence [([k + 1], .prim q [.temp k] (some q.type)), nextBinding k (k + 2),
        ([k + 3], .prim q [.temp (k + 2)] (some q.type))] (.ret [.temp (k + 1), .temp (k + 3)])))
      (.ofLists (Ty.words 1) (Ty.words 2)))
  | store {q : Prim} (k : Temp) (hq : q.op = .store32) : Halves .store64 (.typed [k, k + 1, k + 2]
      (some (sequence [([], .prim q [.temp k, .temp (k + 1)] (some q.type)), nextBinding k (k + 3),
        ([], .prim q [.temp (k + 3), .temp (k + 2)] (some q.type))] (.ret [])))
      (.ofLists (Ty.words 3) []))

/-- The accesses of one word. -/
def wordAccesses : List PrimOp := [.load32, .store32]

/-- What is remembered of accesses of one word are such accesses, and remembered blocks make two of them. -/
structure Faithful (s : State) : Prop where
  prims : ∀ op ∈ wordAccesses, ∀ q, s.prims.lookup (Prim.builtin op).index = some q → q.op = op
  wide : ∀ op id, s.wide.lookup op = some id → ∃ d b, s.program.defns[id]? = some d ∧
    d.replacedBy = none ∧ d.body = .block b ∧ Halves op b

/-- Neither the definitions nor what is remembered of primitives and blocks has changed. -/
structure Alike (s s' : State) : Prop where
  defns : s'.program.defns = s.program.defns
  prims : s'.prims = s.prims
  wide : s'.wide = s.wide

section Faithful

variable {s s' s'' : State} {op : PrimOp}

theorem Alike.trans (h : Alike s s') (h' : Alike s' s'') : Alike s s'' :=
  ⟨h'.defns.trans h.defns, h'.prims.trans h.prims, h'.wide.trans h.wide⟩

theorem Faithful.alike (hs : Faithful s) (h : Alike s s') : Faithful s' :=
  ⟨h.prims ▸ hs.prims, h.wide ▸ h.defns ▸ hs.wide⟩

theorem faithful_start (p : Program) (table : TypeTable) : Faithful ⟨p, table, [], [], [], []⟩ :=
  ⟨fun _ _ _ h => (nomatch h), fun _ _ h => (nomatch h)⟩

end Faithful

/-! ### Steps that may stop -/

/-- If the step goes through, its result and the state that it leaves are as they should be. -/
def Gives {α : Type} (x : TransM α) (s : State) (Q : α → State → Prop) : Prop :=
  ∀ a s', Yields x s a s' → Q a s'

section Gives

variable {α β : Type} {x : TransM α} {s : State} {Q : α → State → Prop} {op : PrimOp}

theorem Gives.bind {f : α → TransM β} {Q' : β → State → Prop} (hx : Gives x s Q)
    (hf : ∀ a s', Q a s' → Gives (f a) s' Q') : Gives (x >>= f) s Q' := by
  intro b s'' h
  obtain ⟨a, s', hxa, hfb⟩ := yields_bind.mp h
  exact hf a s' (hx a s' hxa) b s'' hfb

theorem Gives.mono {Q' : α → State → Prop} (hx : Gives x s Q) (hQ : ∀ a s', Q a s' → Q' a s') :
    Gives x s Q' := fun a s' h => hQ a s' (hx a s' h)

theorem Gives.pure {a : α} (h : Q a s) : Gives (Pure.pure a) s Q := by
  intro b s' hy
  obtain ⟨rfl, rfl⟩ := yields_pure.mp hy
  exact h

theorem gives_get_bind {f : State → TransM α} (h : Gives (f s) s Q) : Gives (get >>= f) s Q := h

theorem gives_modify {f : State → State} {Q : Unit → State → Prop} (h : Q () (f s)) :
    Gives (modify f) s Q := by
  intro _ s' hy
  obtain rfl := yields_modify.mp hy
  exact h

theorem gives_onProgram {f : Program → α × Program}
    (h : Q (f s.program).1 { s with program := (f s.program).2 }) : Gives (onProgram f) s Q := by
  intro a s' hy
  obtain ⟨rfl, rfl⟩ := yields_onProgram hy
  exact h

theorem gives_broken {d : Defect} : Gives (broken d : TransM α) s Q := fun _ _ hy =>
  absurd hy not_yields_throw

theorem gives_broken_bind {d : Defect} {f : α → TransM β} {Q : β → State → Prop} :
    Gives (broken d >>= f) s Q :=
  Gives.bind (Q := fun _ _ => False) gives_broken fun _ _ h => h.elim

theorem gives_store : Gives store s fun _ s' => s' = s := gives_get_bind (.pure rfl)

theorem gives_blockTypeOf (b : BlockType) : Gives (blockTypeOf b) s fun _ s' => Alike s s' := by
  refine gives_store.bind fun _ s₁ hs₁ => ?_
  subst hs₁
  refine gives_get_bind ?_
  split
  · intro _ s' hy
    cases hy
    exact ⟨rfl, rfl, rfl⟩
  · exact gives_broken

theorem gives_freshTemp (t : Option Ty) : Gives (onProgram (·.freshTemp t)) s fun v s' =>
    v = s.program.temps.size ∧ s'.program.temps.size = v + 1 ∧ Alike s s' :=
  gives_onProgram ⟨rfl, Array.size_push .., rfl, rfl, rfl⟩

theorem gives_primBinding (q : Prim) (args : List Atom) : Gives (primBinding q args) s fun r s' =>
    r = (s.program.temps.size, [s.program.temps.size], .prim q args (some q.type)) ∧
      s'.program.temps.size = s.program.temps.size + 1 ∧ Alike s s' := by
  refine gives_store.bind fun _ s₁ hs₁ => ?_
  subst hs₁
  split
  · refine (gives_freshTemp _).bind fun v s₂ hv => .pure ?_
    obtain ⟨rfl, hsize, hlike⟩ := hv
    exact ⟨rfl, hsize, hlike⟩
  · exact gives_broken

/-- What is remembered of primitives stays faithful when a primitive with the number of an access of one
word is such an access. -/
theorem gives_wordPrim (hs : Faithful s) {p : Prim}
    (hp : ∀ op ∈ wordAccesses, p.index = (Prim.builtin op).index → p.op = op) :
    Gives (wordPrim p) s fun q s' => Faithful s' ∧
      ∀ op ∈ wordAccesses, p.index = (Prim.builtin op).index → q.op = op := by
  have hnote {q : Prim} {s' : State} (hq : q.op = p.op) (hlike : Alike s s') :
      Gives (do
        modify fun s => { s with prims := (p.index, q) :: s.prims }
        return q) s' fun q s' => Faithful s' ∧
          ∀ op ∈ wordAccesses, p.index = (Prim.builtin op).index → q.op = op := by
    have hs' := hs.alike hlike
    have hprims : ∀ op ∈ wordAccesses, ∀ q', ((p.index, q) :: s'.prims).lookup (Prim.builtin op).index =
        some q' → q'.op = op := by
      intro op hop q' hq'
      rcases lookup_cons_eq_some hq' with ⟨hindex, rfl⟩ | hold
      · exact hq.trans (hp op hop hindex.symm)
      · exact hs'.prims op hop q' hold
    refine Gives.bind (gives_modify (Q := fun _ s'' => Faithful s'') ⟨hprims, hs'.wide⟩) fun _ s'' hs'' => ?_
    exact .pure ⟨hs'', fun op hop hindex => hq.trans (hp op hop hindex)⟩
  unfold wordPrim
  refine gives_get_bind ?_
  split
  · rename_i q hq
    exact .pure ⟨hs, fun op hop hindex => hs.prims op hop q (hindex ▸ hq)⟩
  refine (gives_blockTypeOf _).bind fun type s₁ hs₁ => gives_store.bind fun _ s₂ hs₂ => ?_
  subst hs₂
  dsimp only
  split
  · exact Gives.bind (.pure (Q := fun q s' => q.op = p.op ∧ Alike s s') ⟨rfl, hs₁⟩) fun q s' h =>
      hnote h.1 h.2
  · refine Gives.bind (gives_onProgram (Q := fun q s' => q.op = p.op ∧ Alike s s') ?_) fun q s' h =>
      hnote h.1 h.2
    exact ⟨rfl, hs₁.trans ⟨rfl, rfl, rfl⟩⟩

theorem gives_wordAccess (hs : Faithful s) (hop : op ∈ wordAccesses) :
    Gives (wordPrim (.builtin op)) s fun q s' => q.op = op ∧ Faithful s' := by
  have hsame : ∀ op ∈ wordAccesses, ∀ op' ∈ wordAccesses,
      (Prim.builtin op).index = (Prim.builtin op').index → op = op' := by decide
  exact (gives_wordPrim hs (hsame op hop)).mono fun q s' h => ⟨h.2 op hop rfl, h.1⟩

/-- The block that loads makes two accesses. -/
theorem gives_loadBlock (hs : Faithful s) : Gives loadBlock s fun b s' => Halves .load64 b ∧ Faithful s' := by
  unfold loadBlock
  refine (gives_wordAccess hs (by decide)).bind fun load s₁ ⟨hload, hs₁⟩ => ?_
  refine (gives_freshTemp _).bind fun a s₂ ⟨ha, hsize₂, hlike₂⟩ => ?_
  refine (gives_primBinding load _).bind fun r₁ s₃ ⟨hr₁, hsize₃, hlike₃⟩ => ?_
  subst hr₁
  refine (gives_primBinding (.builtin .add) _).bind fun r₂ s₄ ⟨hr₂, hsize₄, hlike₄⟩ => ?_
  subst hr₂
  refine (gives_primBinding load _).bind fun r₃ s₅ ⟨hr₃, hsize₅, hlike₅⟩ => .pure ?_
  subst hr₃
  refine ⟨?_, hs₁.alike (hlike₂.trans (hlike₃.trans (hlike₄.trans hlike₅)))⟩
  rw [hsize₂] at hsize₃ ⊢
  rw [hsize₃] at hsize₄ ⊢
  rw [hsize₄]
  exact .load a hload

/-- The block that stores makes two accesses. -/
theorem gives_storeBlock (hs : Faithful s) :
    Gives storeBlock s fun b s' => Halves .store64 b ∧ Faithful s' := by
  unfold storeBlock
  refine (gives_wordAccess hs (by decide)).bind fun store s₁ ⟨hstore, hs₁⟩ => ?_
  refine (gives_freshTemp _).bind fun a s₂ ⟨ha, hsize₂, hlike₂⟩ => ?_
  refine (gives_freshTemp _).bind fun lo s₃ ⟨hlo, hsize₃, hlike₃⟩ => ?_
  refine (gives_freshTemp _).bind fun hi s₄ ⟨hhi, hsize₄, hlike₄⟩ => ?_
  refine (gives_primBinding (.builtin .add) _).bind fun r s₅ ⟨hr, hsize₅, hlike₅⟩ => .pure ?_
  subst hr
  refine ⟨?_, hs₁.alike (hlike₂.trans (hlike₃.trans (hlike₄.trans hlike₅)))⟩
  rw [hsize₄, hhi, hsize₃, hlo, hsize₂]
  exact .store a hstore

theorem gives_addBuiltin (name : String) (body : DefnBody) :
    Gives (addBuiltin name body) s fun id s' => id = s.program.defns.size ∧
      s'.program.defns = s.program.defns.push (.new name .builtin body) ∧ s'.prims = s.prims ∧
      s'.wide = s.wide := by
  unfold addBuiltin add
  exact gives_onProgram ⟨rfl, rfl, rfl, rfl⟩

/-- A block that was made is added and remembered. -/
theorem gives_remember {x : TransM Block} {type : BlockType}
    (hx : Gives x s fun b s' => Halves op b ∧ Faithful s') :
    Gives (do
      let b ← x
      let id ← addBuiltin op.name (.block b)
      modify fun s => { s with wide := (op, id) :: s.wide }
      return some (id, type)) s fun r s' => Faithful s' ∧ ∀ id type, r = some (id, type) →
        ∃ d b, s'.program.defns[id]? = some d ∧ d.replacedBy = none ∧ d.body = .block b ∧ Halves op b := by
  refine hx.bind fun b s₁ ⟨hb, hs₁⟩ => ?_
  refine (gives_addBuiltin _ _).bind fun id s₂ ⟨hid, hdefns, hprims, hwide⟩ => ?_
  have hnew : s₂.program.defns[id]? = some (.new op.name .builtin (.block b)) := by
    rw [hdefns, hid, Array.getElem?_push_size]
  refine Gives.bind (gives_modify (Q := fun _ s' => Faithful s' ∧ s'.program.defns = s₂.program.defns)
    ⟨⟨fun op' hop' => ?_, fun op' id' h => ?_⟩, rfl⟩) fun _ s₃ ⟨hs₃, hdefns₃⟩ => .pure ⟨hs₃, ?_⟩
  · rw [hprims]
    exact hs₁.prims op' hop'
  · rcases lookup_cons_eq_some h with ⟨rfl, rfl⟩ | hold
    · exact ⟨_, b, hnew, rfl, rfl, hb⟩
    · rw [hwide] at hold
      obtain ⟨d, b', hd, hrest⟩ := hs₁.wide op' id' hold
      obtain ⟨hlt, rfl⟩ := Array.getElem?_eq_some_iff.mp hd
      refine ⟨_, b', ?_, hrest⟩
      rw [hdefns]
      exact Array.getElem?_push_lt hlt
  · rintro _ _ ⟨rfl, rfl⟩
    rw [hdefns₃]
    exact ⟨_, b, hnew, rfl, rfl, hb⟩

/-- The block for an access that is wider than a word makes two accesses of one word each, be it new or
remembered. -/
theorem gives_wideAccess (hs : Faithful s) (op : PrimOp) : Gives (wideAccess op) s fun r s' => Faithful s' ∧
    ∀ id type, r = some (id, type) → ∃ d b, s'.program.defns[id]? = some d ∧ d.replacedBy = none ∧
      d.body = .block b ∧ Halves op b := by
  unfold wideAccess
  split
  · exact .pure ⟨hs, fun _ _ h => nomatch h⟩
  rename_i hop
  refine gives_get_bind ?_
  split
  · exact .pure ⟨hs, fun _ _ h => nomatch h⟩
  dsimp only
  split
  · exact gives_broken_bind
  split
  · rename_i id hid
    refine .pure ⟨hs, fun id' type h => ?_⟩
    cases h
    exact hs.wide op id hid
  · split
    · rename_i hload
      subst hload
      exact gives_remember (gives_loadBlock hs)
    · rename_i hload
      obtain rfl : op = .store64 := by
        by_contra hstore
        exact hop ⟨hload, hstore⟩
      exact gives_remember (gives_storeBlock hs)

end Gives

/-! ### What the blocks do -/

/-- The bindings are performed in order, each coming to values at once. Unlike for `Fills`, the machine may
change on the way. -/
inductive Performs (p : Program) : Machine → Locals → List Binding → Machine → Locals → Prop
  | nil {m : Machine} {env : Locals} : Performs p m env [] m env
  | cons {m m' m'' : Machine} {env env' : Locals} {b : Binding} {bs : List Binding} {vs : List Value}
      (hfuel : m.fuel ≤ 0) (hop : Machine.operate p m.tick env b.2 = .ok (.values vs, m'))
      (hlen : vs.length = b.1.length) (hrest : Performs p m' (Machine.assign env b.1 vs) bs m'' env') :
      Performs p m env (b :: bs) m'' env'

section Performs

variable {p : Program} {m m' : Machine} {env env' : Locals} {bs : List Binding} {r : Prim} {args : List Atom}
  {vals : List Value} {inst : Option BlockType} {a lo hi : Word} {k : Temp}

/-- The machine performs the bindings and comes to the tail. -/
theorem Performs.reaches (h : Performs p m env bs m' env') (t : Tail) (stack : List Machine.Frame) :
    Reaches p (Machine.enterCode p m (sequence bs t) env stack) (.tail (some t) env' stack, m') := by
  induction h with
  | nil => exact .refl p _
  | cons hfuel hop hlen _ ih => exact (reaches_bind hfuel hop hlen _ stack).trans ih

/-- What a primitive does that moves bytes. -/
theorem prim_of_access {x : MemAccess} (hr : r.op.access? = some x) (m : Machine) (vals : List Value) :
    m.prim r vals = .ok (m.access x vals) := by
  unfold Machine.prim
  split
  case h_8 => rw [hr]
  all_goals simp_all [PrimOp.access?]

theorem operate_access {x : MemAccess} (hr : r.op.access? = some x)
    (hargs : Machine.atoms p m env args = .ok vals) :
    Machine.operate p m env (.prim r args inst) = .ok (.values (m.access x vals).1, (m.access x vals).2) := by
  unfold Machine.operate
  dsimp only
  rw [hargs]
  dsimp only [Bind.bind, Except.bind]
  rw [prim_of_access hr]
  rfl

/-- The address of the second word is the sum cut to the target. -/
theorem operate_next (hm : m.size = 32) {t : Temp} (ht : env.lookup t = some (.word a)) :
    Machine.operate p m env (.prim (.builtin .add) [.temp t, .word 4] inst) =
      .ok (.values [.word (Word.normalize 32 (a + 4))], m) := by
  have hsum : PrimOp.add.eval? m.size [.word a, .word 4] = some (.word (Word.normalize 32 (a + 4))) := by
    rw [hm]
    rfl
  have hvals : Machine.atoms p m env [.temp t, .word 4] = .ok ([.word a, .word 4].map .ofLit) :=
    Machine.atoms_eq_ok.mpr (.cons (atom_temp ht p m) (.cons rfl .nil))
  exact Machine.operate_byRule (q := .builtin .add) (by decide) (by decide) hvals hsum

/-- The bindings that load bind the words at the two addresses. -/
theorem performs_load (hr : r.op = .load32) (hm : m.size = 32) (hfuel : m.fuel ≤ 0) :
    Performs p m [(k, .word a)] [([k + 1], .prim r [.temp k] (some r.type)), nextBinding k (k + 2),
        ([k + 3], .prim r [.temp (k + 2)] (some r.type))] { m with steps := m.steps + 3 }
      [(k + 3, .word (m.memory.word (Word.normalize 32 (a + 4)))), (k + 2, .word (Word.normalize 32 (a + 4))),
        (k + 1, .word (m.memory.word a)), (k, .word a)] := by
  have hload {m : Machine} (hm : m.size = 32) {env : Locals} {t : Temp} {b : Word}
      (ht : env.lookup t = some (.word b)) :
      Machine.operate p m env (.prim r [.temp t] (some r.type)) =
        .ok (.values [.word (m.memory.word b)], m) := by
    have hargs := Machine.atoms_eq_ok.mpr (.cons (atom_temp ht p m) .nil)
    rw [operate_access (by rw [hr]; rfl) hargs, Machine.access_load_word hm]
  refine .cons hfuel (hload (m := m.tick) (b := a) hm (List.lookup_cons_self ..)) rfl ?_
  refine .cons hfuel (operate_next (m := m.tick.tick) (a := a) hm ?_) rfl ?_
  · simp [Machine.assign, lookup_cons_ite]
  exact .cons hfuel (hload (m := m.tick.tick.tick) hm (List.lookup_cons_self ..)) rfl .nil

/-- The bindings that store write the words at the two addresses. -/
theorem performs_store (hr : r.op = .store32) (hm : m.size = 32) (hfuel : m.fuel ≤ 0) :
    Performs p m [(k + 2, .word hi), (k + 1, .word lo), (k, .word a)]
      [([], .prim r [.temp k, .temp (k + 1)] (some r.type)), nextBinding k (k + 3),
        ([], .prim r [.temp (k + 3), .temp (k + 2)] (some r.type))]
      { m with
        memory := (m.memory.setWord a lo).setWord (Word.normalize 32 (a + 4)) hi
        steps := m.steps + 3 }
      [(k + 3, .word (Word.normalize 32 (a + 4))), (k + 2, .word hi), (k + 1, .word lo), (k, .word a)] := by
  have hstore {m : Machine} (hm : m.size = 32) {env : Locals} {t u : Temp} {b w : Word}
      (ht : env.lookup t = some (.word b)) (hu : env.lookup u = some (.word w)) :
      Machine.operate p m env (.prim r [.temp t, .temp u] (some r.type)) =
        .ok (.values [], { m with memory := m.memory.setWord b w }) := by
    have hargs := Machine.atoms_eq_ok.mpr (.cons (atom_temp ht p m) (.cons (atom_temp hu p m) .nil))
    rw [operate_access (by rw [hr]; rfl) hargs, Machine.access_store_word hm]
  refine .cons hfuel (hstore (b := a) (w := lo) ?_ ?_ ?_) rfl ?_
  · exact hm
  · simp [lookup_cons_ite]
  · simp [lookup_cons_ite]
  refine .cons hfuel (operate_next (a := a) ?_ ?_) rfl ?_
  · exact hm
  · simp [Machine.assign, lookup_cons_ite]
  refine .cons hfuel (hstore (b := Word.normalize 32 (a + 4)) (w := hi) ?_ ?_ ?_) rfl .nil
  · exact hm
  · simp [nextBinding, Machine.assign]
  · simp [nextBinding, Machine.assign, lookup_cons_ite]

end Performs

/-! ### The accesses that the blocks take the place of -/

/-- On a machine whose words have thirty-two bits, a call of the block comes to the values that the
primitive gives, and leaves the memory that the primitive leaves. -/
def Agrees (p : Program) (id : DefnId) (op : PrimOp) (vals : List Value) : Prop :=
  ∀ (m : Machine) (env : Locals) (args : List Atom) (inst : Option BlockType)
    (stack : List Machine.Frame), m.size = 32 → m.fuel ≤ 0 → Machine.atoms p m env args = .ok vals →
    ∃ vs memory pos steps, m.prim (.builtin op) vals = .ok (vs, { m with memory }) ∧
      Reaches p (.tail (some (.call ⟨id, args, inst⟩)) env stack, m)
        (Machine.deliver p stack { m with memory, pos, steps } vs)

section Agrees

variable {p : Program} {m : Machine} {env : Locals} {op : PrimOp} {b : Block} {id : DefnId} {d : Defn}
  {args : List Atom} {a lo hi : Word} {s s' : State} {type : BlockType}

/-- A call of the block that loads comes to the words at the two addresses. -/
theorem Halves.reaches_load (h : Halves .load64 b) (hd : p.defns[id]? = some d) (hkept : d.replacedBy = none)
    (hb : d.body = .block b) (hm : m.size = 32) (hfuel : m.fuel ≤ 0)
    (hargs : Machine.atoms p m env args = .ok [.word a]) (stack : List Machine.Frame)
    (inst : Option BlockType) :
    Reaches p (.tail (some (.call ⟨id, args, inst⟩)) env stack, m)
      (Machine.deliver p stack { m with pos := d.pos, steps := m.steps + 5 }
        [.word (m.memory.word a), .word (m.memory.word (Word.normalize 32 (a + 4)))]) := by
  cases h with
  | @load r k hr =>
  refine (reaches_call (c := ⟨id, args, inst⟩) hfuel hd hkept hb rfl hargs stack).trans ?_
  refine ((performs_load (m := { m.tick with pos := d.pos }) hr hm hfuel).reaches
    (.ret [.temp (k + 1), .temp (k + 3)]) stack).trans ?_
  refine reaches_values (m := { m with pos := d.pos, steps := m.steps + 4 }) hfuel
    (operate_ret (Machine.atoms_eq_ok.mpr ?_)) stack
  have hfirst (x y z : Value) (env : Locals) :
      List.lookup (k + 1) ((k + 3, x) :: (k + 2, y) :: (k + 1, z) :: env) = some z := by
    simp [lookup_cons_ite]
  exact .cons (atom_temp (hfirst ..) p _) (.cons (atom_temp (List.lookup_cons_self ..) p _) .nil)

/-- A call of the block that stores writes the words at the two addresses. -/
theorem Halves.reaches_store (h : Halves .store64 b) (hd : p.defns[id]? = some d)
    (hkept : d.replacedBy = none) (hb : d.body = .block b) (hm : m.size = 32) (hfuel : m.fuel ≤ 0)
    (hargs : Machine.atoms p m env args = .ok [.word a, .word lo, .word hi]) (stack : List Machine.Frame)
    (inst : Option BlockType) :
    Reaches p (.tail (some (.call ⟨id, args, inst⟩)) env stack, m)
      (Machine.deliver p stack { m with
        memory := (m.memory.setWord a lo).setWord (Word.normalize 32 (a + 4)) hi
        pos := d.pos
        steps := m.steps + 5 } []) := by
  cases h with
  | @store r k hr =>
  refine (reaches_call (c := ⟨id, args, inst⟩) hfuel hd hkept hb rfl hargs stack).trans ?_
  refine ((performs_store (m := { m.tick with pos := d.pos }) hr hm hfuel).reaches (.ret []) stack).trans ?_
  refine reaches_values (m := { m with memory := _, pos := d.pos, steps := m.steps + 4 }) hfuel ?_ stack
  exact operate_ret (Machine.atoms_eq_ok.mpr .nil)

/-- The block agrees with the primitive where the address four bytes on is one of the target. -/
theorem Halves.agrees (h : Halves op b) (hd : p.defns[id]? = some d) (hkept : d.replacedBy = none)
    (hb : d.body = .block b) (ha : Word.InRange 32 (a + 4)) :
    (op = .load64 ∧ Agrees p id op [.word a]) ∨
      (op = .store64 ∧ ∀ lo hi, Agrees p id op [.word a, .word lo, .word hi]) := by
  have hnext : Word.normalize 32 (a + 4) = Memory.offset a 4 :=
    (Word.normalize_eq_self_iff (.inl rfl) (a + 4)).mpr ha
  cases hop : op with
  | load64 =>
      subst hop
      refine .inl ⟨rfl, fun m env args inst stack hm hfuel hargs => ?_⟩
      have hrun := h.reaches_load hd hkept hb hm hfuel hargs stack inst
      rw [hnext] at hrun
      refine ⟨_, m.memory, d.pos, m.steps + 5, ?_, hrun⟩
      rw [prim_of_access (x := ⟨8, false⟩) rfl, Machine.access_load_pair hm]
  | store64 =>
      subst hop
      refine .inr ⟨rfl, fun lo hi m env args inst stack hm hfuel hargs => ?_⟩
      have hrun := h.reaches_store hd hkept hb hm hfuel hargs stack inst
      rw [hnext] at hrun
      refine ⟨_, _, d.pos, m.steps + 5, ?_, hrun⟩
      rw [prim_of_access (x := ⟨8, true⟩) rfl, Machine.access_store_pair hm]
  | _ =>
      rw [hop] at h
      cases h

/-- **Wide accesses.** Let a block be made, or be remembered, for an access of sixty-four bits on a target
of thirty-two. In every program that keeps the block, on every machine and at every address whose fourth
next is an address of the target, a call of the block does what the primitive does: the block that loads
comes to the same two words, and the block that stores leaves the same memory. -/
theorem wideAccess_agrees (hs : Faithful s) (h : Yields (wideAccess op) s (some (id, type)) s') :
    Faithful s' ∧ ∀ q : Program, q.defns[id]? = s'.program.defns[id]? →
      ∀ a : Word, Word.InRange 32 (a + 4) →
        (op = .load64 ∧ Agrees q id op [.word a]) ∨
        (op = .store64 ∧ ∀ lo hi, Agrees q id op [.word a, .word lo, .word hi]) := by
  obtain ⟨hs', hmade⟩ := gives_wideAccess hs op _ _ h
  obtain ⟨d, b, hd, hkept, hb, hhalves⟩ := hmade id type rfl
  exact ⟨hs', fun q hq a ha => hhalves.agrees (hq.trans hd) hkept hb ha⟩

/-- Nothing has been made yet for a target of thirty-two bits. -/
def fresh : State := ⟨.empty, ⟨32, []⟩, [], [], [], []⟩

/-- Memory with seven at the first address of the target. -/
def sevenFirst : Memory := Memory.empty.store (-2147483648) 7 1

theorem byte_sevenFirst (b : Int64) : sevenFirst.byte b = if -2147483648 = b then 7 else 0 := by
  have hbyte : sevenFirst.byte b = ((({} : Std.HashMap Int64 UInt8).insert (-2147483648) 7)[b]?).getD 0 := rfl
  rw [hbyte, Std.HashMap.getElem?_insert]
  by_cases hb : -2147483648 = b
  · simp [hb]
  · simp [hb]

/-- The word at an address where the bytes above the first are zero. -/
theorem word_sevenFirst (b : UInt8)
    (h : ∀ i ∈ [0, 1, 2, 3], (if -2147483648 = Memory.offset a i then 7 else 0) = if i = 0 then b else 0) :
    sevenFirst.word a = Word.normalize 32 b.toUInt64.toInt64 :=
  Memory.word_of_byte ((byte_sevenFirst _).trans (h 0 (by decide))) fun i hi =>
    (byte_sevenFirst _).trans ((h i (.tail _ hi)).trans
      (if_neg (ne_of_mem_of_not_mem hi (by decide))))

/-- The last words of the target: what the primitive loads lies beyond the last address, and what the block
loads lies at the first. -/
theorem wideAccess_wraps :
    let m : Machine := { Machine.new 32 0 with memory := sevenFirst }
    Word.InRange 32 2147483644 ∧
    m.prim (.builtin .load64) [.word 2147483644] = .ok ([.word 0, .word 0], m) ∧
    ∃ s' m', Yields (wideAccess .load64) fresh (some (0, .ofLists (Ty.words 1) (Ty.words 2))) s' ∧
      Reaches s'.program (.tail (some (.call ⟨0, [.word 2147483644], none⟩)) [] [], m)
        (.finish [.word 0, .word 7], m') := by
  intro m
  have hlow : m.memory.word 2147483644 = 0 := word_sevenFirst 0 (by decide)
  have hnext : m.memory.word (Memory.offset 2147483644 4) = 0 := word_sevenFirst 0 (by decide)
  have hfirst : m.memory.word (Word.normalize 32 (2147483644 + 4)) = 7 := word_sevenFirst 7 (by decide)
  refine ⟨by decide, ?_, ?_⟩
  · rw [prim_of_access (x := ⟨8, false⟩) rfl, Machine.access_load_pair rfl, hlow, hnext]
  · have hyields : Yields (wideAccess .load64) fresh (some (0, .ofLists (Ty.words 1) (Ty.words 2)))
        ((wideAccess .load64) fresh).2 := rfl
    obtain ⟨-, hmade⟩ := gives_wideAccess (faithful_start _ _) _ _ _ hyields
    obtain ⟨d, b, hd, hkept, hb, hhalves⟩ := hmade _ _ rfl
    have hargs : Machine.atoms ((wideAccess .load64) fresh).2.program m [] [.word 2147483644] =
        .ok [.word 2147483644] := rfl
    have hrun := hhalves.reaches_load hd hkept hb rfl (Int.le_refl 0) hargs [] none
    rw [hlow, hfirst] at hrun
    exact ⟨_, _, hyields, hrun⟩

/-- Where the fourth next is the last address of the target, the two agree. -/
theorem wideAccess_agrees_last : Word.InRange 32 (2147483643 + 4) ∧ Faithful fresh ∧
    ∃ s', Yields (wideAccess .store64) fresh (some (0, .ofLists (Ty.words 3) [])) s' ∧
      Agrees s'.program 0 .store64 [.word 2147483643, .word 5, .word 7] := by
  have hyields : Yields (wideAccess .store64) fresh (some (0, .ofLists (Ty.words 3) []))
      ((wideAccess .store64) fresh).2 := rfl
  have hrange : Word.InRange 32 (2147483643 + 4) := by decide
  have hfresh : Faithful fresh := faithful_start _ _
  refine ⟨hrange, hfresh, _, hyields, ?_⟩
  rcases (wideAccess_agrees hfresh hyields).2 _ rfl 2147483643 hrange with ⟨hload, -⟩ | ⟨-, hagrees⟩
  · cases hload
  · exact hagrees 5 7

end Agrees

end Rep

end Mil
