import Mil.Proofs.Llvm.Build
import Mil.Proofs.Rtl.Symbols

/-!
The symbols of a module. A symbol that the program does not define is declared when it is first met, so
the symbols of a module are those of the program and all that its instructions name, and each of them
stands once if no name is that of a function and of a variable. Then what the routines of a program are
called by has no blocks.
-/

namespace Mil

open Llvm

/-- The routine that an instruction calls, which is found outside the program. -/
def Rtl.Instr.routine? : Rtl.Instr → Option String
  | .alloc _ _ _ => some allocRoutine
  | .abort _ => some abortRoutine
  | .builtin name _ _ _ => some name
  | _ => none

namespace Llvm

/-- The name of the constant for a text. -/
def textName (k : Nat) : String := ".str." ++ toString k

/-- What is known stays known. -/
theorem lookup_cons_ne_none {l : List (String × Nat)} {a k : String} {n : Nat}
    (h : a = k ∨ l.lookup a ≠ none) : ((k, n) :: l).lookup a ≠ none := by
  rw [lookup_cons_ite]
  split
  · exact Option.some_ne_none n
  · rename_i hne
    exact h.resolve_left hne

theorem textName_injective : Function.Injective textName := fun _ _ h =>
  Rtl.Symbols.repr_injective ((String.append_right_inj _).mp h)

theorem head?_textName (k : Nat) : (textName k).toList.head? = some '.' := by
  rw [textName, String.toList_append]
  rfl

/-- What names stand for: functions, or words in memory. -/
structure Roles where
  code : String → Prop
  data : String → Prop

/-- No name stands for a function and for words in memory, and none is that of a text or of the
initialisation of all globals. The routines are functions. -/
structure Roles.Apart (r : Roles) : Prop where
  disjoint : ∀ {n}, r.code n → ¬ r.data n
  texts : ∀ k, ¬ r.code (textName k) ∧ ¬ r.data (textName k)
  init : ¬ r.code initRoutine ∧ ¬ r.data initRoutine
  alloc : r.code allocRoutine
  abort : r.code abortRoutine

end Llvm

/-- An instruction names functions where it calls, and words in memory where it accesses memory. An
address that it takes is of a function of the program, or else of something in memory. -/
def Rtl.Instr.Follows (r : Roles) (own : List String) : Rtl.Instr → Prop
  | .call (.symbol n) _ _ _ => r.code n
  | .tailcall (.symbol n) _ => r.code n
  | .builtin n _ _ _ => r.code n
  | .op (.addressOf n _) _ _ _ => n ∈ own ∨ r.data n
  | .load _ (.global n _) _ _ _ => r.data n
  | .store _ (.global n _) _ _ _ => r.data n
  | _ => True

/-- The names of the functions of a program. -/
def Rtl.Program.functionNames (p : Rtl.Program) : List String := p.functions.map Rtl.Function.name

/-- The names of a program are all different and have their roles, and the routines that it calls are not
its own functions. -/
structure Rtl.Program.Follows (p : Rtl.Program) (r : Roles) : Prop where
  globals : ∀ g ∈ p.globals, r.data g.name
  globalNames : (p.globals.map Rtl.Global.name).Nodup
  functions : ∀ f ∈ p.functions, r.code f.name
  functionNames : p.functionNames.Nodup
  code : ∀ f ∈ p.functions, ∀ q ∈ f.code, q.2.Follows r p.functionNames
  routines : ∀ f ∈ p.functions, ∀ q ∈ f.code, ∀ name, q.2.routine? = some name → name ∉ p.functionNames

namespace Llvm

/-! ### Modules under construction -/

/-- All symbols stand once, and each has its role. Functions are found by their names, and those that are
not done have no blocks. -/
structure Builder.Named (r : Roles) (own done : List String) (b : Builder) : Prop where
  found : ∀ {name i}, b.functionOf.lookup name = some i → ∃ f, b.functions[i]? = some f ∧ f.name = name
  functions : ∀ f ∈ b.functions, r.code f.name ∧ b.functionOf.lookup f.name ≠ none
  functionNames : (b.functions.toList.map Function.name).Nodup
  globals : ∀ g ∈ b.globals, (r.data g.name ∧ b.globalOf.lookup g.name ≠ none) ∨
    ∃ k < b.textOf.length, g.name = textName k
  globalNames : (b.globals.toList.map GlobalVar.name).Nodup
  own : ∀ name ∈ own, b.functionOf.lookup name ≠ none
  bare : ∀ f ∈ b.functions, f.name ∉ done → f.blocks = []

/-- Functions are added, and those from before are as they were. -/
structure Builder.Le (b b' : Builder) : Prop where
  functionOf : ∀ {name i}, b.functionOf.lookup name = some i → b'.functionOf.lookup name = some i
  functions : ∀ {i : Nat} {f : Function}, b.functions[i]? = some f → b'.functions[i]? = some f

/-- An operand is the function of a name. -/
def Builder.Knows (b : Builder) (name : String) (o : Operand) : Prop :=
  ∃ i, o.ref = .function i ∧ b.functionOf.lookup name = some i

section Builder

variable {r : Roles} {own done : List String} {os : List Operand} {b b' b'' : Builder} {name : String}

theorem Builder.Le.refl (b : Builder) : b.Le b := ⟨id, id⟩

theorem Builder.Le.trans (h : b.Le b') (h' : b'.Le b'') : b.Le b'' :=
  ⟨fun hn => h'.functionOf (h.functionOf hn), fun hf => h'.functions (h.functions hf)⟩

theorem Builder.Knows.mono {o : Operand} (h : b.Knows name o)
    (hle : ∀ {name i}, b.functionOf.lookup name = some i → b'.functionOf.lookup name = some i) :
    b'.Knows name o :=
  h.imp fun _ hi => ⟨hi.1, hle hi.2⟩

theorem Builder.Places.le (h : b.Places os b') : b.Le b' :=
  ⟨fun hn => h.functionOf ▸ hn, fun hf => h.functions ▸ hf⟩

theorem Builder.Named.places (hb : b.Named r own done) (h : b.Places os b') : b'.Named r own done := by
  obtain ⟨hglobals, hfunctions, hglobalOf, hfunctionOf, htextOf, -⟩ := h
  constructor
  · exact hfunctionOf ▸ hfunctions ▸ hb.found
  · exact hfunctionOf ▸ hfunctions ▸ hb.functions
  · exact hfunctions ▸ hb.functionNames
  · exact hglobalOf ▸ htextOf ▸ hglobals ▸ hb.globals
  · exact hglobals ▸ hb.globalNames
  · exact hfunctionOf ▸ hb.own
  · exact hfunctions ▸ hb.bare

/-- Fewer functions are known to be there, and more may have blocks. -/
theorem Builder.Named.weaken {own' done' : List String} (hb : b.Named r own done) (hown : own' ⊆ own)
    (hdone : done ⊆ done') : b.Named r own' done' :=
  { hb with
    own := fun name hn => hb.own name (hown hn)
    bare := fun f hf hn => hb.bare f hf fun h => hn (hdone h) }

/-- A function of a name that is not known is added. -/
theorem Builder.Named.addFunction (hb : b.Named r own done) {f : Function} (hcode : r.code f.name)
    (hnone : b.functionOf.lookup f.name = none) (hblocks : f.blocks = [])
    (hb' : b' = { b with
      functions := b.functions.push f
      functionOf := (f.name, b.functions.size) :: b.functionOf }) :
    b'.Named r (f.name :: own) done ∧ b.Le b' := by
  subst hb'
  have hget {i : Nat} {g : Function} (h : b.functions[i]? = some g) :
      (b.functions.push f)[i]? = some g := by
    obtain ⟨hi, -⟩ := Array.getElem?_eq_some_iff.mp h
    rw [Array.getElem?_push, if_neg hi.ne, h]
  refine ⟨⟨fun {name i} hi => ?_, fun g hg => ?_, ?_, hb.globals, hb.globalNames, fun name hn => ?_,
    fun g hg hn => ?_⟩, lookup_cons_of_none hnone, hget⟩
  · rcases lookup_cons_eq_some hi with ⟨rfl, rfl⟩ | hi
    · exact ⟨f, Array.getElem?_push_size, rfl⟩
    · exact (hb.found hi).imp fun _ hg => ⟨hget hg.1, hg.2⟩
  · rcases Array.mem_push.mp hg with hg | rfl
    · exact ⟨(hb.functions g hg).1, lookup_cons_ne_none (.inr (hb.functions g hg).2)⟩
    · exact ⟨hcode, lookup_cons_ne_none (.inl rfl)⟩
  · rw [Array.toList_push, List.map_append]
    refine List.nodup_append.mpr ⟨hb.functionNames, List.nodup_singleton _, fun n hn m hm heq => ?_⟩
    obtain ⟨g, hg, rfl⟩ := List.mem_map.mp hn
    rw [List.mem_singleton.mp hm] at heq
    exact (hb.functions g (Array.mem_toList_iff.mp hg)).2 (heq ▸ hnone)
  · exact lookup_cons_ne_none ((List.mem_cons.mp hn).imp_right (hb.own name))
  · rcases Array.mem_push.mp hg with hg | rfl
    · exact hb.bare g hg hn
    · exact hblocks

/-- A variable is added, under a name that no other has. -/
theorem Builder.Named.pushGlobal (hb : b.Named r own done) {g : GlobalVar}
    {globalOf textOf : List (String × Nat)} (hnew : ∀ g' ∈ b.globals, g'.name ≠ g.name)
    (hrole : ∀ g' ∈ b.globals.push g, (r.data g'.name ∧ globalOf.lookup g'.name ≠ none) ∨
      ∃ k < textOf.length, g'.name = textName k) :
    ({ b with globals := b.globals.push g, globalOf := globalOf, textOf := textOf } : Builder).Named
      r own done := by
  refine { hb with globals := hrole, globalNames := ?_ }
  rw [Array.toList_push, List.map_append]
  refine List.nodup_append.mpr ⟨hb.globalNames, List.nodup_singleton _, fun n hn m hm heq => ?_⟩
  obtain ⟨g', hg, rfl⟩ := List.mem_map.mp hn
  exact hnew g' (Array.mem_toList_iff.mp hg) (heq.trans (List.mem_singleton.mp hm))

/-- A variable of a name that is not known is added. -/
theorem Builder.Named.addData (hb : b.Named r own done) (hr : r.Apart)
    {g : GlobalVar} (hdata : r.data g.name) (hnone : b.globalOf.lookup g.name = none)
    (hb' : b' = { b with
      globals := b.globals.push g
      globalOf := (g.name, b.globals.size) :: b.globalOf }) : b'.Named r own done ∧ b.Le b' := by
  subst hb'
  refine ⟨hb.pushGlobal (fun g' hg heq => ?_) (fun g' hg => ?_), id, id⟩
  · rcases hb.globals g' hg with ⟨-, hknown⟩ | ⟨k, -, hk⟩
    · exact hknown (heq ▸ hnone)
    · exact (hr.texts k).2 (hk ▸ heq ▸ hdata)
  · rcases Array.mem_push.mp hg with hg | rfl
    · exact (hb.globals g' hg).imp_left fun ⟨hdata, hknown⟩ =>
        ⟨hdata, lookup_cons_ne_none (.inr hknown)⟩
    · exact .inl ⟨hdata, lookup_cons_ne_none (.inl rfl)⟩

/-- The constant of a text that is not known is added. -/
theorem Builder.Named.addText (hb : b.Named r own done) (hr : r.Apart)
    {g : GlobalVar} {q : String × Nat} (hname : g.name = textName b.textOf.length)
    (hb' : b' = { b with globals := b.globals.push g, textOf := q :: b.textOf }) :
    b'.Named r own done ∧ b.Le b' := by
  subst hb'
  refine ⟨hb.pushGlobal (fun g' hg heq => ?_) (fun g' hg => ?_), id, id⟩
  · rcases hb.globals g' hg with ⟨hdata, -⟩ | ⟨k, hk, hg'⟩
    · exact (hr.texts _).2 (hname ▸ heq ▸ hdata)
    · exact hk.ne (textName_injective (hg'.symm.trans (heq.trans hname)))
  · rw [List.length_cons]
    rcases Array.mem_push.mp hg with hg | rfl
    · exact (hb.globals g' hg).imp_right fun ⟨k, hk, hg'⟩ => ⟨k, Nat.lt_succ_of_lt hk, hg'⟩
    · exact .inr ⟨_, Nat.lt_succ_self _, hname⟩

/-- What stands in an array of which one entry was changed. -/
theorem mem_modify {fs : Array Function} {i : Nat} {g f : Function} {change : Function → Function}
    (hi : fs[i]? = some g) (hf : f ∈ fs.modify i change) : f ∈ fs ∨ f = change g := by
  obtain ⟨j, hj⟩ := Array.mem_iff_getElem?.mp hf
  rw [Array.getElem?_modify] at hj
  split at hj
  · rename_i heq
    rw [← heq, hi] at hj
    exact .inr (Option.some.inj hj).symm
  · exact .inl (Array.mem_of_getElem? hj)

/-- The function with more blocks at its end. -/
def Function.addBlocks (ks : List Block) (f : Function) : Function := { f with blocks := f.blocks ++ ks }

/-- A function gets its blocks. -/
theorem Builder.Named.fill (hb : b.Named r own done) {i : Nat} {g : Function} {ks : List Block}
    (hi : b.functions[i]? = some g)
    (hb' : b' = { b with functions := b.functions.modify i (.addBlocks ks) }) :
    b'.Named r own (g.name :: done) := by
  subst hb'
  have hget {j : Nat} {f : Function} (hj : b.functions[j]? = some f) : ∃ f' : Function,
      (b.functions.modify i (.addBlocks ks))[j]? = some f' ∧
        f'.name = f.name := by
    rw [Array.getElem?_modify, hj]
    split
    · exact ⟨_, rfl, rfl⟩
    · exact ⟨f, rfl, rfl⟩
  refine { hb with
    found := fun hn => ?_, functions := fun f hf => ?_, functionNames := ?_, bare := fun f hf hn => ?_ }
  · obtain ⟨f, hf, hname⟩ := hb.found hn
    exact (hget hf).imp fun _ hf' => ⟨hf'.1, hf'.2.trans hname⟩
  · rcases mem_modify hi hf with hf | rfl
    · exact hb.functions f hf
    · exact hb.functions g (Array.mem_of_getElem? hi)
  · have hnames : (b.functions.modify i (.addBlocks ks)).toList.map Function.name =
        b.functions.toList.map Function.name := by
      refine List.ext_getElem? fun j => ?_
      rw [List.getElem?_map, List.getElem?_map, Array.getElem?_toList, Array.getElem?_toList,
        Array.getElem?_modify]
      split
      · cases b.functions[j]? <;> rfl
      · rfl
    exact hnames ▸ hb.functionNames
  · rw [List.mem_cons, not_or] at hn
    rcases mem_modify hi hf with hf | rfl
    · exact hb.bare f hf hn.2
    · exact absurd rfl hn.1

end Builder

/-! ### Steps of the construction -/

/-- The step keeps the symbols of a module in order. -/
structure Keeps {α : Type} (cx : Setting) (r : Roles) (own done : List String) (x : BuildM α) : Prop where
  keeps_of : ∀ {b a b'}, b.Named r own done → Builds cx x b a b' → b'.Named r own done ∧ b.Le b'

/-- The step keeps the symbols of a module in order, and places calls of the functions `names`, each in
its turn. -/
structure Invokes {α : Type} (cx : Setting) (r : Roles) (own done names : List String) (x : BuildM α) :
    Prop where
  keeps : Keeps cx r own done x
  invokes_of : ∀ {b a b'}, b.Named r own done → Builds cx x b a b' →
    ∃ os, callees b'.insts = callees b.insts ++ os ∧ List.Forall₂ b'.Knows names os

section Steps

variable {α β : Type} {cx : Setting} {r : Roles} {own done names names' : List String}
  {os : List Operand} {x : BuildM α}

theorem Places.keeps (h : Places cx os x) : Keeps cx r own done x :=
  ⟨fun hb hx => ⟨hb.places (h.places_of hx), (h.places_of hx).le⟩⟩

theorem Keeps.bind {f : α → BuildM β} (hx : Keeps cx r own done x) (hf : ∀ a, Keeps cx r own done (f a)) :
    Keeps cx r own done (x >>= f) := by
  refine ⟨fun hb h => ?_⟩
  obtain ⟨a, b₁, hxa, hfa⟩ := Builds.bind_iff.mp h
  obtain ⟨hb₁, hle⟩ := hx.keeps_of hb hxa
  exact ((hf a).keeps_of hb₁ hfa).imp_right hle.trans

theorem keeps_get_bind {f : Builder → BuildM β} (hf : ∀ b, Keeps cx r own done (f b)) :
    Keeps cx r own done (get >>= f) :=
  ⟨fun hb h => (hf _).keeps_of hb (Builds.get_bind.mp h)⟩

theorem keeps_forM {f : α → BuildM Unit} (hf : ∀ a, Keeps cx r own done (f a)) (as : List α) :
    Keeps cx r own done (as.forM f) := by
  induction as with
  | nil => exact (places_pure _).keeps
  | cons a as ih => exact Keeps.bind (hf a) fun _ => ih

theorem Places.invokes (h : Places cx [] x) : Invokes cx r own done [] x :=
  ⟨h.keeps, fun _ hx => ⟨[], (h.places_of hx).callees, .nil⟩⟩

theorem Invokes.bind {f : α → BuildM β} (hx : Invokes cx r own done names x)
    (hf : ∀ a, Invokes cx r own done names' (f a)) :
    Invokes cx r own done (names ++ names') (x >>= f) := by
  refine ⟨hx.keeps.bind fun a => (hf a).keeps, fun hb h => ?_⟩
  obtain ⟨a, b₁, hxa, hfa⟩ := Builds.bind_iff.mp h
  obtain ⟨hb₁, -⟩ := hx.keeps.keeps_of hb hxa
  obtain ⟨os, hos, hknown⟩ := hx.invokes_of hb hxa
  obtain ⟨os', hos', hknown'⟩ := (hf a).invokes_of hb₁ hfa
  obtain ⟨-, hle⟩ := (hf a).keeps.keeps_of hb₁ hfa
  refine ⟨os ++ os', by rw [hos', hos, List.append_assoc], ?_⟩
  exact List.rel_append (hknown.imp fun _ _ h => h.mono hle.functionOf) hknown'

end Steps

namespace BuildM

section Instructions

variable {α : Type} {cx : Setting} {r : Roles} {own done : List String} {name : String} {b b' : Builder}

/-- A function of the program or one that is declared. -/
theorem external_spec (hname : r.code name) {t : IrType} {ps : List IrType} {g : Function} {o : Operand}
    (hb : b.Named r own done) (h : Builds cx (external name t ps) b (g, o) b') :
    b'.Named r own done ∧ b.Le b' ∧ b'.insts = b.insts ∧ b'.Knows name o := by
  unfold external at h
  rw [Builds.get_bind] at h
  split at h
  · rename_i i hi
    cases h
    exact ⟨hb, .refl _, rfl, i, rfl, hi⟩
  · rename_i hnone
    cases h
    obtain ⟨hnamed, hle⟩ := hb.addFunction (f := ⟨name, .visible, t, ps.map fun t => ("", t), []⟩)
      hname hnone rfl rfl
    refine ⟨hnamed.weaken (List.subset_cons_self _ _) (List.Subset.refl _), hle, rfl, _, rfl, ?_⟩
    exact (lookup_cons_ite _ _ _ _).trans (if_pos rfl)

theorem keeps_external (hname : r.code name) (t : IrType) (ps : List IrType) :
    Keeps cx r own done (external name t ps) :=
  ⟨fun hb h => ((external_spec hname hb h).imp_right fun h => h.1)⟩

/-- What is found is called once. -/
theorem invokes_external_bind (hname : r.code name) {t : IrType} {ps : List IrType}
    {f : Function × Operand → BuildM α} (hf : ∀ g o, Places cx [o] (f (g, o))) :
    Invokes cx r own done [name] (external name t ps >>= f) := by
  refine ⟨(keeps_external hname t ps).bind fun q => (hf q.1 q.2).keeps, fun hb h => ?_⟩
  obtain ⟨⟨g, o⟩, b₁, hx, h⟩ := Builds.bind_iff.mp h
  obtain ⟨-, -, hinsts, hknown⟩ := external_spec hname hb hx
  have hplaces := (hf g o).places_of h
  exact ⟨[o], hinsts ▸ hplaces.callees, .cons (hknown.mono hplaces.le.functionOf) .nil⟩

theorem keeps_global (hr : r.Apart) (hname : r.data name) :
    Keeps cx r own done (global name) := by
  refine ⟨fun {b a b'} hb h => ?_⟩
  unfold global at h
  rw [Builds.get_bind] at h
  split at h
  · cases h
    exact ⟨hb, .refl _⟩
  · rename_i hnone
    cases h
    exact hb.addData hr hname hnone rfl

theorem invokes_text (hr : r.Apart) (s : String) :
    Invokes cx r own done [] (text s) := by
  have hspec {b b' : Builder} {a : IrType × Operand} (hb : b.Named r own done)
      (h : Builds cx (text s) b a b') : (b'.Named r own done ∧ b.Le b') ∧ b'.insts = b.insts := by
    unfold text at h
    rw [Builds.get_bind] at h
    split at h
    · cases h
      exact ⟨⟨hb, .refl _⟩, rfl⟩
    · cases h
      exact ⟨hb.addText hr rfl rfl, rfl⟩
  exact ⟨⟨fun hb h => (hspec hb h).1⟩,
    fun hb h => ⟨[], by rw [(hspec hb h).2, List.append_nil], .nil⟩⟩

/-- An address is of a function of the program, which is known, or else of a variable. -/
theorem keeps_symbolAddress (hr : r.Apart) (hname : name ∈ own ∨ r.data name)
    (offset : Int) : Keeps cx r own done (symbolAddress name offset) := by
  have hrest (symbol : Operand) : Keeps cx r own done (do
      let base ← convert .ptrtoint symbol (← wordType)
      if offset = 0 then return base else binary .add base (← word offset)) :=
    (places_wordType.bind fun _ => (places_convert _ _ _).bind fun _ => places_offset _ _).keeps
  refine ⟨fun {b a b'} hb h => ?_⟩
  unfold symbolAddress at h
  rw [Builds.get_bind] at h
  cases hfound : b.functionOf.lookup name with
  | some i =>
      rw [hfound] at h
      exact (hrest _).keeps_of hb h
  | none =>
      rw [hfound] at h
      have hdata := hname.resolve_left fun hown => hb.own name hown hfound
      exact ((keeps_global hr hdata).bind hrest).keeps_of hb h

theorem keeps_operation (hr : r.Apart) {o : Rtl.Operation} {as : List Rtl.Reg}
    {d : Rtl.Reg} {n : Rtl.Node} (hfollows : (Rtl.Instr.op o as d n).Follows r own)
    (args : List Operand) : Keeps cx r own done (operation o args) := by
  have hbinary (op : BinaryOp) (x y : Operand) : Keeps cx r own done (binary op x y) :=
    (places_binary op x y).keeps
  have hword (n : Int) : Keeps cx r own done (word n) := (places_word n).keeps
  unfold operation
  refine Keeps.bind (hword 0) fun zero => ?_
  cases o with
  | addressOf name offset => exact keeps_symbolAddress hr hfollows offset
  | move => exact (places_pure _).keeps
  | const => exact hword _
  | addConst | xorConst | not => exact (hword _).bind fun _ => hbinary _ _ _
  | shl | shr | shru => exact (places_shift _ _ _).keeps
  | compare | compareUnsigned => exact (places_compareWords _ _ _).keeps
  | add | neg | sub | mul | div | mod | and | or | xor => exact hbinary _ _ _

/-- What an access names is a variable. -/
theorem keeps_accessed (hr : r.Apart) {a : Rtl.Address}
    (hname : ∀ {n offset}, a = .global n offset → r.data n) (c : Rtl.Chunk) (args : List Rtl.Reg) :
    Keeps cx r own done (accessed c a args) := by
  have haddress : Keeps cx r own done (address a args) := by
    unfold address
    cases a with
    | indexed offset =>
        cases args with
        | nil => exact ((places_word 0).bind fun base => places_offset base offset).keeps
        | cons r rs => exact ((places_use r).bind fun base => places_offset base offset).keeps
    | global n offset =>
        exact (keeps_global hr (hname rfl)).bind fun _ => (places_wordType.bind fun _ =>
          (places_convert _ _ _).bind fun base => places_offset base offset).keeps
  exact haddress.bind fun _ => ((places_convert _ _ _).bind fun _ => places_pure _).keeps

/-- What a call names is a function. -/
theorem keeps_callee {fn : Rtl.Callee} (hname : ∀ {n}, fn = .symbol n → r.code n) (args : Nat)
    (results : Int) : Keeps cx r own done (callee fn args results) := by
  refine (places_resultType _).keeps.bind fun t => places_wordType.keeps.bind fun w => ?_
  cases fn with
  | symbol n => exact (keeps_external (hname rfl) _ _).bind fun _ => (places_pure _).keeps
  | reg c =>
      exact ((places_use c).bind fun _ => (places_convert _ _ _).bind fun _ => places_pure _).keeps

theorem keeps_callAndReturn {fn : Rtl.Callee} (hname : ∀ {n}, fn = .symbol n → r.code n)
    (f : Rtl.Function) (args : List Rtl.Reg) : Keeps cx r own done (do
      let (t, target) ← callee fn args.length f.results
      let values ← args.mapM use
      let r ← call true t target values
      return Terminator.ret (if f.results = 0 then none else some r)) :=
  (keeps_callee hname _ _).bind fun _ => ((places_mapM places_use args).bind fun _ =>
    (places_call _ _ _ _).bind fun _ => places_pure _).keeps

theorem keeps_tailCall {fn : Rtl.Callee} (hname : ∀ {n}, fn = .symbol n → r.code n) (f : Rtl.Function)
    (args : List Rtl.Reg) : Keeps cx r own done (tailCall f fn args) := by
  have hrest : Keeps cx r own done _ := keeps_callAndReturn hname f args
  unfold tailCall
  cases fn with
  | reg c => exact hrest
  | symbol n =>
      refine keeps_get_bind fun b => ?_
      dsimp only
      split
      · split
        · exact Keeps.bind (places_throw _).keeps fun _ => hrest
        · exact hrest
      · exact hrest

/-- The routine that an instruction needs is called once, and nothing else is. -/
theorem invokes_instruction (hr : r.Apart) (f : Rtl.Function) {i : Rtl.Instr} (hfollows : i.Follows r own)
    (hname : i.routine? = some name) : Invokes cx r own done [name] (instruction f i) := by
  have hstart {names : List String} {f : IrType → BuildM Terminator}
      (hf : ∀ w, Invokes cx r own done names (f w)) : Invokes cx r own done names (wordType >>= f) :=
    places_wordType.invokes.bind hf
  cases i with
  | alloc words d s =>
      cases hname
      refine hstart fun w => invokes_external_bind hr.alloc fun g code => places_read_bind ?_
      exact (places_word _).bind fun _ => (places_call _ _ code _).bind fun _ =>
        (places_convert _ _ _).bind fun _ => (places_define _ _).bind fun _ =>
          (places_target f s).bind fun _ => places_pure _
  | abort reason =>
      cases hname
      refine hstart fun w => (invokes_text hr reason).bind fun q => ?_
      refine (places_emit (.element _ _ _) _).invokes.bind fun ptr => ?_
      refine invokes_external_bind hr.abort fun g code => ?_
      exact (places_call _ _ code _).bind fun _ => places_pure _
  | builtin name args d s =>
      cases hname
      refine hstart fun w => (places_mapM places_use args).invokes.bind fun values => ?_
      refine invokes_external_bind hfollows fun g code => ?_
      exact (places_call _ _ code _).bind fun _ => (places_storeResults _ _).bind fun _ =>
        (places_target f s).bind fun _ => places_pure _
  | nop | op | load | store | call | tailcall | branch | jump | ret => cases hname

theorem keeps_instruction (hr : r.Apart) (f : Rtl.Function) {i : Rtl.Instr} (hfollows : i.Follows r own) :
    Keeps cx r own done (instruction f i) := by
  have hjump (s : Rtl.Node) : Places cx [] (do return Terminator.jump (← target f s)) :=
    (places_target f s).bind fun _ => places_pure _
  have hroutine {name : String} (hname : i.routine? = some name) :
      Keeps cx r own done (instruction f i) :=
    (invokes_instruction hr f hfollows hname).keeps
  have hstart {g : IrType → BuildM Terminator} (hg : ∀ w, Keeps cx r own done (g w)) :
      Keeps cx r own done (wordType >>= g) := places_wordType.keeps.bind hg
  cases i with
  | alloc | abort | builtin => exact hroutine rfl
  | nop s => exact hstart fun _ => (hjump s).keeps
  | op o args d s =>
      exact hstart fun _ => (places_mapM places_use args).keeps.bind fun values =>
        (keeps_operation hr hfollows values).bind fun v =>
          ((places_define d v).bind fun _ => hjump s).keeps
  | load c a args d s =>
      refine hstart fun w => (keeps_accessed hr ?_ c args).bind fun q => (?_ : Places cx [] _).keeps
      · rintro n offset rfl
        exact hfollows
      · refine (places_emit (.load _ _) _).bind fun v => places_read_bind ?_
        have hdone (v : Operand) := (places_define d v).bind fun _ => hjump s
        dsimp only
        split
        · exact (places_convert _ _ _).bind hdone
        · exact (places_pure _).bind hdone
  | store c a args src s =>
      refine hstart fun w => (keeps_accessed hr ?_ c args).bind fun q => (?_ : Places cx [] _).keeps
      · rintro n offset rfl
        exact hfollows
      · refine (places_use src).bind fun v => places_read_bind ?_
        have hstore (v : Operand) : Places cx [] (emit (.store v q.1) .void) :=
          places_emit (.store _ _) _
        have hdone (v : Operand) := (hstore v).bind fun _ => hjump s
        dsimp only
        split
        · exact (places_convert _ _ _).bind hdone
        · exact (places_pure _).bind hdone
  | call fn args ds s =>
      refine hstart fun w => (keeps_callee ?_ _ _).bind fun q => (?_ : Places cx [q.2] _).keeps
      · rintro n rfl
        exact hfollows
      · exact (places_mapM places_use args).bind fun values => (places_call _ _ _ _).bind fun v =>
          (places_storeResults v ds).bind fun _ => hjump s
  | tailcall fn args =>
      refine hstart fun w => keeps_tailCall ?_ f args
      rintro n rfl
      exact hfollows
  | branch t args a b =>
      exact hstart fun w => ((places_condition t args).bind fun _ => (places_target f a).bind fun _ =>
        (places_target f b).bind fun _ => places_pure _).keeps
  | jump arg targets =>
      refine hstart fun w => (places_mapM (places_target f) targets).keeps.bind fun labels => ?_
      dsimp only
      split
      · exact (places_pure _).keeps
      · exact ((places_use arg).bind fun _ => places_pure _).keeps
  | ret args =>
      exact hstart fun w => ((places_mapM places_use args).bind fun values =>
        (places_returned values).bind fun _ => places_pure _).keeps

end Instructions

end BuildM

end Llvm

end Mil
