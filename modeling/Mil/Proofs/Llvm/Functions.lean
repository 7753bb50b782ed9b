import Mil.Proofs.Llvm.Symbols

/-!
What a module holds. It has the functions of the program, with a block for each instruction; all its
symbols are different, and the routines that the instructions need are declared in it and defined
elsewhere.
-/

namespace Mil

open Llvm

namespace Llvm

/-! ### Functions -/

/-- The block of a node: it calls the routine that the instruction needs, and that one only. -/
def Builder.Serves (b : Builder) (q : Rtl.Node × Rtl.Instr) (k : Block) : Prop :=
  k.label = nodeLabel q.1 ∧
    ∀ name, q.2.routine? = some name → ∃ o, callees k.insts = [o] ∧ b.Knows name o

/-- A function has been made of a function of the program: after a first block there is one for each
instruction. -/
def Builder.Holds (b : Builder) (f : Rtl.Function) : Prop :=
  ∃ g ∈ b.functions, g.name = f.name ∧
    ∃ first rest, g.blocks = first :: rest ∧ List.Forall₂ b.Serves f.code rest

theorem Builder.Serves.mono {b b' : Builder}
    (hle : ∀ {name i}, b.functionOf.lookup name = some i → b'.functionOf.lookup name = some i)
    {q : Rtl.Node × Rtl.Instr} {k : Block} (h : b.Serves q k) : b'.Serves q k :=
  ⟨h.1, fun name hname => (h.2 name hname).imp fun _ ho => ⟨ho.1, ho.2.mono hle⟩⟩

namespace BuildM

section Functions

variable {cx : Setting} {r : Roles} {own done : List String} {b b' : Builder}
  {f : Rtl.Function}

theorem node_spec (hr : r.Apart) {n : Rtl.Node} {i : Rtl.Instr} (hfollows : i.Follows r own) {k : Block}
    (hb : b.Named r own done) (h : Builds cx (node f n i) b k b') :
    (b'.Named r own done ∧ b.Le b') ∧ b'.Serves (n, i) k := by
  unfold node at h
  rw [Builds.modify_bind] at h
  obtain ⟨t, b₁, hi, h⟩ := Builds.bind_iff.mp h
  cases h
  have hb₀ : ({ b with insts := [] } : Builder).Named r own done := { hb with }
  obtain ⟨hb₁, hle⟩ := (keeps_instruction hr f hfollows).keeps_of hb₀ hi
  refine ⟨⟨hb₁, hle.functionOf, hle.functions⟩, rfl, fun name hname => ?_⟩
  obtain ⟨os, hos, hknown⟩ :=
    (invokes_instruction hr f hfollows hname).invokes_of hb₀ hi
  cases hknown with
  | cons ho hrest =>
      cases hrest
      exact ⟨_, hos, ho⟩

theorem nodes_spec (hr : r.Apart) {code : Rtl.Graph} (hfollows : ∀ q ∈ code, q.2.Follows r own)
    {ks : List Block} (hb : b.Named r own done) (h : Builds cx (code.mapM fun q => node f q.1 q.2) b ks b') :
    (b'.Named r own done ∧ b.Le b') ∧ List.Forall₂ b'.Serves code ks := by
  induction code generalizing b ks with
  | nil =>
      obtain ⟨rfl, rfl⟩ := Builds.mapM_nil_iff.mp h
      exact ⟨⟨hb, .refl _⟩, .nil⟩
  | cons q code ih =>
      obtain ⟨k, ks, b₁, hk, hks, rfl⟩ := Builds.mapM_cons_iff.mp h
      obtain ⟨⟨hb₁, hle⟩, hserves⟩ := node_spec hr (hfollows q (.head _)) hb hk
      obtain ⟨⟨hb', hle'⟩, hrest⟩ := ih (fun q hq => hfollows q (.tail _ hq)) hb₁ hks
      exact ⟨⟨hb', hle.trans hle'⟩, .cons (hserves.mono hle'.functionOf) hrest⟩

/-- The blocks of a function are built one after the other, and then it gets them all. -/
theorem exists_of_body (hr : r.Apart) (hfollows : ∀ q ∈ f.code, q.2.Follows r own) {i : Nat}
    (hi : b.functionOf.lookup f.name = some i) (hb : b.Named r own done) {u : Unit}
    (h : Builds cx (body f) b u b') : ∃ b₁ first rest, b₁.Named r own done ∧ b.Le b₁ ∧
      List.Forall₂ b₁.Serves f.code rest ∧
      b' = { b₁ with functions := b₁.functions.modify i (.addBlocks (first :: rest)) } := by
  unfold body at h
  rw [Builds.modify_bind, Builds.get_bind] at h
  dsimp only at h
  rw [hi, Option.getD_some] at h
  obtain ⟨⟨declared, o⟩, b₁, hdeclared, h⟩ := Builds.bind_iff.mp h
  obtain ⟨_, b₂, hparams, h⟩ := Builds.bind_iff.mp h
  obtain ⟨start, b₃, hstart, h⟩ := Builds.bind_iff.mp h
  obtain ⟨rest, b₄, hrest, h⟩ := Builds.bind_iff.mp h
  rw [Builds.get_bind] at h
  have hbefore := ((places_functionAt i).places_of hdeclared).trans
    ((Places.places_of (places_forM (fun _ => places_storeParam _ _) _) hparams).trans
      ((places_target f f.entry).places_of hstart))
  have hb₀ : ({ b with slots := [], entry := [], insts := [] } : Builder).Named r own done :=
    { hb with }
  obtain ⟨⟨hb₄, hle⟩, hserves⟩ := nodes_spec hr hfollows (hb₀.places hbefore) hrest
  have hle := hbefore.le.trans hle
  exact ⟨b₄, _, rest, hb₄, ⟨hle.functionOf, hle.functions⟩, hserves, Builds.modify_iff.mp h⟩

/-- The blocks of a function are placed; those of other functions stay. -/
theorem body_spec (hr : r.Apart) (hfollows : ∀ q ∈ f.code, q.2.Follows r own) (hown : f.name ∈ own)
    (hnew : f.name ∉ done) (hb : b.Named r own done) {u : Unit} (h : Builds cx (body f) b u b') :
    b'.Named r own (f.name :: done) ∧ b'.Holds f ∧
      ∀ f' : Rtl.Function, f'.name ∈ done → b.Holds f' → b'.Holds f' := by
  obtain ⟨i, hi⟩ := Option.ne_none_iff_exists'.mp (hb.own _ hown)
  obtain ⟨b₁, first, rest, hb₁, hle, hserves, rfl⟩ := exists_of_body hr hfollows hi hb h
  obtain ⟨g, hg, hname⟩ := hb₁.found (hle.functionOf hi)
  have hbare := hb₁.bare g (Array.mem_of_getElem? hg) (hname ▸ hnew)
  have hget : (b₁.functions.modify i (.addBlocks (first :: rest)))[i]? =
      some (g.addBlocks (first :: rest)) := by
    rw [Array.getElem?_modify, if_pos rfl, hg, Option.map_some]
  refine ⟨hname ▸ hb₁.fill hg rfl,
    ⟨g.addBlocks (first :: rest), Array.mem_of_getElem? hget, hname, first, rest, ?_, ?_⟩, ?_⟩
  · rw [Function.addBlocks, hbare, List.nil_append]
  · exact hserves.imp fun _ _ h => h.mono id
  · rintro f' hdone ⟨g', hg', hname', first', rest', hblocks, hserves'⟩
    obtain ⟨j, hj⟩ := Array.mem_iff_getElem?.mp hg'
    have hne : i ≠ j := by
      rintro rfl
      cases hg.symm.trans (hle.functions hj)
      exact hnew (hname ▸ hname' ▸ hdone)
    have hget : (b₁.functions.modify i (.addBlocks (first :: rest)))[j]? = some g' := by
      rw [Array.getElem?_modify, if_neg hne, hle.functions hj]
    exact ⟨g', Array.mem_of_getElem? hget, hname', first', rest', hblocks,
      hserves'.imp fun _ _ h => h.mono hle.functionOf⟩

theorem bodies_spec (hr : r.Apart) {fs : List Rtl.Function}
    (hfollows : ∀ f ∈ fs, ∀ q ∈ f.code, q.2.Follows r own) (hown : ∀ f ∈ fs, f.name ∈ own)
    (hnew : ∀ f ∈ fs, f.name ∉ done) (hnodup : (fs.map Rtl.Function.name).Nodup)
    (hb : b.Named r own done) {u : Unit} (h : Builds cx (fs.forM body) b u b') :
    b'.Named r own (done ++ fs.map Rtl.Function.name) ∧ (∀ f ∈ fs, b'.Holds f) ∧
      ∀ f : Rtl.Function, f.name ∈ done → b.Holds f → b'.Holds f := by
  induction fs generalizing b done with
  | nil =>
      rw [Builds.forM_nil_iff.mp h, List.map_nil, List.append_nil]
      exact ⟨hb, nofun, fun _ _ => id⟩
  | cons f fs ih =>
      obtain ⟨b₁, hx, h⟩ := Builds.forM_cons_iff.mp h
      rw [List.map_cons, List.nodup_cons] at hnodup
      obtain ⟨hb₁, hf, hold⟩ :=
        body_spec hr (hfollows f (.head _)) (hown f (.head _)) (hnew f (.head _)) hb hx
      have hnew' : ∀ f' ∈ fs, f'.name ∉ f.name :: done := by
        intro f' hf' hmem
        rcases List.mem_cons.mp hmem with heq | hmem
        · exact hnodup.1 (heq ▸ List.mem_map_of_mem hf')
        · exact hnew f' (.tail _ hf') hmem
      obtain ⟨hb', hfs, hold'⟩ := ih (fun f' hf' => hfollows f' (.tail _ hf'))
        (fun f' hf' => hown f' (.tail _ hf')) hnew' hnodup.2 hb₁ h
      refine ⟨hb'.weaken (List.Subset.refl _) List.perm_middle.symm.subset, fun f' hf' => ?_, ?_⟩
      · rcases List.mem_cons.mp hf' with rfl | hf'
        · exact hold' _ (.head _) hf
        · exact hfs f' hf'
      · exact fun f' hdone h => hold' f' (.tail _ hdone) (hold f' hdone h)

/-- A function of the program is declared, under a name that is not known. -/
theorem declareFunction_spec (hcode : r.code f.name) (hnone : b.functionOf.lookup f.name = none)
    (hb : b.Named r own done) {u : Unit} (h : Builds cx (declareFunction f) b u b') :
    b'.Named r (f.name :: own) done ∧
      ∀ name, name ≠ f.name → b'.functionOf.lookup name = b.functionOf.lookup name := by
  obtain ⟨w, b₁, hw, h⟩ := Builds.bind_iff.mp h
  obtain ⟨t, b₂, ht, h⟩ := Builds.bind_iff.mp h
  have hplaces := (places_wordType.places_of hw).trans ((places_resultType _).places_of ht)
  rw [← hplaces.functionOf] at hnone ⊢
  cases h
  obtain ⟨hadded, -⟩ := (hb.places hplaces).addFunction (f := ⟨f.name,
    if f.exported then .visible else .internal, t, f.params.map fun r => (paramName r, w), []⟩)
    hcode hnone rfl rfl
  exact ⟨{ hadded with }, fun name hne => (lookup_cons_ite _ _ _ _).trans (if_neg hne)⟩

/-- A global of the program is declared, under a name that is not known. -/
theorem declareGlobal_spec (hr : r.Apart) {g : Rtl.Global} (hdata : r.data g.name)
    (hnone : b.globalOf.lookup g.name = none) (hb : b.Named r own done) {u : Unit}
    (h : Builds cx (declareGlobal g) b u b') : b'.Named r own done ∧ b'.functionOf = b.functionOf ∧
      ∀ name, name ≠ g.name → b'.globalOf.lookup name = b.globalOf.lookup name := by
  cases h
  refine ⟨(hb.addData hr (g := ⟨g.name, .internal, false, _, _⟩) hdata hnone rfl).1, rfl, ?_⟩
  exact fun name hne => (lookup_cons_ite _ _ _ _).trans (if_neg hne)

theorem declareFunctions_spec {fs : List Rtl.Function} (hcode : ∀ f ∈ fs, r.code f.name)
    (hnone : ∀ f ∈ fs, b.functionOf.lookup f.name = none) (hnodup : (fs.map Rtl.Function.name).Nodup)
    (hb : b.Named r own done) {u : Unit} (h : Builds cx (fs.forM declareFunction) b u b') :
    b'.Named r (own ++ fs.map Rtl.Function.name) done := by
  induction fs generalizing b own with
  | nil =>
      rw [Builds.forM_nil_iff.mp h, List.map_nil, List.append_nil]
      exact hb
  | cons f fs ih =>
      obtain ⟨b₁, hx, h⟩ := Builds.forM_cons_iff.mp h
      rw [List.map_cons, List.nodup_cons] at hnodup
      obtain ⟨hb₁, hsame⟩ := declareFunction_spec (hcode f (.head _)) (hnone f (.head _)) hb hx
      have hnone' : ∀ f' ∈ fs, b₁.functionOf.lookup f'.name = none := by
        intro f' hf'
        rw [hsame _ fun heq => hnodup.1 (heq ▸ List.mem_map_of_mem hf')]
        exact hnone f' (.tail _ hf')
      have hb' := ih (fun f' hf' => hcode f' (.tail _ hf')) hnone' hnodup.2 hb₁ h
      exact hb'.weaken List.perm_middle.subset (List.Subset.refl _)

theorem declareGlobals_spec (hr : r.Apart) {gs : List Rtl.Global} (hdata : ∀ g ∈ gs, r.data g.name)
    (hnone : ∀ g ∈ gs, b.globalOf.lookup g.name = none) (hnodup : (gs.map Rtl.Global.name).Nodup)
    (hb : b.Named r own done) {u : Unit} (h : Builds cx (gs.forM declareGlobal) b u b') :
    b'.Named r own done ∧ b'.functionOf = b.functionOf := by
  induction gs generalizing b with
  | nil =>
      rw [Builds.forM_nil_iff.mp h]
      exact ⟨hb, rfl⟩
  | cons g gs ih =>
      obtain ⟨b₁, hx, h⟩ := Builds.forM_cons_iff.mp h
      rw [List.map_cons, List.nodup_cons] at hnodup
      obtain ⟨hb₁, hfunctions, hsame⟩ :=
        declareGlobal_spec hr (hdata g (.head _)) (hnone g (.head _)) hb hx
      have hnone' : ∀ g' ∈ gs, b₁.globalOf.lookup g'.name = none := by
        intro g' hg'
        rw [hsame _ fun heq => hnodup.1 (heq ▸ List.mem_map_of_mem hg')]
        exact hnone g' (.tail _ hg')
      exact (ih (fun g' hg' => hdata g' (.tail _ hg')) hnone' hnodup.2 hb₁ h).imp_right
        fun heq => heq.trans hfunctions

end Functions

end BuildM

/-! ### Modules -/

/-- The symbols that a module defines or declares. -/
def Module.symbols (m : Module) : List String :=
  m.globals.toList.map GlobalVar.name ++ m.functions.toList.map Function.name

/-- An operand is a function of some name that is defined elsewhere. -/
def Module.Declares (m : Module) (name : String) (o : Operand) : Prop :=
  ∃ (i : Nat) (f : Function), o.ref = .function i ∧ m.functions[i]? = some f ∧ f.name = name ∧ f.blocks = []

/-- The block of an instruction: if the instruction needs a routine, the block calls it once and calls
nothing else, and the routine is defined elsewhere. -/
def Module.Serves (m : Module) (q : Rtl.Node × Rtl.Instr) (k : Block) : Prop :=
  k.label = nodeLabel q.1 ∧
    ∀ name, q.2.routine? = some name → ∃ o, callees k.insts = [o] ∧ m.Declares name o

/-- A module holds a function of the program: after a first block there is one for each instruction. -/
def Module.Holds (m : Module) (f : Rtl.Function) : Prop :=
  ∃ g ∈ m.functions, g.name = f.name ∧
    ∃ first rest, g.blocks = first :: rest ∧ List.Forall₂ m.Serves f.code rest

/-- The initialisation of all globals is added at the end, after calls of what initialises each. -/
theorem BuildM.initFunction_spec {cx : Setting} {r : Roles} {own done : List String} {p : Rtl.Program}
    {b b' : Builder} (hb : b.Named r own done) {u : Unit} (h : Builds cx (initFunction p) b u b') :
    ∃ (b₁ : Builder) (init : Function), b₁.Named r own done ∧ b.Le b₁ ∧ init.name = initRoutine ∧
      b'.globals = b₁.globals ∧ b'.functions = b₁.functions.push init := by
  unfold initFunction at h
  rw [Builds.modify_bind] at h
  obtain ⟨_, b₁, hcalls, h⟩ := Builds.bind_iff.mp h
  cases h
  have hb₀ : ({ b with insts := [] } : Builder).Named r own done := { hb with }
  obtain ⟨hb₁, hle⟩ : b₁.Named r own done ∧ Builder.Le { b with insts := [] } b₁ := by
    refine Keeps.keeps_of (keeps_forM (fun g => keeps_get_bind fun b => ?_) _) hb₀ hcalls
    dsimp only
    split
    · exact (places_pure _).keeps
    · exact (places_functionAt _).keeps.bind fun q =>
        ((places_call false q.1.result q.2 []).bind fun _ => places_pure ()).keeps
  exact ⟨b₁, ⟨initRoutine, .visible, .void, [], [⟨"entry", b₁.insts, .ret none⟩]⟩, hb₁,
    ⟨hle.functionOf, hle.functions⟩, rfl, rfl, rfl⟩

theorem Builder.Holds.mono {b b' : Builder} (hle : b.Le b') {f : Rtl.Function} (h : b.Holds f) :
    b'.Holds f := by
  obtain ⟨g, hg, hname, first, rest, hblocks, hserves⟩ := h
  obtain ⟨i, hi⟩ := Array.mem_iff_getElem?.mp hg
  exact ⟨g, Array.mem_of_getElem? (hle.functions hi), hname, first, rest, hblocks,
    hserves.imp fun _ _ h => h.mono hle.functionOf⟩

theorem Builder.named_new (r : Roles) : Builder.new.Named r [] [] where
  found := nofun
  functions := nofun
  functionNames := .nil
  globals := nofun
  globalNames := .nil
  own := nofun
  bare := nofun

end Llvm

section Program

variable {p : Rtl.Program} {r : Roles} {m : Module}

/-- A module is what was built when all functions have their blocks, and the initialisation of all
globals. -/
theorem Rtl.Program.exists_of_toLlvm (hr : r.Apart) (hp : p.Follows r) (h : p.toLlvm = .ok m) :
    ∃ (b : Llvm.Builder) (init : Llvm.Function), b.Named r p.functionNames p.functionNames ∧
      (∀ f ∈ p.functions, b.Holds f) ∧ init.name = initRoutine ∧
      m.globals = b.globals ∧ m.functions = b.functions.push init := by
  obtain ⟨⟨_, b⟩, hbuilds, h⟩ := Except.bind_eq_ok.mp h
  cases h
  obtain ⟨_, b₁, hglobals, h⟩ := Builds.bind_iff.mp hbuilds
  obtain ⟨_, b₂, hfunctions, h⟩ := Builds.bind_iff.mp h
  obtain ⟨_, b₃, hbodies, hinit⟩ := Builds.bind_iff.mp h
  obtain ⟨hb₁, hnone⟩ := BuildM.declareGlobals_spec hr hp.globals (fun _ _ => rfl) hp.globalNames
    (Builder.named_new r) hglobals
  have hb₂ := BuildM.declareFunctions_spec hp.functions (fun _ _ => hnone ▸ rfl) hp.functionNames hb₁
    hfunctions
  obtain ⟨hb₃, hholds, -⟩ := BuildM.bodies_spec hr hp.code (fun f hf => List.mem_map_of_mem hf)
    (fun _ _ => List.not_mem_nil) hp.functionNames hb₂ hbodies
  obtain ⟨b₄, init, hb₄, hle, hname, hglobals, hfunctions⟩ := BuildM.initFunction_spec hb₃ hinit
  exact ⟨b₄, init, hb₄, fun f hf => (hholds f hf).mono hle, hname, hglobals, hfunctions⟩

/-- The symbols of a module are all different, it holds the functions of the program, and the routines
that these need are defined elsewhere. -/
theorem Rtl.Program.symbols_nodup_and_holds (hr : r.Apart) (hp : p.Follows r) (h : p.toLlvm = .ok m) :
    m.symbols.Nodup ∧ ∀ f ∈ p.functions, m.Holds f := by
  obtain ⟨b, init, hb, hholds, hinit, hglobals, hfunctions⟩ := exists_of_toLlvm hr hp h
  constructor
  · rw [Module.symbols, hglobals, hfunctions, Array.toList_push, List.map_append]
    have hrole {n : String} (hn : n ∈ b.functions.toList.map Llvm.Function.name) : r.code n := by
      obtain ⟨f, hf, rfl⟩ := List.mem_map.mp hn
      exact (hb.functions f (Array.mem_toList_iff.mp hf)).1
    refine List.nodup_append.mpr ⟨hb.globalNames, List.nodup_append.mpr
      ⟨hb.functionNames, List.nodup_singleton _, fun n hn n' hn' heq => ?_⟩, fun n hn n' hn' heq => ?_⟩
    · rw [List.mem_singleton.mp hn', hinit] at heq
      exact hr.init.1 (heq ▸ hrole hn)
    · subst heq
      obtain ⟨g, hg, rfl⟩ := List.mem_map.mp hn
      have hcode : r.code g.name ∨ g.name = initRoutine := by
        refine (List.mem_append.mp hn').imp hrole fun hn' => ?_
        exact (List.mem_singleton.mp hn').trans hinit
      rcases hb.globals g (Array.mem_toList_iff.mp hg) with ⟨hdata, -⟩ | ⟨k, -, hk⟩
      · rcases hcode with hcode | hcode
        · exact hr.disjoint hcode hdata
        · exact hr.init.2 (hcode ▸ hdata)
      · rcases hcode with hcode | hcode
        · exact (hr.texts k).1 (hk ▸ hcode)
        · exact absurd (hk.symm.trans hcode ▸ head?_textName k) (by decide)
  · intro f hf
    obtain ⟨g, hg, hname, first, rest, hblocks, hserves⟩ := hholds f hf
    refine ⟨g, hfunctions ▸ Array.mem_push_of_mem _ hg, hname, first, rest, hblocks, ?_⟩
    refine ((List.forall₂_and_left f.code rest).mpr ⟨hp.routines f hf, hserves⟩).imp ?_
    rintro q k ⟨hroutine, hlabel, hcalls⟩
    refine ⟨hlabel, fun name hq => ?_⟩
    obtain ⟨o, ho, i, href, hi⟩ := hcalls name hq
    obtain ⟨g', hg', hname'⟩ := hb.found hi
    obtain ⟨hlt, -⟩ := Array.getElem?_eq_some_iff.mp hg'
    refine ⟨o, ho, i, g', href, ?_, hname', ?_⟩
    · rw [hfunctions, Array.getElem?_push, if_neg hlt.ne, hg']
    · exact hb.bare g' (Array.mem_of_getElem? hg') (hname' ▸ hroutine name hq)

end Program

end Mil
