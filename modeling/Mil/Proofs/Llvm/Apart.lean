import Mil.Proofs.Llvm.Functions
import Mil.Proofs.Rtl.Names

/-!
The names of a program in its module. Symbols are all different, but a module has names of its own: of
routines that are found outside, of the initialisation of all globals, and of texts. No form of a name that
is made by a number, and no name that is made for the code of a closure or for an initialiser, is one of
these. So symbols do not clash as long as no definition, and nothing that is found outside, has a name that
the module has of its own.
-/

namespace Mil

open Rtl Llvm

/-! ### The names of a module -/

namespace Llvm

/-- The names that a module has of its own. -/
inductive OwnName : String → Prop
  | alloc : OwnName allocRoutine
  | abort : OwnName abortRoutine
  | print : OwnName "printWord"
  | init : OwnName initRoutine
  | text (k : Nat) : OwnName (textName k)

theorem isDigit_of_mem_toString {k : Nat} {c : Char} (h : c ∈ (toString k).toList) : c.isDigit = true := by
  rw [Nat.toString_eq_repr, Nat.repr_eq_ofList_toDigits, String.toList_ofList] at h
  exact Nat.isDigit_of_mem_toDigits (by decide) (by decide) h

/-- Of these names only three have an underscore. They start with one letter and end with one of two. -/
theorem OwnName.ends {n : String} (h : OwnName n) (hn : '_' ∈ n.toList) :
    n.toList.head? = some 'm' ∧ (n.toList.getLast? = some 'c' ∨ n.toList.getLast? = some 't') := by
  cases h with
  | alloc | abort | init => decide
  | print => exact absurd hn (by decide)
  | text k =>
      rw [textName, String.toList_append] at hn
      rcases List.mem_append.mp hn with hn | hn
      · exact absurd hn (by decide)
      · exact absurd (isDigit_of_mem_toString hn) (by decide)

/-- None of these names ends with an underscore and a number. -/
theorem OwnName.not_numbered (base : String) (k : Nat) :
    ¬ OwnName (Symbols.numbered base (k + 1)) := by
  intro h
  rw [Symbols.numbered, if_neg (Nat.succ_ne_zero k)] at h
  obtain ⟨c, hc⟩ : ∃ c, (toString (k + 1)).toList.getLast? = some c := by
    refine Option.isSome_iff_exists.mp (List.getLast?_isSome.mpr ?_)
    rw [Nat.toString_eq_repr, Nat.repr_eq_ofList_toDigits, String.toList_ofList]
    exact Nat.toDigits_ne_nil
  have hdigit := isDigit_of_mem_toString (List.mem_of_getLast? hc)
  have hends := (h.ends (by simp)).2
  rw [String.toList_append, List.getLast?_append, hc, Option.some_or] at hends
  rcases hends with hends | hends
  all_goals
    cases hends
    exact absurd hdigit (by decide)

/-- None of these names is made for the code of a closure. -/
theorem OwnName.not_code (name : String) : ¬ OwnName (name ++ "_code") := by
  intro h
  have hends := (h.ends (by simp)).2
  rw [String.toList_append, List.getLast?_append] at hends
  rcases hends with hends | hends <;> cases hends

theorem OwnName.not_init (name : String) : ¬ OwnName ("init_" ++ name) := by
  intro h
  have hends := (h.ends (by simp)).1
  rw [String.toList_append] at hends
  cases hends

end Llvm

theorem Rtl.Symbols.Formed.not_own {p : Mil.Program} {P : DefnId → Prop} {outside : List String}
    {s : Symbols} (h : s.Formed p P outside) (hP : ∀ id, P id → ¬ OwnName (Symbols.baseName p id))
    {n : String} (hn : n ∈ s.used) (hout : n ∉ outside) : ¬ OwnName n := by
  obtain ⟨base, k, hbase, rfl⟩ := (h n hn).resolve_left hout
  cases k with
  | succ k => exact OwnName.not_numbered base k
  | zero =>
      cases hbase with
      | defn hid => exact hP _ hid
      | code name => exact OwnName.not_code name
      | init name => exact OwnName.not_init name

/-! ### The roles of the names of a program -/

namespace Program

/-- No definition has a name that a module has of its own, nor has a variable from outside, whose name is
none of a primitive either; and a primitive is at most one of the routines. -/
structure NamesApart (p : Program) : Prop where
  defns : ∀ id ∈ p.reachable, ¬ OwnName (Symbols.baseName p id)
  outer : ∀ n, p.Variable n → ¬ OwnName n ∧ ¬ p.UserPrim n
  prims : ∀ n, p.UserPrim n → n ≠ initRoutine ∧ ∀ k, n ≠ textName k

/-- The routines that are found outside. -/
def runtime : List String := [allocRoutine, abortRoutine, "printWord"]

/-- What the names in the code of a program stand for, when it has these functions and symbols. -/
def roles (p : Program) (fs : List Rtl.Function) (s : Symbols) : Roles where
  code n := n ∈ fs.map Rtl.Function.name ∨ n ∈ runtime ∨ p.UserPrim n ∨
    ∃ id, p.nameable.called id ∧ s.names.lookup id = some n
  data n := p.Variable n ∨ (∃ id, p.nameable.memory id ∧ s.names.lookup id = some n) ∨
    (n ∉ fs.map Rtl.Function.name ∧ ∃ id, s.codeNames.lookup id = some n)

variable {p : Program}

theorem mem_outside_of_variable {n : String} (h : p.Variable n) : n ∈ p.outside := by
  obtain ⟨id, hid, d, e, hd, hbody, himpl, rfl⟩ := h
  refine List.mem_flatMap.mpr ⟨id, hid, ?_⟩
  rw [hd, Option.map_some, Option.getD_some, hbody, outsideNames, himpl]
  exact .head _

theorem ownName_of_mem_runtime {n : String} (h : n ∈ runtime) : OwnName n := by
  simp only [runtime, List.mem_cons, List.not_mem_nil, or_false] at h
  obtain rfl | rfl | rfl := h
  exacts [.alloc, .abort, .print]

theorem follows_of_mentions {fs : List Rtl.Function} {s : Symbols} {i : Instr}
    (h : i.Mentions p.nameable s) : i.Follows (p.roles fs s) (fs.map Rtl.Function.name) := by
  cases i with
  | call fn =>
      cases fn with
      | symbol name => exact .inr (.inr h)
      | reg => trivial
  | tailcall fn =>
      cases fn with
      | symbol name => exact .inr (.inr (.inr h))
      | reg => trivial
  | builtin name => exact .inr (.inl (h ▸ .tail _ (.tail _ (.head _))))
  | op o =>
      cases o with
      | addressOf name offset =>
          obtain ⟨id, -, hn⟩ := h
          by_cases hown : name ∈ fs.map Rtl.Function.name
          · exact .inl hown
          · exact .inr (.inr (.inr ⟨hown, id, hn⟩))
      | _ => trivial
  | load _ a | store _ a =>
      cases a with
      | global name offset => exact h.imp_right .inl
      | indexed => trivial
  | nop | alloc | branch | jump | ret | abort => trivial

/-- The routines that code needs are those that are found outside. -/
theorem mem_runtime_of_mentions {u : Uses} {s : Symbols} {i : Instr} {name : String}
    (h : i.Mentions u s) (hi : i.routine? = some name) : name ∈ runtime := by
  cases i with
  | alloc =>
      cases hi
      exact .head _
  | abort =>
      cases hi
      exact .tail _ (.head _)
  | builtin n =>
      cases hi
      cases (show name = "printWord" from h)
      exact .tail _ (.tail _ (.head _))
  | nop | op | load | store | call | tailcall | branch | jump | ret => cases hi

section Roles

variable {size : Int} {chunk : Chunk} {taken : List String} {done : List DefnId} {o : Output}
  (hnames : p.NamesApart) (howned : o.Owned (p.setting size chunk) p.outside taken done)
  (h : o.Spells (p.setting size chunk) p.nameable p.outside done)

include hnames h

theorem not_own_of_used {n : String} (hn : n ∈ o.symbols.used) (hout : n ∉ p.outside) : ¬ OwnName n := by
  refine h.formed.not_own (fun id hid => hnames.defns id ?_) hn hout
  rcases hid with hid | hid | hid
  exacts [hid.1, hid.1, hid]

include howned

/-- Functions have names that are in use, and none of them is from outside or of the module. -/
theorem not_own_of_function {f : Rtl.Function} (hf : f ∈ o.functions) : ¬ OwnName f.name :=
  not_own_of_used hnames h (howned.used hf) (h.free f hf)

/-- No variable, no memory of a definition and no code of a closure has a name that the module has. -/
theorem not_own_of_data {n : String} (hn : (p.roles o.functions o.symbols).data n) : ¬ OwnName n := by
  have hout {n : String} (hn : n ∉ taken) : n ∉ p.outside :=
    fun hmem => hn (howned.mem_taken.mpr (.inl hmem))
  rcases hn with hn | ⟨id, -, hn⟩ | ⟨-, id, hn⟩
  · exact (hnames.outer n hn).1
  · obtain ⟨hused, hn⟩ := howned.symbols.names hn
    exact not_own_of_used hnames h hused (hout hn)
  · obtain ⟨hused, hn⟩ := howned.symbols.codes hn
    exact not_own_of_used hnames h hused (hout hn)

/-- A function and what stands in memory have different names: symbols are different, those of functions
are not from outside, and no definition is called and read. -/
theorem not_data_of_code {n : String} (hcode : (p.roles o.functions o.symbols).code n) :
    ¬ (p.roles o.functions o.symbols).data n := by
  have hsound := howned.symbols
  have hout {n : String} (hn : n ∈ p.outside) : n ∈ taken := howned.mem_taken.mpr (.inl hn)
  have hcalled {id i : DefnId} (hid : p.nameable.called id) (hn : o.symbols.names.lookup id = some n)
      (hi : p.nameable.memory i) (hn' : o.symbols.names.lookup i = some n) : False := by
    obtain ⟨b, hb⟩ := hid.2
    exact hi.2 b (hsound.names_inj hn hn' ▸ hb)
  rcases hcode with hmem | hruntime | hprim | ⟨id, hid, hn⟩
  · obtain ⟨f, hf, rfl⟩ := List.mem_map.mp hmem
    rintro (hvar | ⟨i, hi, hn⟩ | ⟨hfree, -⟩)
    · exact h.free f hf (mem_outside_of_variable hvar)
    · rcases h.owners f hf with hinit | ⟨id, hid, hn'⟩ | ⟨id, hn'⟩
      · exact (hsound.names hn).2 (howned.mem_taken.mpr (.inr hinit))
      · exact hcalled hid hn' hi hn
      · exact hsound.apart hn hn'
    · exact hfree hmem
  · exact fun hdata => not_own_of_data hnames howned h hdata (ownName_of_mem_runtime hruntime)
  · rintro (hvar | ⟨i, -, hn⟩ | ⟨-, i, hn⟩)
    · exact (hnames.outer n hvar).2 hprim
    · exact (hsound.names hn).2 (hout (mem_outside hprim))
    · exact (hsound.codes hn).2 (hout (mem_outside hprim))
  · rintro (hvar | ⟨i, hi, hn'⟩ | ⟨-, i, hn'⟩)
    · exact (hsound.names hn).2 (hout (mem_outside_of_variable hvar))
    · exact hcalled hid hn hi hn'
    · exact hsound.apart hn hn'

theorem roles_apart : (p.roles o.functions o.symbols).Apart := by
  have hnot {n : String} (hn : OwnName n) (hruntime : n ∉ runtime) (hprim : ¬ p.UserPrim n) :
      ¬ (p.roles o.functions o.symbols).code n := by
    rintro (hmem | hmem | hmem | ⟨id, -, hid⟩)
    · obtain ⟨f, hf, rfl⟩ := List.mem_map.mp hmem
      exact not_own_of_function hnames howned h hf hn
    · exact hruntime hmem
    · exact hprim hmem
    · obtain ⟨hused, hfree⟩ := howned.symbols.names hid
      exact not_own_of_used hnames h hused (fun hout => hfree (howned.mem_taken.mpr (.inl hout))) hn
  have htext (k : Nat) : textName k ∉ runtime := by
    have hfirst : ∀ n ∈ runtime, n.toList.head? ≠ some '.' := by
      simp only [runtime, List.forall_mem_cons]
      decide
    exact fun hmem => hfirst _ hmem (head?_textName k)
  constructor
  · exact not_data_of_code hnames howned h
  · exact fun k => ⟨hnot (.text k) (htext k) fun hprim => (hnames.prims _ hprim).2 k rfl,
      fun hdata => not_own_of_data hnames howned h hdata (.text k)⟩
  · exact ⟨hnot .init (by decide) fun hprim => (hnames.prims _ hprim).1 rfl,
      fun hdata => not_own_of_data hnames howned h hdata .init⟩
  · exact .inr (.inl (.head _))
  · exact .inr (.inl (.tail _ (.head _)))

/-- The code of a program names what it may name, by symbols that have these roles. -/
theorem roles_follow : Rtl.Program.Follows ⟨size, o.globals, o.layouts, o.functions⟩
    (p.roles o.functions o.symbols) where
  globals g hg := by
    obtain ⟨id, -, hid, hn⟩ := h.globals g hg
    exact .inr (.inl ⟨id, hid, hn⟩)
  globalNames := h.globalNames
  functions f hf := .inl (List.mem_map_of_mem hf)
  functionNames := howned.names
  code f hf q hq := follows_of_mentions (h.code f hf q hq)
  routines f hf q hq name hroutine hmem := by
    obtain ⟨f', hf', rfl⟩ := List.mem_map.mp hmem
    exact not_own_of_function hnames howned h hf'
      (ownName_of_mem_runtime (mem_runtime_of_mentions (h.code f hf q hq) hroutine))

end Roles

/-- The symbols of the module of a program are all different, and what it calls for memory, to stop and to
print is found outside: the module has a function for each function of the register transfer program, with
a block for each of its instructions, and the block of an instruction that needs a routine calls a function
of that name without blocks, once, and nothing else. -/
theorem toLlvm_symbols (hp : p.Direct) (hvalues : p.ReadsValues) (hnames : p.NamesApart) {size : Int}
    {out : Rtl.Program} {m : Module} (hout : p.toRtl size = .ok out) (hm : out.toLlvm = .ok m) :
    m.symbols.Nodup ∧ ∀ f ∈ out.functions, m.Holds f := by
  obtain ⟨chunk, o, -, ho, rfl⟩ := toRtl_output hout
  obtain ⟨taken, done, howned, hspells⟩ := output_spells hp hvalues ho
  exact Rtl.Program.symbols_nodup_and_holds (roles_apart hnames howned hspells)
    (roles_follow hnames howned hspells) hm

/-! ### Examples -/

/-- Is a name one that a module has of its own? Names that start like that of a text count as well. -/
def isOwnName (n : String) : Bool := n ∈ initRoutine :: runtime || n.toList.head? = some '.'

theorem isOwnName_of {n : String} (h : OwnName n) : isOwnName n = true := by
  cases h with
  | text k => rw [isOwnName, head?_textName, decide_eq_true rfl, Bool.or_true]
  | alloc | abort | print | init => decide

/-- Does nothing have a name of the module, and is there no external? -/
def hasPlainNames (p : Program) : Bool :=
  (p.reachable.all fun id => !isOwnName (Symbols.baseName p id) &&
    match (p.defns[id]?).map Defn.body with
    | some (.external _) => false
    | _ => true) && p.outside.all fun n => !isOwnName n

theorem namesApart_of_plain (h : p.hasPlainNames = true) : p.NamesApart := by
  rw [hasPlainNames, Bool.and_eq_true, List.all_eq_true, List.all_eq_true] at h
  obtain ⟨hdefns, houtside⟩ := h
  have hprim {n : String} (hn : p.UserPrim n) : ¬ OwnName n := fun hown => by
    have hplain := houtside n (mem_outside hn)
    rw [isOwnName_of hown] at hplain
    cases hplain
  refine ⟨fun id hid hown => ?_, fun n hn => ?_, fun n hn => ⟨?_, fun k => ?_⟩⟩
  · have hplain := (Bool.and_eq_true_iff.mp (hdefns id hid)).1
    rw [isOwnName_of hown] at hplain
    cases hplain
  · obtain ⟨id, hid, d, e, hd, hbody, -⟩ := hn
    have hplain := (Bool.and_eq_true_iff.mp (hdefns id hid)).2
    rw [hd, Option.map_some, hbody] at hplain
    cases hplain
  · rintro rfl
    exact hprim hn .init
  · rintro rfl
    exact hprim hn (.text k)

/-- Is no value read from a block? -/
def readsNoBlock (p : Program) : Bool :=
  p.reachable.all fun id => ((p.defns[id]?).map fun d =>
    d.body.valueRefs.all fun r => (p.block? r).isNone).getD true

theorem readsValues_of_check (h : p.readsNoBlock = true) : p.ReadsValues := by
  intro id hid d hd r hr b hb
  have hread := List.all_eq_true.mp h id hid
  rw [hd, Option.map_some, Option.getD_some, List.all_eq_true] at hread
  have hnone := hread r hr
  obtain ⟨e, he, hbody⟩ := exists_of_block hb
  rw [block?, he, Option.map_some, hbody] at hnone
  cases hnone

/-- A text with an entrypoint that prints, calls a primitive, divides and allocates. -/
def busyText : String :=
  "types:\n- name: Box\n  cfuns:\n  - name: B\n    fields: [Word]\nprims:\n- name: probe\n" ++
  "  type: \"[Word] >>= [Word]\"\ntops:\n- names: [t]\n  types: [Word]\n  tail:\n    return: [7]\n" ++
  "blocks:\n- name: main\n  type: \"[Word] >>= [Box]\"\n  params: [n]\n  code:\n" ++
  "  - bind: []\n    prim: printWord\n    args: [n]\n" ++
  "  - bind: [k]\n    prim: probe\n    args: [n]\n" ++
  "  - bind: [q]\n    prim: div\n    args: [t, k]\n  - data: B\n    args: [q]\n"

/-- Does a program have a module, with code that allocates, stops and prints? -/
def callsRoutines (q : Program) : Bool :=
  match q.toRtl 64 with
  | .ok out =>
    out.toLlvm.isOk && runtime.all fun name =>
      out.functions.any fun f => f.code.any fun i => i.2.routine? = some name
  | .error _ => false

theorem toLlvm_symbols_busy : ∃ (q : Program) (out : Rtl.Program) (m : Module), q.Lowered 64 ∧ q.Linked ∧
    q.ReadsValues ∧ q.NamesApart ∧ q.toRtl 64 = .ok out ∧ out.toLlvm = .ok m ∧ m.symbols.Nodup ∧
    (∀ f ∈ out.functions, m.Holds f) ∧
    ∀ name ∈ runtime, ∃ f ∈ out.functions, ∃ i ∈ f.code, i.2.routine? = some name := by
  have hall : (lowered "busy" busyText ["main"] 64).any
      (fun q => q.hasPlainNames && q.readsNoBlock && q.callsRoutines) = true := by
    rw [lowered, Typing.accepted_eq _ busyText _ (toList_append_ofList (toList_append_ofList
      (toList_append_ofList (toList_append_ofList (toList_append_ofList String.toList_ofList)))))]
    decide +kernel
  obtain ⟨q, hq, hall⟩ := (Option.any_eq_true _ _).mp hall
  simp only [Bool.and_eq_true] at hall
  obtain ⟨⟨hplain, hread⟩, hcalls⟩ := hall
  have hq := lowered_spec hq
  have hvalues := readsValues_of_check hread
  have hnames := namesApart_of_plain hplain
  unfold callsRoutines at hcalls
  cases hout : q.toRtl 64 with
  | error e =>
      rw [hout] at hcalls
      cases hcalls
  | ok out =>
      rw [hout] at hcalls
      simp only [Bool.and_eq_true, List.all_eq_true, List.any_eq_true, decide_eq_true_eq] at hcalls
      obtain ⟨hok, hcalls⟩ := hcalls
      cases hm : out.toLlvm with
      | error e =>
          rw [hm] at hok
          cases hok
      | ok m =>
          obtain ⟨hnodup, hholds⟩ := toLlvm_symbols hq.linked.direct hvalues hnames hout hm
          exact ⟨q, out, m, hq, hq.linked, hvalues, hnames, hout, hm, hnodup, hholds, hcalls⟩

/-- A text with an entrypoint that has the name of the routine which stops the program, and a top-level
definition that has the name of the initialisation of all globals. -/
def routinesText : String :=
  "tops:\n- names: [mil_init]\n  types: [Word]\n  tail:\n    return: [7]\n" ++
  "blocks:\n- name: mil_abort\n  type: \"[Word] >>= [Word]\"\n  params: [n]\n  code:\n" ++
  "  - prim: div\n    args: [mil_init, n]\n"

/-- Is an operand a function that the module defines? -/
def isDefined (m : Module) (o : Operand) : Bool :=
  match o.ref with
  | .function i => (m.functions[i]?).any fun g => !g.blocks.isEmpty
  | _ => false

/-- Does the block of some instruction that stops the program call a function that the module defines? -/
def stopsByDefined (out : Rtl.Program) (m : Module) : Bool :=
  out.functions.any fun f => f.code.any fun q => decide (q.2.routine? = some abortRoutine) &&
    m.functions.toList.any fun g => decide (g.name = f.name) && g.blocks.any fun k =>
      decide (k.label = nodeLabel q.1) && (callees k.insts).any (isDefined m)

/-- Do symbols clash in the module of the optimised program, and does it stop by a call of its own? -/
def symbolsClash (q : Program) : Bool :=
  match q.optimize 64 .standard with
  | .error _ => false
  | .ok (_, q') =>
    match q'.toRtl 64 with
    | .error _ => false
    | .ok out =>
      match out.toLlvm with
      | .error _ => false
      | .ok m => decide (¬ m.symbols.Nodup) && stopsByDefined out m

/-- A definition that has the name of a routine is called in its place, and one that has the name of the
initialisation of all globals stands in the module beside it. -/
theorem toLlvm_symbols_clash : ∃ (q q' : Program) (rounds : Nat) (out : Rtl.Program) (m : Module),
    q.Lowered 64 ∧ q.optimize 64 .standard = .ok (rounds, q') ∧ q'.toRtl 64 = .ok out ∧
    out.toLlvm = .ok m ∧ ¬ m.symbols.Nodup ∧
    ∃ f ∈ out.functions, ∃ i ∈ f.code, i.2.routine? = some abortRoutine ∧
      ∃ g ∈ m.functions, g.name = f.name ∧ ∃ k ∈ g.blocks, k.label = nodeLabel i.1 ∧
        ∃ o ∈ callees k.insts, isDefined m o = true := by
  have hall : (lowered "clash" routinesText ["mil_abort"] 64).any symbolsClash = true := by
    rw [lowered, Typing.accepted_eq _ routinesText _
      (toList_append_ofList (toList_append_ofList String.toList_ofList))]
    decide +kernel
  obtain ⟨q, hq, hclash⟩ := (Option.any_eq_true _ _).mp hall
  unfold symbolsClash at hclash
  split at hclash
  · cases hclash
  split at hclash
  · cases hclash
  split at hclash
  · cases hclash
  rename_i rounds q' hopt _ out hout _ m hm
  simp only [stopsByDefined, Bool.and_eq_true, decide_eq_true_eq, List.any_eq_true,
    Array.mem_toList_iff] at hclash
  obtain ⟨hnodup, f, hf, i, hi, hroutine, g, hg, hname, k, hk, hlabel, o, ho, hdefined⟩ := hclash
  exact ⟨q, q', rounds, out, m, lowered_spec hq, hopt, hout, hm, hnodup, f, hf, i, hi, hroutine, g, hg,
    hname, k, hk, hlabel, o, ho, hdefined⟩

end Program

end Mil
