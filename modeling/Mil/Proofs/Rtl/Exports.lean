import Mil.Proofs.Rep.Carry
import Mil.Proofs.Rtl.Requests
import Mil.Proofs.Rtl.WellFormed

/-!
The names of exported functions. The function of an entrypoint stands under the symbol of the
entrypoint, and a symbol is the first of the numbered forms of a name that is not in use. So an
entrypoint has its own name outside, unless something else had the name first.

None of this depends on types: it holds of every program that has a register transfer program.
-/

namespace Mil

namespace Rtl

/-! ### Where symbols come from -/

namespace Symbols

/-- Symbols that were not taken before are those of definitions and of the code of closures. The symbol
of a definition is a form of its name, and the forms before it are in use. -/
structure Named (p : Mil.Program) (taken : List String) (s : Symbols) : Prop where
  used : ∀ {n}, n ∈ s.used →
    n ∈ taken ∨ (∃ id, s.names.lookup id = some n) ∨ ∃ id, s.codeNames.lookup id = some n
  names : ∀ {id n}, s.names.lookup id = some n →
    ∃ k, n = numbered (baseName p id) k ∧ ∀ j < k, numbered (baseName p id) j ∈ s.used

section Named

variable {p : Mil.Program} {P : DefnId → Prop} {taken : List String} {s s' : Symbols} {id : DefnId}

/-- The first free form of a name. -/
theorem exists_available (s : Symbols) (name : String) :
    ∃ k, s.available name = numbered name k ∧ ∀ j < k, numbered name j ∈ s.used := by
  unfold available
  cases hfind : ((List.range (s.used.length + 1)).map (numbered name)).find? fun n => n ∉ s.used with
  | none => exact ⟨0, rfl, fun _ hj => absurd hj (Nat.not_lt_zero _)⟩
  | some found =>
      obtain ⟨-, k, hk, hfound, hbefore⟩ := List.find?_eq_some_iff_getElem.mp hfind
      refine ⟨k, ?_, fun j hj => ?_⟩
      · simpa using hfound.symm
      · simpa using hbefore j hj

theorem Named.ofDefn (h : s.Named p taken) (id : DefnId) : (s.ofDefn p id).2.Named p taken := by
  unfold Symbols.ofDefn
  split
  · exact h
  · rename_i hnone
    obtain ⟨k, hk, hbefore⟩ := s.exists_available (baseName p id)
    constructor
    · intro n hn
      rcases List.mem_cons.mp hn with rfl | hn
      · exact .inr (.inl ⟨id, (lookup_cons_ite id id _ _).trans (if_pos rfl)⟩)
      · exact (h.used hn).imp_right (Or.imp_left fun ⟨i, hi⟩ => ⟨i, lookup_cons_of_none hnone hi⟩)
    · intro i n hi
      rcases lookup_cons_eq_some hi with ⟨rfl, rfl⟩ | hi
      · exact ⟨k, hk, fun j hj => .tail _ (hbefore j hj)⟩
      · obtain ⟨m, hm, hforms⟩ := h.names hi
        exact ⟨m, hm, fun j hj => .tail _ (hforms j hj)⟩

theorem Named.ofCode (h : s.Named p taken) (id : DefnId) : (s.ofCode p id).2.Named p taken := by
  unfold Symbols.ofCode
  split
  · exact h
  · rename_i hnone
    have h' := h.ofDefn id
    rw [← s.codeNames_ofDefn p id] at hnone
    constructor
    · intro n hn
      rcases List.mem_cons.mp hn with rfl | hn
      · exact .inr (.inr ⟨id, (lookup_cons_ite id id _ _).trans (if_pos rfl)⟩)
      · exact (h'.used hn).imp_right (Or.imp_right fun ⟨i, hi⟩ => ⟨i, lookup_cons_of_none hnone hi⟩)
    · intro i n hi
      obtain ⟨m, hm, hforms⟩ := h'.names hi
      exact ⟨m, hm, fun j hj => .tail _ (hforms j hj)⟩

theorem Named.requests (h : s.Named p taken) (hs : s.Requests p P s') : s'.Named p taken := by
  induction hs with
  | refl => exact h
  | defn _ _ ih => exact ih (h.ofDefn _)
  | code _ _ ih => exact ih (h.ofCode _)

/-- A symbol that is made from a name is taken. -/
theorem Named.reserve (h : s.Named p taken) (name : String) :
    (s.reserve name).2.Named p ((s.reserve name).1 :: taken) where
  used hn := by
    rcases List.mem_cons.mp hn with rfl | hn
    · exact .inl (.head _)
    · exact (h.used hn).imp_left (.tail _)
  names hi := by
    obtain ⟨m, hm, hforms⟩ := h.names hi
    exact ⟨m, hm, fun j hj => .tail _ (hforms j hj)⟩

end Named

end Symbols

/-! ### Functions and their names -/

open BuildM

section Functions

variable {cx : Setting} {s : Symbols} {b' : Builder} {id : DefnId} {d : Defn} {f : Function}

theorem name_finish (raw : Function) : raw.removeDead.1.tunnel.name = raw.name :=
  (raw.like_removeDead.trans (Function.like_tunnel _)).name

theorem exported_finish (raw : Function) : raw.removeDead.1.tunnel.exported = raw.exported :=
  (raw.like_removeDead.trans (Function.like_tunnel _)).exported

/-- A function comes from the code of a construction. -/
def Function.FinishedFrom (f : Function) (code : Graph) : Prop :=
  ∃ raw : Function, raw.code = code ∧ f = raw.removeDead.1.tunnel

/-- Dead code and detours aside, a function has the code that was placed. -/
theorem Function.FinishedFrom.mentions {u : Uses} {b : Builder} (h : f.FinishedFrom b'.code)
    (hb : Extends u cx.program b b') (hnew : b.code = []) : ∀ q ∈ f.code, q.2.Mentions u b'.symbols := by
  obtain ⟨raw, hraw, rfl⟩ := h
  refine forall_code_finish (fun _ => trivial) (fun r _ h => h.mapSuccessors r) fun q hq => ?_
  refine (hb.code (hraw ▸ hq)).resolve_left fun hold => ?_
  rw [hnew] at hold
  cases hold

/-- The function of a block stands under the symbol of the block. -/
theorem blockFunction_named {k : Block} {b : Builder} (h : Builds cx (blockFunction id d k) b f b') :
    b'.symbols.names.lookup id = some f.name ∧ f.exported = d.entry ∧ f.FinishedFrom b'.code := by
  obtain ⟨params, b₁, -, h⟩ := Builds.bind_iff.mp h
  obtain ⟨entry, b₂, -, h⟩ := Builds.bind_iff.mp h
  obtain ⟨_, b₃, -, h⟩ := Builds.bind_iff.mp h
  obtain ⟨name, b₄, hname, h⟩ := Builds.bind_iff.mp h
  rw [Builds.read_bind] at h
  obtain ⟨rfl, rfl⟩ := finish_iff.mp h
  obtain ⟨rfl, rfl⟩ := Builds.symbol_iff.mp hname
  refine ⟨?_, exported_finish _, _, rfl, rfl⟩
  rw [name_finish]
  exact Symbols.lookup_ofDefn _ _ _

/-- The function of a closure stands under the symbol of its code. -/
theorem closureFunction_named {k : Closure} {l : Layout} {b : Builder}
    (h : Builds cx (closureFunction id d k) b (f, l) b') :
    b'.symbols.codeNames.lookup id = some f.name ∧ f.FinishedFrom b'.code := by
  unfold closureFunction at h
  rw [Builds.freshReg_bind] at h
  obtain ⟨args, b₁, -, h⟩ := Builds.bind_iff.mp h
  rw [Builds.freshNode_bind, Builds.startAt_bind] at h
  obtain ⟨_, b₂, -, h⟩ := Builds.bind_iff.mp h
  obtain ⟨_, b₃, -, h⟩ := Builds.bind_iff.mp h
  obtain ⟨_, b₄, -, h⟩ := Builds.bind_iff.mp h
  obtain ⟨name, b₅, hname, h⟩ := Builds.bind_iff.mp h
  rw [Builds.read_bind] at h
  dsimp only at h
  obtain ⟨f', b₆, hfinish, h⟩ := Builds.bind_iff.mp h
  obtain ⟨closure, b₇, hclosure, h⟩ := Builds.bind_iff.mp h
  obtain ⟨heq, rfl⟩ := Builds.pure_iff.mp h
  cases heq
  obtain ⟨rfl, rfl⟩ := finish_iff.mp hfinish
  obtain ⟨rfl, rfl⟩ := Builds.codeSymbol_iff.mp hname
  obtain ⟨-, rfl⟩ := Builds.symbol_iff.mp hclosure
  refine ⟨?_, _, rfl, rfl⟩
  rw [name_finish]
  exact (Symbols.le_ofDefn _ _ _).codes (Symbols.lookup_ofCode _ _ _)

theorem finish_named {init : String} {entry : Node} {g g' : Global} {b : Builder} (h : Builds cx (do
      drainAll
      return (← finish init [] 0 entry false, g')) b (f, g) b') :
    f.name = init ∧ g = g' ∧ f.FinishedFrom b'.code := by
  obtain ⟨_, F, -, h⟩ := Builds.bind_iff.mp h
  obtain ⟨f', b₁, hfinish, h⟩ := Builds.bind_iff.mp h
  obtain ⟨heq, rfl⟩ := Builds.pure_iff.mp h
  cases heq
  obtain ⟨rfl, rfl⟩ := finish_iff.mp hfinish
  exact ⟨name_finish _, rfl, _, rfl, rfl⟩

/-- The function of a top-level definition stands under a symbol that is made for it, and its global
knows the symbol. -/
theorem topFunction_named {u : Uses} (hclosed : u.Closed cx.program) (hid : u.memory id) {l : TopLevel}
    (hl : ∀ t ∈ l.tail, u.Tail cx.program t) {g : Global}
    (h : Builds cx (topFunction id l) (.new s) (f, g) b') :
    ∃ s₁ s₂, s.Requests cx.program u.Named s₁ ∧ s₁.names.lookup id = some g.name ∧
      s₁.reserve ("init_" ++ g.name) = (f.name, s₂) ∧ g.init = f.name ∧
      s₂.Requests cx.program u.Named b'.symbols ∧ ∀ q ∈ f.code, q.2.Mentions u b'.symbols := by
  unfold topFunction at h
  obtain ⟨name, b₁, hname, h⟩ := Builds.bind_iff.mp h
  obtain ⟨init, b₂, hinit, h⟩ := Builds.bind_iff.mp h
  obtain ⟨rfl, rfl⟩ := Builds.symbol_iff.mp hname
  rw [reserve, Builds.modifyGet_iff, Prod.mk.injEq] at hinit
  obtain ⟨rfl, rfl⟩ := hinit
  have hlookup := s.lookup_ofDefn cx.program id
  have hasks := (asks_topCode hclosed (.inr ⟨id, hid, (Symbols.le_reserve _ _).names hlookup⟩) hl
    _).of_new h
  have hnamed : f.FinishedFrom b'.code ∧ f.name = ((s.ofDefn cx.program id).2.reserve
      ("init_" ++ (s.ofDefn cx.program id).1)).1 ∧
      g = ⟨(s.ofDefn cx.program id).1, l.lhs.length, f.name⟩ := by
    rw [Builds.freshNode_bind, Builds.startAt_bind] at h
    obtain ⟨dests, b₁, -, h⟩ := Builds.bind_iff.mp h
    obtain ⟨_, b₂, -, h⟩ := Builds.bind_iff.mp h
    rw [Builds.isOpen_bind] at h
    split at h
    · obtain ⟨_, b₃, -, h⟩ := Builds.bind_iff.mp h
      obtain ⟨_, b₄, -, h⟩ := Builds.bind_iff.mp h
      obtain ⟨hf, rfl, hcode⟩ := finish_named h
      exact ⟨hcode, hf, hf ▸ rfl⟩
    · obtain ⟨hf, rfl, hcode⟩ := finish_named h
      exact ⟨hcode, hf, hf ▸ rfl⟩
  obtain ⟨hcode, hf, rfl⟩ := hnamed
  exact ⟨_, _, .defn (.inr (.inl hid)) .refl, hlookup, Prod.ext hf.symm rfl, rfl, hasks.symbols,
    hcode.mentions hasks rfl⟩

end Functions

/-! ### One definition after the other -/

/-- What is known of names after some definitions were added. The symbols `taken` are those from outside
and those of initialisers; every function stands under one of these or under a symbol of a definition
that is done, and the function of a block under the symbol of the block. -/
structure Output.Owned (cx : Setting) (outside taken : List String) (done : List DefnId) (o : Output) :
    Prop where
  mem_taken : ∀ {n}, n ∈ taken ↔ n ∈ outside ∨ ∃ g ∈ o.globals, g.init = n
  symbols : o.symbols.Sound taken
  named : o.symbols.Named cx.program taken
  names : (o.functions.map Function.name).Nodup
  owners : ∀ {f}, f ∈ o.functions → f.name ∈ taken ∨ ∃ id ∈ done,
    o.symbols.names.lookup id = some f.name ∨ o.symbols.codeNames.lookup id = some f.name
  blocks : ∀ {id d k}, id ∈ done → id ∈ cx.roots → cx.program.defns[id]? = some d →
    d.body = .block k → ∃ f ∈ o.functions, o.symbols.names.lookup id = some f.name ∧
      f.exported = d.entry

section Output

variable {cx : Setting} {outside taken taken' : List String} {done : List DefnId} {o o' : Output}
  {id : DefnId} {f : Function}

/-- A function that stands under a symbol of a new definition has a new name. -/
theorem Output.Owned.apart (h : o.Owned cx outside taken done) (hid : id ∉ done) {s : Symbols}
    (hle : o.symbols.Le s)
    (hname : s.names.lookup id = some f.name ∨ s.codeNames.lookup id = some f.name) {g : Function}
    (hg : g ∈ o.functions) : g.name ≠ f.name := by
  have hs := hle.sound h.symbols
  have hfree : f.name ∉ taken := hname.elim (fun hn => (hs.names hn).2) fun hn => (hs.codes hn).2
  intro heq
  rw [← heq] at hname hfree
  rcases h.owners hg with htaken | ⟨i, hi, hi' | hi'⟩
  · exact hfree htaken
  · have hi' := hle.names hi'
    rcases hname with hname | hname
    · exact hid (hs.names_inj hname hi' ▸ hi)
    · exact hs.apart hi' hname
  · have hi' := hle.codes hi'
    rcases hname with hname | hname
    · exact hs.apart hname hi'
    · exact hid (hs.codes_inj hname hi' ▸ hi)

theorem Output.Owned.used (h : o.Owned cx outside taken done) {g : Function} (hg : g ∈ o.functions) :
    g.name ∈ o.symbols.used := by
  rcases h.owners hg with htaken | ⟨i, -, hi | hi⟩
  · exact h.symbols.reserved htaken
  · exact (h.symbols.names hi).1
  · exact (h.symbols.codes hi).1

/-- One more function, under a new name. -/
theorem Output.Owned.push (h : o.Owned cx outside taken done) (hle : o.symbols.Le o'.symbols)
    (hsub : taken ⊆ taken') (htaken : ∀ {n}, n ∈ taken' ↔ n ∈ outside ∨ ∃ g ∈ o'.globals, g.init = n)
    (hsymbols : o'.symbols.Sound taken') (hnamed : o'.symbols.Named cx.program taken')
    (hfunctions : o'.functions = o.functions ++ [f])
    (howner : f.name ∈ taken' ∨ o'.symbols.names.lookup id = some f.name ∨
      o'.symbols.codeNames.lookup id = some f.name)
    (hnew : ∀ {g}, g ∈ o.functions → g.name ≠ f.name)
    (hblock : ∀ {d k}, cx.program.defns[id]? = some d → d.body = .block k →
      o'.symbols.names.lookup id = some f.name ∧ f.exported = d.entry) :
    o'.Owned cx outside taken' (id :: done) := by
  have hmem {g : Function} (hg : g ∈ o'.functions) : g ∈ o.functions ∨ g = f := by
    rw [hfunctions] at hg
    exact (List.mem_append.mp hg).imp_right List.mem_singleton.mp
  refine ⟨htaken, hsymbols, hnamed, ?_, fun {g} hg => ?_, fun {i d k} hi hroot hd hk => ?_⟩
  · rw [hfunctions, List.map_append]
    refine List.nodup_append.mpr ⟨h.names, List.nodup_singleton _, fun n hn m hm => ?_⟩
    obtain ⟨g, hg, rfl⟩ := List.mem_map.mp hn
    rw [List.mem_singleton.mp hm]
    exact hnew hg
  · rcases hmem hg with hg | rfl
    · rcases h.owners hg with hg | ⟨i, hi, hi'⟩
      · exact .inl (hsub hg)
      · exact .inr ⟨i, .tail _ hi, hi'.imp (fun hn => hle.names hn) fun hn => hle.codes hn⟩
    · exact howner.imp_right fun hn => ⟨id, .head _, hn⟩
  · rcases List.mem_cons.mp hi with rfl | hi
    · exact ⟨f, by simp [hfunctions], hblock hd hk⟩
    · obtain ⟨g, hg, hname, hexported⟩ := h.blocks hi hroot hd hk
      exact ⟨g, by simp [hfunctions, hg], hle.names hname, hexported⟩

/-- A definition that no function is made of. -/
theorem Output.Owned.skip (h : o.Owned cx outside taken done)
    (hroot : ∀ {d k}, cx.program.defns[id]? = some d → d.body = .block k → id ∉ cx.roots) :
    o.Owned cx outside taken (id :: done) where
  __ := h
  owners hf := (h.owners hf).imp_right fun ⟨i, hi, hi'⟩ => ⟨i, .tail _ hi, hi'⟩
  blocks hi hr hd hk := by
    rcases List.mem_cons.mp hi with rfl | hi
    · exact absurd hr (hroot hd hk)
    · exact h.blocks hi hr hd hk

/-- Adding a definition keeps what is known of names. -/
theorem Output.Owned.addDefn (h : o.Owned cx outside taken done) (hid : id ∉ done)
    (hadd : o.addDefn cx id = .ok o') : ∃ taken', o'.Owned cx outside taken' (id :: done) := by
  have hclosed : Uses.any.Closed cx.program := Uses.closed_any _
  cases Output.adds_of_addDefn hadd with
  | @block d k f b hd hbody _ hmake ho =>
      subst ho
      have hrequests := ((asks_blockFunction hclosed trivial d k).of_new hmake).symbols
      obtain ⟨hname, hexported, -⟩ := blockFunction_named hmake
      have hle := hrequests.le
      refine ⟨taken, h.push hle (List.Subset.refl _) h.mem_taken (hle.sound h.symbols)
        (h.named.requests hrequests) rfl (.inr (.inl hname)) (h.apart hid hle (.inl hname)) ?_⟩
      intro d' k' hd' _
      cases hd.symm.trans hd'
      exact ⟨hname, hexported⟩
  | @closure d k f l b hd hbody hmake ho =>
      subst ho
      have hrequests := ((asks_closureFunction hclosed trivial d
        fun _ _ => Uses.cover_any _ _ _ _ _).of_new hmake).symbols
      obtain ⟨hname, -⟩ := closureFunction_named hmake
      have hle := hrequests.le
      refine ⟨taken, h.push hle (List.Subset.refl _) h.mem_taken (hle.sound h.symbols)
        (h.named.requests hrequests) rfl (.inr (.inr hname)) (h.apart hid hle (.inr hname)) ?_⟩
      intro d' k' hd' hk'
      cases hd.symm.trans hd'
      cases hbody.symm.trans hk'
  | @top d l f g b hd hbody hmake ho =>
      subst ho
      obtain ⟨s₁, s₂, hbefore, -, hreserve, hinit, hafter, -⟩ := topFunction_named hclosed trivial
        (fun _ _ => Uses.cover_any _ _ _ _ _) hmake
      have hsound := (hbefore.le.sound h.symbols).reserve ("init_" ++ g.name)
      have hnamed := (h.named.requests hbefore).reserve ("init_" ++ g.name)
      have hle := s₁.le_reserve ("init_" ++ g.name)
      have hfree : f.name ∉ s₁.used := by
        have hfound : s₁.available ("init_" ++ g.name) = f.name := congrArg Prod.fst hreserve
        exact hfound ▸ s₁.available_not_mem _
      rw [hreserve] at hsound hnamed hle
      refine ⟨f.name :: taken, h.push (hbefore.le.trans (hle.trans hafter.le)) (List.subset_cons_self _ _)
        (fun {n} => ?_) (hafter.le.sound hsound) (hnamed.requests hafter) rfl (.inl (.head _))
        (fun hg heq => hfree (heq ▸ hbefore.le.used (h.used hg))) ?_⟩
      · rw [List.mem_cons, h.mem_taken]
        constructor
        · rintro (rfl | hn | ⟨g', hg', rfl⟩)
          · exact .inr ⟨g, by simp, hinit⟩
          · exact .inl hn
          · exact .inr ⟨g', by simp [hg'], rfl⟩
        · rintro (hn | ⟨g', hg', rfl⟩)
          · exact .inr (.inl hn)
          · rcases List.mem_append.mp hg' with hg' | hg'
            · exact .inr (.inr ⟨g', hg', rfl⟩)
            · cases List.mem_singleton.mp hg'
              exact .inl hinit
      · intro d' k' hd' hk'
        cases hd.symm.trans hd'
        cases hbody.symm.trans hk'
  | skip hd hblock _ _ ho =>
      subst ho
      refine ⟨taken, h.skip fun hd' hk => ?_⟩
      cases hd.symm.trans hd'
      exact hblock hk

/-- Nothing is known at first but the names from outside. -/
theorem Output.owned_start (cx : Setting) (outside : List String) :
    Output.Owned cx outside outside [] ⟨⟨[], [], outside⟩, [], [], []⟩ where
  mem_taken := by simp
  symbols := (Output.sound_start cx outside).symbols
  named := ⟨.inl, nofun⟩
  names := .nil
  owners := nofun
  blocks := nofun

end Output

end Rtl

open Rtl

namespace Program

variable {p : Program} {size : Int} {out : Rtl.Program}

/-- What is known of names when all definitions are done. -/
theorem output_owned {chunk : Chunk} {o : Output} (h : p.output size chunk = .ok o) :
    ∃ taken done, o.Owned (p.setting size chunk) p.outside taken done ∧
      ∀ id, id ∈ done ↔ id ∈ p.reachable := by
  obtain ⟨done, ⟨taken, howned⟩, hdone⟩ := output_induction
    (P := fun done o => ∃ taken, o.Owned (p.setting size chunk) p.outside taken done)
    ⟨_, Output.owned_start (p.setting size chunk) p.outside⟩
    (fun _ hnew ⟨_, h⟩ => h.addDefn hnew) h
  exact ⟨taken, done, howned, hdone⟩

/-- The symbols that are known when all definitions are done. -/
def symbols? (p : Program) (size : Int) : Option Symbols :=
  (Chunk.ofBytes? (size.tdiv 8)).bind fun chunk => (p.output size chunk).toOption.map Output.symbols

/-- Something else than the definition has the name: it is a name from outside, or the symbol of another
definition, of the code of a closure, or of an initialiser. -/
def InUse (p : Program) (s : Symbols) (out : Rtl.Program) (id : DefnId) (name : String) : Prop :=
  name ∈ p.outside ∨ (∃ g ∈ out.globals, g.init = name) ∨
    (∃ i, i ≠ id ∧ s.names.lookup i = some name) ∨ ∃ i, s.codeNames.lookup i = some name

/-- An entrypoint becomes one exported function. Its name is that of the entrypoint if nothing else has
that name; otherwise it is the first of the numbered forms of the name that nothing else has. -/
theorem toRtl_exports (h : p.toRtl size = .ok out) {id : DefnId} {d : Defn} {b : Block}
    (hid : id ∈ p.reachable) (hd : p.defns[id]? = some d) (hb : d.body = .block b)
    (hentry : d.entry = true) :
    ∃ s, p.symbols? size = some s ∧ (out.functions.map Function.name).Nodup ∧
      ∃ f ∈ out.functions, s.names.lookup id = some f.name ∧ f.exported = true ∧
        ¬ p.InUse s out id f.name ∧
        ∃ k, f.name = Symbols.numbered d.name k ∧
          ∀ j < k, p.InUse s out id (Symbols.numbered d.name j) := by
  obtain ⟨chunk, o, hchunk, ho, rfl⟩ := toRtl_output h
  obtain ⟨taken, done, howned, hdone⟩ := output_owned ho
  have hroot := Roots.mem_ofDefns_of_entry hid hd hb hentry
  obtain ⟨f, hf, hname, hexported⟩ := howned.blocks ((hdone id).mpr hid) hroot hd hb
  have hbase : Symbols.baseName p id = d.name := by simp [Symbols.baseName, nameOf, hd, hb]
  obtain ⟨k, hk, hforms⟩ := howned.named.names hname
  rw [show Symbols.baseName (p.setting size chunk).program id = d.name from hbase] at hk hforms
  refine ⟨o.symbols, ?_, howned.names, f, hf, hname, hexported.trans hentry, ?_, k, hk, fun j hj => ?_⟩
  · rw [symbols?, hchunk, Option.bind_some, ho]
    rfl
  · have hfree := (howned.symbols.names hname).2
    rintro (hout | hinit | ⟨i, hne, hi⟩ | ⟨i, hi⟩)
    · exact hfree (howned.mem_taken.mpr (.inl hout))
    · exact hfree (howned.mem_taken.mpr (.inr hinit))
    · exact hne (howned.symbols.names_inj hi hname)
    · exact howned.symbols.apart hname hi
  · rcases howned.named.used (hforms j hj) with htaken | ⟨i, hi⟩ | hcode
    · exact (howned.mem_taken.mp htaken).imp_right .inl
    · refine .inr (.inr (.inl ⟨i, ?_, hi⟩))
      rintro rfl
      have heq := Option.some.inj (hname.symm.trans hi)
      exact hj.ne' (Symbols.numbered_injective _ (hk.symm.trans heq))
    · exact .inr (.inr (.inr hcode))

/-- A text with an entrypoint whose name is the name of the copy of a polymorphic closure. -/
def clashText : String :=
  "closures:\n- name: k\n  stored: [x]\n  args: []\n  tail: \x7breturn: [x]\x7d\nblocks:\n" ++
  "- name: k1\n  type: \"[Word] >>= [Word]\"\n  params: [n]\n  code:\n" ++
  "  - bind: [f]\n    alloc: k\n    args: [n]\n  - enter: f\n"

/-- Is the first definition an entrypoint with the name `k1`, and is no function exported under that
name? -/
def exportsRenamed (q : Program) : Bool :=
  match q.toRtl 64, q.defns[0]? with
  | .ok out, some d =>
    d.entry && (q.block? 0).isSome && decide (0 ∈ q.reachable ∧ d.name = "k1") &&
      out.functions.all fun f => !(f.exported && decide (f.name = "k1"))
  | _, _ => false

theorem exists_exportsRenamed : ∃ (q : Program) (out : Rtl.Program) (d : Defn) (b : Block),
    q.Lowered 64 ∧ q.toRtl 64 = .ok out ∧ 0 ∈ q.reachable ∧ q.defns[0]? = some d ∧
    d.body = .block b ∧ d.entry = true ∧ d.name = "k1" ∧
    ∀ f ∈ out.functions, f.exported = true → f.name ≠ "k1" := by
  have hall : (lowered "clash" clashText ["k1"] 64).any exportsRenamed = true := by
    rw [lowered, Typing.accepted_eq _ clashText _
      (toList_append_ofList (toList_append_ofList String.toList_ofList))]
    decide +kernel
  obtain ⟨q, hq, hall⟩ := (Option.any_eq_true _ _).mp hall
  unfold exportsRenamed at hall
  split at hall
  · rename_i out d hout hd
    simp only [Bool.and_eq_true, decide_eq_true_eq, List.all_eq_true] at hall
    obtain ⟨⟨⟨hentry, hblock⟩, hid, hname⟩, hrenamed⟩ := hall
    obtain ⟨b, hb⟩ := Option.isSome_iff_exists.mp hblock
    obtain ⟨d', hd', hb⟩ := Source.exists_of_block? hb
    cases hd.symm.trans hd'
    refine ⟨q, out, d, b, lowered_spec hq, hout, hid, hd, hb, hentry, hname, fun f hf hexported => ?_⟩
    simpa [hexported] using hrenamed f hf
  · cases hall

theorem toRtl_exports_clash : ∃ (q : Program) (out : Rtl.Program) (s : Symbols) (f : Rtl.Function),
    q.Lowered 64 ∧ q.toRtl 64 = .ok out ∧
    q.symbols? 64 = some s ∧ f ∈ out.functions ∧ f.exported = true ∧
    ∃ k, 0 < k ∧ f.name = Symbols.numbered "k1" k ∧
      ∀ j < k, q.InUse s out 0 (Symbols.numbered "k1" j) := by
  obtain ⟨q, out, d, b, hq, hout, hid, hd, hb, hentry, hname, hrenamed⟩ := exists_exportsRenamed
  obtain ⟨s, hs, -, f, hf, -, hexported, -, k, hk, hforms⟩ := toRtl_exports hout hid hd hb hentry
  rw [hname] at hk hforms
  refine ⟨q, out, s, f, hq, hout, hs, hf, hexported, k, Nat.pos_of_ne_zero ?_, hk, hforms⟩
  rintro rfl
  exact hrenamed f hf hexported hk

/-- An entrypoint that has lost its name to the copy of a polymorphic closure. -/
theorem toRtl_renames_entry : ∃ (q : Program) (out : Rtl.Program) (d : Defn) (b : Block),
    q.Lowered 64 ∧ q.toRtl 64 = .ok out ∧ 0 ∈ q.reachable ∧ q.defns[0]? = some d ∧
    d.body = .block b ∧ d.entry = true ∧
    ¬ ∃ f ∈ out.functions, f.exported = true ∧ f.name = d.name := by
  obtain ⟨q, out, d, b, hq, hout, hid, hd, hb, hentry, hname, hrenamed⟩ := exists_exportsRenamed
  refine ⟨q, out, d, b, hq, hout, hid, hd, hb, hentry, ?_⟩
  rintro ⟨f, hf, hexported, hf'⟩
  exact hrenamed f hf hexported (hf'.trans hname)

end Program

end Mil
