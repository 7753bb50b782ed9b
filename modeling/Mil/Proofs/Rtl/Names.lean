import Mil.Proofs.Rtl.Exports

/-!
What the names in a register transfer program stand for. The code calls blocks and primitives that the
program declares, points to the code of closures, and reads and writes the memory of top-level
definitions and of variables from outside; each stands under a symbol of its own, and no function stands
under the name of memory. Every symbol is a form of the name of a definition, or is made for the code of a
closure or for an initialiser.
-/

namespace Mil

/-- The definitions whose values a definition reads: by operands, or as its implementation. -/
def DefnBody.valueRefs : DefnBody → List DefnId
  | .external e => e.impl.toList
  | b => b.atoms.filterMap Atom.defn?

/-- No value is read from a block. -/
def Program.ReadsValues (p : Program) : Prop :=
  ∀ id ∈ p.reachable, ∀ d, p.defns[id]? = some d → ∀ r ∈ d.body.valueRefs, ∀ b, p.block r ≠ .ok b

/-- A variable from outside that the program can read. -/
def Program.Variable (p : Program) (name : String) : Prop :=
  ∃ id ∈ p.reachable, ∃ d e, p.defns[id]? = some d ∧ d.body = .external e ∧ e.impl = none ∧ e.ref = name

namespace Rtl

open BuildM

/-! ### Forms of symbols -/

namespace Symbols

/-- What a symbol is a form of: the name of one of some definitions, or a name that is made for the code
of a closure or for an initialiser. -/
inductive Base (p : Mil.Program) (P : DefnId → Prop) : String → Prop
  | defn {id : DefnId} (hid : P id) : Base p P (baseName p id)
  | code (name : String) : Base p P (name ++ "_code")
  | init (name : String) : Base p P ("init_" ++ name)

/-- Every symbol in use is from outside or the form of a base. -/
def Formed (p : Mil.Program) (P : DefnId → Prop) (outside : List String) (s : Symbols) : Prop :=
  ∀ n ∈ s.used, n ∈ outside ∨ ∃ base k, Base p P base ∧ n = numbered base k

section Formed

variable {p : Mil.Program} {P : DefnId → Prop} {outside : List String} {s s' : Symbols}

theorem Formed.reserve (h : s.Formed p P outside) {name : String} (hname : Base p P name) :
    (s.reserve name).2.Formed p P outside := by
  intro n hn
  rcases List.mem_cons.mp hn with rfl | hn
  · obtain ⟨k, hk, -⟩ := s.exists_available name
    exact .inr ⟨name, k, hname, hk⟩
  · exact h n hn

theorem Formed.ofDefn (h : s.Formed p P outside) {id : DefnId} (hid : P id) :
    (s.ofDefn p id).2.Formed p P outside := by
  unfold Symbols.ofDefn
  split
  · exact h
  · exact h.reserve (.defn hid)

theorem Formed.requests (h : s.Formed p P outside) (hs : s.Requests p P s') :
    s'.Formed p P outside := by
  induction hs with
  | refl => exact h
  | defn hid _ ih => exact ih (h.ofDefn hid)
  | code hid _ ih =>
      refine ih ?_
      unfold Symbols.ofCode
      split
      · exact h
      · exact (h.ofDefn hid).reserve (.code _)

end Formed

end Symbols

/-! ### One definition after the other -/

/-- What the functions and globals that were made so far stand for. A function stands under a name of its
own, that of a block, of the code of a closure or of an initialiser; a global under that of a definition
that is no block. -/
structure Output.Spells (cx : Setting) (u : Uses) (outside : List String) (done : List DefnId)
    (o : Output) : Prop where
  formed : o.symbols.Formed cx.program u.Named outside
  free : ∀ f ∈ o.functions, f.name ∉ outside
  owners : ∀ f ∈ o.functions, (∃ g ∈ o.globals, g.init = f.name) ∨
    (∃ id, u.called id ∧ o.symbols.names.lookup id = some f.name) ∨
    ∃ id, o.symbols.codeNames.lookup id = some f.name
  globals : ∀ g ∈ o.globals, ∃ id ∈ done, u.memory id ∧ o.symbols.names.lookup id = some g.name
  globalNames : (o.globals.map Global.name).Nodup
  code : ∀ f ∈ o.functions, ∀ q ∈ f.code, q.2.Mentions u o.symbols

/-- What is known of the definitions that are made functions: the sources name what may be named. -/
structure Uses.Fits (u : Uses) (cx : Setting) : Prop where
  closed : u.Closed cx.program
  blocks : ∀ {id d k}, id ∈ cx.program.reachable → cx.program.defns[id]? = some d →
    d.body = .block k → u.called id
  closures : ∀ {id d k}, id ∈ cx.program.reachable → cx.program.defns[id]? = some d →
    d.body = .closure k → u.coded id ∧ ∀ t ∈ k.tail, u.Tail cx.program t
  tops : ∀ {id d l}, id ∈ cx.program.reachable → cx.program.defns[id]? = some d → d.body = .top l →
    u.memory id ∧ ∀ t ∈ l.tail, u.Tail cx.program t

section Output

variable {cx : Setting} {u : Uses} {outside taken : List String} {done : List DefnId} {o o' : Output}
  {id : DefnId} {f : Function}

theorem Output.Spells.push (h : o.Spells cx u outside done) (hle : o.symbols.Le o'.symbols)
    (hformed : o'.symbols.Formed cx.program u.Named outside)
    (hfunctions : o'.functions = o.functions ++ [f]) (hglobals : o.globals ⊆ o'.globals)
    (hfree : f.name ∉ outside)
    (howner : (∃ g ∈ o'.globals, g.init = f.name) ∨
      (∃ id, u.called id ∧ o'.symbols.names.lookup id = some f.name) ∨
      ∃ id, o'.symbols.codeNames.lookup id = some f.name)
    (hnew : ∀ g ∈ o'.globals, g ∈ o.globals ∨ u.memory id ∧ o'.symbols.names.lookup id = some g.name)
    (hnames : (o'.globals.map Global.name).Nodup) (hcode : ∀ q ∈ f.code, q.2.Mentions u o'.symbols) :
    o'.Spells cx u outside (id :: done) := by
  have hmem {f' : Function} (hf : f' ∈ o'.functions) : f' ∈ o.functions ∨ f' = f := by
    rw [hfunctions] at hf
    exact (List.mem_append.mp hf).imp_right List.mem_singleton.mp
  refine ⟨hformed, fun f' hf => ?_, fun f' hf => ?_, fun g hg => ?_, hnames, fun f' hf => ?_⟩
  · rcases hmem hf with hf | rfl
    · exact h.free f' hf
    · exact hfree
  · rcases hmem hf with hf | rfl
    · refine (h.owners f' hf).imp (fun ⟨g, hg, hinit⟩ => ⟨g, hglobals hg, hinit⟩) (Or.imp ?_ ?_)
      · exact fun ⟨i, hi, hn⟩ => ⟨i, hi, hle.names hn⟩
      · exact fun ⟨i, hn⟩ => ⟨i, hle.codes hn⟩
    · exact howner
  · rcases hnew g hg with hg | ⟨hid, hn⟩
    · obtain ⟨i, hi, hmemory, hn⟩ := h.globals g hg
      exact ⟨i, .tail _ hi, hmemory, hle.names hn⟩
    · exact ⟨id, .head _, hid, hn⟩
  · rcases hmem hf with hf | rfl
    · exact fun q hq => (h.code f' hf q hq).mono hle
    · exact hcode

/-- Adding a definition keeps what is known. -/
theorem Output.Spells.addDefn (hu : u.Fits cx) (ho : o.Owned cx outside taken done)
    (h : o.Spells cx u outside done) (hid : id ∉ done) (hreach : id ∈ cx.program.reachable)
    (hadd : o.addDefn cx id = .ok o') : o'.Spells cx u outside (id :: done) := by
  have houtside {n : String} (hn : n ∈ outside) : n ∈ taken := ho.mem_taken.mpr (.inl hn)
  cases Output.adds_of_addDefn hadd with
  | @block d k f b hd hbody _ hmake heq =>
      subst heq
      have hcalled := hu.blocks hreach hd hbody
      have hasks := (asks_blockFunction hu.closed hcalled d k).of_new hmake
      obtain ⟨hname, -, hfinished⟩ := blockFunction_named hmake
      have hle := hasks.symbols.le
      exact h.push hle (h.formed.requests hasks.symbols) rfl (List.Subset.refl _)
        (fun hn => ((hle.sound ho.symbols).names hname).2 (houtside hn)) (.inr (.inl ⟨id, hcalled, hname⟩))
        (fun g hg => .inl hg) h.globalNames (hfinished.mentions hasks rfl)
  | @closure d k f l b hd hbody hmake heq =>
      subst heq
      obtain ⟨hcoded, htail⟩ := hu.closures hreach hd hbody
      have hasks := (asks_closureFunction hu.closed hcoded d htail).of_new hmake
      obtain ⟨hname, hfinished⟩ := closureFunction_named hmake
      have hle := hasks.symbols.le
      exact h.push hle (h.formed.requests hasks.symbols) rfl (List.Subset.refl _)
        (fun hn => ((hle.sound ho.symbols).codes hname).2 (houtside hn)) (.inr (.inr ⟨id, hname⟩))
        (fun g hg => .inl hg) h.globalNames (hfinished.mentions hasks rfl)
  | @top d l f g b hd hbody hmake heq =>
      subst heq
      obtain ⟨hmemory, htail⟩ := hu.tops hreach hd hbody
      obtain ⟨s₁, s₂, hbefore, hname, hreserve, hinit, hafter, hcode⟩ :=
        topFunction_named hu.closed hmemory htail hmake
      have hrest : s₁.Le b.symbols := by
        have hle := s₁.le_reserve ("init_" ++ g.name)
        rw [hreserve] at hle
        exact hle.trans hafter.le
      have hle := hbefore.le.trans hrest
      have hformed := (h.formed.requests hbefore).reserve (.init g.name)
      rw [hreserve] at hformed
      have hname := hrest.names hname
      have hfree : f.name ∉ s₁.used := by
        have hfound : s₁.available ("init_" ++ g.name) = f.name := congrArg Prod.fst hreserve
        exact hfound ▸ s₁.available_not_mem _
      refine h.push hle (hformed.requests hafter) rfl (List.subset_append_left _ _)
        (fun hn => hfree (hbefore.le.used (ho.symbols.reserved (houtside hn))))
        (.inl ⟨g, List.mem_append_right _ (.head _), hinit⟩) (fun g' hg' => ?_) ?_ hcode
      · refine (List.mem_append.mp hg').imp_right fun hg' => ?_
        rw [List.mem_singleton.mp hg']
        exact ⟨hmemory, hname⟩
      · rw [List.map_append]
        refine List.nodup_append.mpr ⟨h.globalNames, List.nodup_singleton _, fun n hn m hm heq => ?_⟩
        obtain ⟨g', hg', rfl⟩ := List.mem_map.mp hn
        rw [List.mem_singleton.mp hm] at heq
        obtain ⟨i, hi, -, hn⟩ := h.globals g' hg'
        have hs := hle.sound ho.symbols
        exact hid (hs.names_inj (heq ▸ hle.names hn) hname ▸ hi)
  | skip _ _ _ _ heq =>
      subst heq
      exact { h with globals := fun g hg => (h.globals g hg).imp fun i hi => ⟨.tail _ hi.1, hi.2⟩ }

theorem Output.spells_start (cx : Setting) (u : Uses) (outside : List String) :
    Output.Spells cx u outside [] ⟨⟨[], [], outside⟩, [], [], []⟩ :=
  ⟨fun _ hn => .inl hn, nofun, nofun, nofun, .nil, nofun⟩

end Output

end Rtl

/-! ### The names of a whole program -/

open Rtl

theorem Tail.mem_refs_of_atoms {t : Tail} {r : DefnId} (h : r ∈ t.atoms.filterMap Atom.defn?) : r ∈ t.refs :=
  List.mem_append_left _ h

/-- A reference of an operand is one of the references of its body. -/
theorem Code.mem_refs_of_atoms {c : Code} {r : DefnId} (h : r ∈ c.atoms.filterMap Atom.defn?) :
    r ∈ c.refs := by
  induction c with
  | bind vars t next ih =>
      rw [Code.atoms, List.filterMap_append] at h
      exact (List.mem_append.mp h).elim (fun h => List.mem_append_left _ (Tail.mem_refs_of_atoms h))
        fun h => List.mem_append_right _ (ih h)
  | done t => exact Tail.mem_refs_of_atoms h
  | branch cond t f =>
      obtain ⟨a, ha, har⟩ := List.mem_filterMap.mp h
      rcases List.mem_append.mp ha with ha | ha
      · rcases List.mem_cons.mp ha with rfl | ha
        · exact List.mem_append_left _ (List.mem_append_left _ (Option.mem_toList.mpr har))
        · exact List.mem_append_left _ (List.mem_append_right _
            (Tail.mem_refs_of_atoms (List.mem_filterMap.mpr ⟨a, ha, har⟩)))
      · exact List.mem_append_right _ (Tail.mem_refs_of_atoms (List.mem_filterMap.mpr ⟨a, ha, har⟩))
  | case scrut alts default =>
      obtain ⟨a, ha, har⟩ := List.mem_filterMap.mp h
      rcases List.mem_cons.mp ha with rfl | ha
      · exact List.mem_append_left _ (Option.mem_toList.mpr har)
      · obtain ⟨c, hc, ha⟩ := List.mem_flatMap.mp ha
        exact List.mem_append_right _ (List.mem_flatMap.mpr
          ⟨c, hc, Tail.mem_refs_of_atoms (List.mem_filterMap.mpr ⟨a, ha, har⟩)⟩)

theorem Tail.mem_refs_of_call {t : Tail} {c : BlockCall} (h : c ∈ t.call?.toList) : c.block ∈ t.refs := by
  cases t with
  | call c' =>
      rw [List.mem_singleton.mp h]
      exact List.mem_append_right _ (.head _)
  | ret | prim | alloc | data | enter | sel => cases h

/-- The blocks that a body calls are among its references. -/
theorem Code.mem_refs_of_calls {c : Code} {call : BlockCall} (h : call ∈ c.allCalls) :
    call.block ∈ c.refs := by
  have htarget (c : BlockCall) : c.block ∈ (Tail.call c).refs := Tail.mem_refs_of_call (.head _)
  induction c with
  | bind vars t next ih =>
      exact (List.mem_append.mp h).elim (fun h => List.mem_append_left _ (Tail.mem_refs_of_call h))
        fun h => List.mem_append_right _ (ih h)
  | done t => exact Tail.mem_refs_of_call h
  | branch cond t f =>
      rcases List.mem_cons.mp h with rfl | h
      · exact List.mem_append_left _ (List.mem_append_right _ (htarget _))
      · exact List.mem_append_right _ (List.mem_singleton.mp h ▸ htarget _)
  | case scrut alts default =>
      exact List.mem_append_right _ (List.mem_flatMap.mpr ⟨call, h, htarget _⟩)

/-- The blocks that a definition calls are among its references. -/
theorem DefnBody.mem_refs_of_calls {b : DefnBody} {call : BlockCall} (h : call ∈ b.calls) :
    call.block ∈ b.refs := by
  have hpart {α : Type} {x : Option α} {calls : α → List BlockCall} {refs : α → List DefnId}
      (hrefs : ∀ a, call ∈ calls a → call.block ∈ refs a) (h : call ∈ (x.map calls).getD []) :
      call.block ∈ (x.map refs).getD [] := by
    cases x with
    | none => cases h
    | some a => exact hrefs a h
  cases b with
  | block k => exact hpart (fun _ => Code.mem_refs_of_calls) h
  | closure k => exact hpart (fun _ => Tail.mem_refs_of_call) h
  | top l => exact hpart (fun _ => Tail.mem_refs_of_call) h
  | external e => cases h

namespace Program

variable {p : Program}

/-- What the code of a program may name: what can be reached, blocks as what is called and all else as
memory, and primitives and variables from outside. -/
def nameable (p : Program) : Uses where
  called id := id ∈ p.reachable ∧ ∃ b, p.block id = .ok b
  memory id := id ∈ p.reachable ∧ ∀ b, p.block id ≠ .ok b
  coded id := id ∈ p.reachable
  routine := p.UserPrim
  outer := p.Variable

section Nameable

variable (hp : p.Direct) (hvalues : p.ReadsValues) {id : DefnId} {d : Defn} (hid : id ∈ p.reachable)
  (hd : p.defns[id]? = some d)

include hp hvalues hid hd

/-- A value that a definition reads is that of a variable from outside or in memory. -/
theorem reads_of_reachable {r : DefnId} (href : r ∈ d.body.refs) (hr : r ∈ d.body.valueRefs) :
    p.nameable.Reads p r := by
  have hmemory {i : DefnId} (hreach : i ∈ p.reachable) (hi : ∀ b, p.block i ≠ .ok b) :
      p.nameable.memory (p.resolve i) := by
    rw [hp.resolve hreach]
    exact ⟨hreach, hi⟩
  have hreach := hp.refs hid hd r href
  intro d' hd'
  rw [hp.resolve hreach] at hd'
  split
  · rename_i e he
    split
    · rename_i himpl
      exact ⟨r, hreach, d', e, hd', he, himpl, rfl⟩
    · rename_i impl himpl
      have hmem : impl ∈ e.impl.toList := Option.mem_toList.mpr himpl
      refine hmemory (hp.refs hreach hd' impl ?_) (hvalues r hreach d' hd' impl ?_)
      · rw [he]
        exact hmem
      · rw [he]
        exact hmem
  · exact hmemory hreach (hvalues id hid d hd r hr)

theorem cover_of_reachable {as : List Atom} {calls : List BlockCall} {refs : List DefnId} {ts : List Tail}
    (hatoms : ∀ r ∈ as.filterMap Atom.defn?, r ∈ d.body.refs ∧ r ∈ d.body.valueRefs)
    (hcalls : ∀ c ∈ calls, c.block ∈ d.body.refs ∧ c ∈ d.body.calls) (hrefs : refs ⊆ d.body.refs)
    (htails : ts ⊆ d.body.tails) : p.nameable.Cover p as calls refs (ts.flatMap primNames) := by
  refine ⟨fun a ha => ?_, fun c hc => ?_, fun r hr => ?_, fun name hname => ?_⟩
  · cases a with
    | top r index site =>
        obtain ⟨href, hr⟩ := hatoms r (List.mem_filterMap.mpr ⟨_, ha, rfl⟩)
        exact reads_of_reachable hp hvalues hid hd href hr
    | temp | lit => trivial
  · obtain ⟨href, hc⟩ := hcalls c hc
    rw [hp.resolve (hp.refs hid hd _ href)]
    exact ⟨hp.refs hid hd _ href, hp.calls hid hd c hc⟩
  · have hreach := hp.refs hid hd r (hrefs hr)
    rw [hp.resolve hreach]
    exact hreach
  · obtain ⟨t, ht, hname⟩ := List.mem_flatMap.mp hname
    exact ⟨id, d, t, hid, hd, htails ht, hname⟩

/-- So with the tail of a closure or a top-level definition. -/
theorem tail_of_reachable {t : Tail} (hrefs : d.body.refs = t.refs) (hcalls : d.body.calls = t.call?.toList)
    (hvalueRefs : d.body.valueRefs = t.atoms.filterMap Atom.defn?) (htails : d.body.tails = [t]) :
    p.nameable.Tail p t := by
  have hcover : p.nameable.Cover p t.atoms t.call?.toList t.refs ([t].flatMap primNames) :=
    cover_of_reachable hp hvalues hid hd
      (fun r hr => ⟨hrefs ▸ Tail.mem_refs_of_atoms hr, hvalueRefs ▸ hr⟩)
      (fun c hc => ⟨hrefs ▸ Tail.mem_refs_of_call hc, hcalls ▸ hc⟩) (hrefs ▸ List.Subset.refl _)
      (htails ▸ List.Subset.refl _)
  simpa [Uses.Tail] using hcover

end Nameable

theorem nameable_fits (hp : p.Direct) (hvalues : p.ReadsValues) (size : Int) (chunk : Chunk) :
    p.nameable.Fits (p.setting size chunk) where
  closed := by
    rintro id b c ⟨hid, -⟩ hb hc
    obtain ⟨d, hd, hbody⟩ := exists_of_block hb
    refine cover_of_reachable hp hvalues hid hd (fun r hr => ?_) (fun call hcall => ?_) ?_ ?_
    · rw [hbody, DefnBody.refs, hc, DefnBody.valueRefs, DefnBody.atoms, hc]
      · exact ⟨Code.mem_refs_of_atoms hr, hr⟩
      · intro _ h
        cases h
    · rw [hbody, DefnBody.refs, DefnBody.calls, hc]
      exact ⟨Code.mem_refs_of_calls hcall, hcall⟩
    · rw [hbody, DefnBody.refs, hc]
      exact List.Subset.refl _
    · rw [hbody, DefnBody.tails, hc]
      exact List.Subset.refl _
  blocks hid hd hk := ⟨hid, _, block_eq hd hk⟩
  closures := by
    intro id d k hid hd hk
    refine ⟨hid, fun t ht => tail_of_reachable hp hvalues hid hd ?_ ?_ ?_ ?_⟩
    all_goals rw [hk]
    · rw [DefnBody.refs, ht]; rfl
    · rw [DefnBody.calls, ht]; rfl
    · rw [DefnBody.valueRefs, DefnBody.atoms, ht]
      · rfl
      · intro _ h
        cases h
    · rw [DefnBody.tails, ht]; rfl
  tops := by
    intro id d l hid hd hl
    refine ⟨⟨hid, fun b hb => ?_⟩, fun t ht => tail_of_reachable hp hvalues hid hd ?_ ?_ ?_ ?_⟩
    · obtain ⟨d', hd', hb⟩ := exists_of_block hb
      cases hd.symm.trans hd'
      cases hl.symm.trans hb
    all_goals rw [hl]
    · rw [DefnBody.refs, ht]; rfl
    · rw [DefnBody.calls, ht]; rfl
    · rw [DefnBody.valueRefs, DefnBody.atoms, ht]
      · rfl
      · intro _ h
        cases h
    · rw [DefnBody.tails, ht]; rfl

/-- What is known of the names when all definitions are done. -/
theorem output_spells (hp : p.Direct) (hvalues : p.ReadsValues) {size : Int} {chunk : Chunk} {o : Output}
    (h : p.output size chunk = .ok o) : ∃ taken done, o.Owned (p.setting size chunk) p.outside taken done ∧
      o.Spells (p.setting size chunk) p.nameable p.outside done := by
  obtain ⟨done, ⟨taken, howned, hspells⟩, -⟩ := output_induction
    (P := fun done o => ∃ taken, o.Owned (p.setting size chunk) p.outside taken done ∧
      o.Spells (p.setting size chunk) p.nameable p.outside done)
    ⟨_, Output.owned_start (p.setting size chunk) p.outside,
      Output.spells_start (p.setting size chunk) p.nameable p.outside⟩
    (fun hid hnew ⟨_, howned, h⟩ hadd => (howned.addDefn hnew hadd).imp fun _ howned' =>
      ⟨howned', h.addDefn (nameable_fits hp hvalues size chunk) howned hnew hid hadd⟩) h
  exact ⟨taken, done, howned, hspells⟩

end Program

end Mil
