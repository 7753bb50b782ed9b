import Mil.Proofs.Program.Components
import Mil.Proofs.Rtl.Functions

/-!
The register transfer program of a word-level program is well formed. Every function starts at an
instruction and leads to instructions only, gives as many words as it says, and calls symbols that
belong to functions of fitting operands and results, or to primitives that the program declares. The
code that the record of a closure holds is a function of the record and the arguments. The function that
is emitted for a definition stands under its symbol.

Definitions are added one after the other; what is known of the functions so far stays true, since
symbols keep their meaning.
-/

namespace Mil.Rtl

open Typing BuildM

/-! ### The setting of a program -/

section Ready

variable {p : Mil.Program} {fields : FieldLayout} {id : DefnId} {d : Defn}

theorem call_reaches (hp : p.WordLevel fields) {c : BlockCall} {τ : Ty} (hreach : c.block ∈ p.reachable)
    (hcall : CallHas (p.wordContext fields) c τ) : p.resolve c.block ∈ p.reachable ∧
      ∃ d k, p.defns[p.resolve c.block]? = some d ∧ d.body = .block k := by
  rw [hp.resolve hreach]
  obtain ⟨d, k, -, hd, hk, -⟩ := hcall.fits hp hreach
  exact ⟨hreach, d, k, hd, hk⟩

theorem bound_reaches (hp : p.WordLevel fields) {c : Code} {τ : Ty}
    (hrefs : ∀ r ∈ c.refs, r ∈ p.reachable) (hc : CodeHas (p.wordContext fields) c τ) :
    ∀ v ∈ (Roots.bound c).map p.resolve, v ∈ p.reachable ∧
      ∃ d k, p.defns[v]? = some d ∧ d.body = .block k := by
  induction c with
  | bind vars t next ih =>
      cases hc with
      | bind ht hvars hnext =>
          have hrefs : (∀ r ∈ t.refs, r ∈ p.reachable) ∧ ∀ r ∈ next.refs, r ∈ p.reachable :=
            List.forall_mem_append.mp hrefs
          intro v hv
          cases t with
          | call c =>
              rcases List.mem_cons.mp hv with rfl | hv
              · cases ht with
                | call hcall =>
                    exact call_reaches hp (hrefs.1 _ (List.mem_append_right _ (.head _))) hcall
              · exact ih hrefs.2 hnext v hv
          | ret | prim | alloc | data | enter | sel => exact ih hrefs.2 hnext v hv
  | done | branch | case => exact fun v hv => nomatch hv

/-- The calls of a branch are typed, and refer to what the branch refers to. -/
theorem calls_have {Γ : Context} {c : Code} {τ : Ty} (hc : CodeHas Γ c τ) :
    ∀ call ∈ c.calls, CallHas Γ call τ ∧ call.block ∈ c.refs := by
  cases hc with
  | bind | done => exact fun _ h => nomatch h
  | branch _ ht hf =>
      intro call hcall
      rcases List.mem_cons.mp hcall with rfl | hcall
      · exact ⟨ht, by simp [Code.refs, Tail.refs, Tail.target?]⟩
      · rw [List.mem_singleton.mp hcall]
        exact ⟨hf, by simp [Code.refs, Tail.refs, Tail.target?]⟩
  | case _ halts hdefault =>
      intro call hcall
      refine ⟨?_, List.mem_append_right _
        (List.mem_flatMap.mpr ⟨call, hcall, List.mem_append_right _ (.head _)⟩)⟩
      rcases List.mem_append.mp hcall with hcall | hcall
      · obtain ⟨alt, halt, rfl⟩ := List.mem_map.mp hcall
        exact (halts alt halt).2
      · exact hdefault call (Option.mem_toList.mp hcall)

/-- A call of a branch refers to what the branch refers to, and reads what it reads. -/
theorem within_of_call {c : Code} {call : BlockCall} (h : call ∈ c.calls) :
    (∀ r ∈ (Tail.call call).refs, r ∈ c.refs) ∧ ∀ a ∈ call.args, a ∈ c.atoms := by
  cases c with
  | bind | done => cases h
  | branch cond t f =>
      have hcases : call = t ∨ call = f := by simpa [Code.calls] using h
      rcases hcases with rfl | rfl <;>
        exact ⟨fun r hr => by simp [Code.refs, hr], fun a ha => by simp [Code.atoms, ha]⟩
  | case scrut alts default =>
      exact ⟨fun r hr => List.mem_append_right _ (List.mem_flatMap.mpr ⟨call, h, hr⟩),
        fun a ha => .tail _ (List.mem_flatMap.mpr ⟨call, h, ha⟩)⟩

theorem CodeOk.call {cx : Setting} {c : Code} {ρs : List Ty} (h : CodeOk cx fields c ρs)
    {call : BlockCall} (hcall : call ∈ c.calls) : TailOk cx fields (.call call) ρs :=
  ⟨.call (calls_have h.typed call hcall).1, fun r hr => h.refs r ((within_of_call hcall).1 r hr),
    List.forall_mem_nil _⟩

theorem inScope_of_call {scope : List Temp} {c : Code} (h : c.Scoped scope) {call : BlockCall}
    (hcall : call ∈ c.calls) : InScope scope call.args := by
  have hscope : InScope scope c.atoms := by
    cases c with
    | bind | done => cases hcall
    | branch | case => exact h
  exact fun t ht => hscope t ((within_of_call hcall).2 _ ht)

theorem jumps_reach (hp : p.WordLevel fields) {c : Code} {τ : Ty}
    (hrefs : ∀ r ∈ c.refs, r ∈ p.reachable) (hc : CodeHas (p.wordContext fields) c τ) :
    ∀ v ∈ (Roots.jumps c).map p.resolve, v ∈ p.reachable ∧
      ∃ d k, p.defns[v]? = some d ∧ d.body = .block k := by
  have hcalls : ∀ v ∈ (c.calls.map BlockCall.block).map p.resolve, v ∈ p.reachable ∧
      ∃ d k, p.defns[v]? = some d ∧ d.body = .block k := by
    intro v hv
    obtain ⟨w, hw, rfl⟩ := List.mem_map.mp hv
    obtain ⟨call, hcall, rfl⟩ := List.mem_map.mp hw
    obtain ⟨htyped, href⟩ := calls_have hc call hcall
    exact call_reaches hp (hrefs _ href) htyped
  induction c with
  | bind vars t next ih =>
      cases hc with
      | bind _ _ hnext =>
          have hrefs := (List.forall_mem_append.mp hrefs).2
          refine ih hrefs hnext fun v hv => ?_
          obtain ⟨w, hw, rfl⟩ := List.mem_map.mp hv
          obtain ⟨call, hcall, rfl⟩ := List.mem_map.mp hw
          obtain ⟨htyped, href⟩ := calls_have hnext call hcall
          exact call_reaches hp (hrefs _ href) htyped
  | done t =>
      cases hc with
      | done ht =>
          cases ht with
          | call hcall =>
              intro v hv
              rw [List.mem_singleton.mp hv]
              exact call_reaches hp (hrefs _ (List.mem_append_right _ (.head _))) hcall
          | ret | prim | alloc | data | enter | sel => exact hcalls
  | branch | case => exact hcalls

theorem called_reaches (hp : p.WordLevel fields) {t : Tail} {τ : Ty}
    (hrefs : ∀ r ∈ t.refs, r ∈ p.reachable) (ht : TailHas (p.wordContext fields) t τ) :
    ∀ v ∈ (Roots.called (some t)).map p.resolve, v ∈ p.reachable ∧
      ∃ d k, p.defns[v]? = some d ∧ d.body = .block k := by
  cases ht with
  | call hcall =>
      intro v hv
      rw [List.mem_singleton.mp hv]
      exact call_reaches hp (hrefs _ (List.mem_append_right _ (.head _))) hcall
  | ret | prim | alloc | data | enter | sel => exact fun v hv => nomatch hv

/-- Functions are made of blocks that can be reached, and of all that must be functions. -/
theorem ready_ofDefns (hp : p.WordLevel fields) (size bytes : Int) (chunk : Chunk) :
    Setting.Ready ⟨p, Roots.ofDefns p p.reachable, size, bytes, chunk⟩ fields := by
  refine ⟨hp, fun {id} hid => ?_, fun hid => Roots.required_subset hid⟩
  refine Roots.ofDefns_of (P := fun v => v ∈ p.reachable ∧
    ∃ d k, p.defns[v]? = some d ∧ d.body = .block k) (fun i hi v hv => ?_) (fun i hi v hv => ?_) id hid
  · obtain ⟨d, hd⟩ := Program.exists_of_reachable hi
    have hon := hp.onWords hi hd
    have hreach := hp.reachable.2 hi hd
    unfold Roots.required at hv
    rw [hd] at hv
    dsimp only at hv
    cases hbody : d.body with
    | block k =>
        rw [hbody] at hv hon hreach
        rcases List.mem_append.mp hv with hv | hv
        · split at hv
          · rw [List.mem_singleton.mp hv]
            exact ⟨hi, d, k, hd, hbody⟩
          · cases hv
        · cases hon.typed with
          | block _ hcode _ _ hbody =>
              rw [hcode] at hv
              refine bound_reaches hp (fun r hr => hreach r ?_) hbody v hv
              rw [DefnBody.refs, hcode]
              exact hr
    | closure k =>
        rw [hbody] at hv hon hreach
        cases hon.typed with
        | closure _ htail _ _ _ hbody =>
            dsimp only at hv
            rw [htail] at hv
            refine called_reaches hp (fun r hr => hreach r ?_) hbody v hv
            rw [DefnBody.refs, htail]
            exact hr
    | top l =>
        rw [hbody] at hv hon hreach
        cases hon.typed with
        | top _ htail hbody =>
            dsimp only at hv
            rw [htail] at hv
            refine called_reaches hp (fun r hr => hreach r ?_) hbody v hv
            rw [DefnBody.refs, htail]
            exact hr
    | external e =>
        rw [hbody] at hv
        cases hv
  · obtain ⟨d, hd⟩ := Program.exists_of_reachable hi
    have hon := hp.onWords hi hd
    have hreach := hp.reachable.2 hi hd
    unfold Roots.jumpsOf at hv
    split at hv
    · rename_i c hc
      obtain ⟨k, hk, hc⟩ := Option.bind_eq_some_iff.mp hc
      obtain ⟨d', hd', hbody⟩ := Source.exists_of_block? hk
      cases hd.symm.trans hd'
      rw [hbody] at hon hreach
      cases hon.typed with
      | block _ hcode _ _ hbody =>
          rw [hc] at hcode
          cases hcode
          refine jumps_reach hp (fun r hr => hreach r ?_) hbody v hv
          rw [DefnBody.refs, hc]
          exact hr
    · cases hv

end Ready

/-! ### One definition after the other -/

/-- A function of the output and the definition that it is made from. The symbols `taken` belong to
no definition. -/
inductive Emits (cx : Setting) (taken : List String) (s : Symbols) (id : DefnId) (f : Function) : Prop
  | block {d : Defn} {k : Block} {raw : Function} {F : Builder}
      (hd : cx.program.defns[id]? = some d) (hk : d.body = .block k)
      (hmade : Made cx (blockResults cx.program.store k) F raw f)
      (hentry : F.labels.lookup id = some raw.entry)
      (hparams : List.Forall₂ (fun t r => F.regs.lookup t = some r) k.params raw.params)
      (hsymbols : F.symbols.Le s) (hname : s.names.lookup id = some raw.name)
  | closure {d : Defn} {k : Closure} {raw : Function} {F : Builder} {results : Nat} {s₀ : Symbols}
      (hd : cx.program.defns[id]? = some d) (hk : d.body = .closure k)
      (hmade : Made cx results F raw f) (hopens : Opens cx k raw s₀ F)
      (hparams : raw.params.length = 1 + k.args.length)
      (hsymbols : F.symbols.Le s) (hname : s.codeNames.lookup id = some raw.name)
  | top {d : Defn} {l : TopLevel} {raw : Function} {F : Builder}
      (hd : cx.program.defns[id]? = some d) (hl : d.body = .top l)
      (hmade : Made cx 0 F raw f) (hstarts : Starts cx l raw F) (hsymbols : F.symbols.Le s)
      (hname : raw.name ∈ taken)

section Emits

variable {cx : Setting} {taken taken' : List String} {s s' : Symbols} {id id' : DefnId} {f f' : Function}

theorem Emits.mono (htaken : taken ⊆ taken') (hs : s.Le s') (h : Emits cx taken s id f) :
    Emits cx taken' s' id f := by
  cases h with
  | block hd hk hmade hentry hparams hsymbols hname =>
      exact .block hd hk hmade hentry hparams (hsymbols.trans hs) (hs.names hname)
  | closure hd hk hmade hopens hparams hsymbols hname =>
      exact .closure hd hk hmade hopens hparams (hsymbols.trans hs) (hs.codes hname)
  | top hd hl hmade hstarts hsymbols hname =>
      exact .top hd hl hmade hstarts (hsymbols.trans hs) (htaken hname)

/-- A function has no gaps, and its instructions are lawful. -/
theorem Emits.sound (h : Emits cx taken s id f) :
    ∃ results : Nat, f.results = results ∧ f.Sound (Lawful cx results s) := by
  have hmade : ∀ {results F raw}, Made cx results F raw f → F.symbols.Le s →
      ∃ results : Nat, f.results = results ∧ f.Sound (Lawful cx results s) := by
    intro results F raw hmade hle
    have hsound := hmade.sound
    exact ⟨results, hmade.like.results.trans hmade.results,
      { hsound with ok := fun hi => Lawful.mono hle (hsound.ok hi) }⟩
  cases h with
  | block _ _ h _ _ hle => exact hmade h hle
  | closure _ _ h _ _ hle => exact hmade h hle
  | top _ _ h _ hle => exact hmade h hle

theorem Emits.name (h : Emits cx taken s id f) : s.names.lookup id = some f.name ∨
    s.codeNames.lookup id = some f.name ∨ f.name ∈ taken := by
  cases h with
  | block _ _ hmade _ _ _ hname => exact .inl (hmade.like.name ▸ hname)
  | closure _ _ hmade _ _ _ hname => exact .inr (.inl (hmade.like.name ▸ hname))
  | top _ _ hmade _ _ hname => exact .inr (.inr (hmade.like.name ▸ hname))

/-- Functions of different definitions have different names, unless both are taken. -/
theorem Emits.apart (hs : s.Sound taken) (h : Emits cx taken s id f) (h' : Emits cx taken s id' f')
    (hne : id ≠ id') (hfree : f.name ∉ taken) : f.name ≠ f'.name := by
  intro heq
  have hname := h.name
  rw [heq] at hname hfree
  rcases hname with hname | hname | hname <;> rcases h'.name with hname' | hname' | hname'
  · exact hne (hs.names_inj hname hname')
  · exact hs.apart hname hname'
  · exact hfree hname'
  · exact hs.apart hname' hname
  · exact hne (hs.codes_inj hname hname')
  · exact hfree hname'
  all_goals exact hfree hname

end Emits

/-- What is known after some definitions were added. Names from `outside` are never those of
functions. -/
structure Output.Sound (cx : Setting) (outside taken : List String) (done : List DefnId) (o : Output) :
    Prop where
  reserved : outside ⊆ taken
  symbols : o.symbols.Sound taken
  names : (o.functions.map Function.name).Nodup
  free : ∀ {f}, f ∈ o.functions → f.name ∉ outside
  source : ∀ {f}, f ∈ o.functions → ∃ id ∈ done, Emits cx taken o.symbols id f
  blocks : ∀ {id}, id ∈ done → id ∈ cx.roots → ∃ f ∈ o.functions, Emits cx taken o.symbols id f
  closures : ∀ {id d k}, id ∈ done → cx.program.defns[id]? = some d → d.body = .closure k →
    ∃ f ∈ o.functions, Emits cx taken o.symbols id f ∧
      ∃ l ∈ o.layouts, l.function = f.name ∧ l.stored = k.params.length

section Output

variable {cx : Setting} {fields : FieldLayout} {outside taken taken' : List String}
  {done : List DefnId} {o o' : Output} {id : DefnId} {d : Defn} {f : Function}

/-- One more function, under a new name. -/
theorem Output.Sound.push (h : o.Sound cx outside taken done) (hid : id ∉ done)
    (htaken : taken ⊆ taken') (hle : o.symbols.Le o'.symbols) (hsymbols : o'.symbols.Sound taken')
    (hfunctions : o'.functions = o.functions ++ [f]) (hlayouts : o.layouts ⊆ o'.layouts)
    (hemits : Emits cx taken' o'.symbols id f) (hfree : f.name ∉ outside)
    (hnew : ∀ {g}, g ∈ o.functions → g.name ≠ f.name)
    (hlayout : ∀ {d k}, cx.program.defns[id]? = some d → d.body = .closure k →
      ∃ l ∈ o'.layouts, l.function = f.name ∧ l.stored = k.params.length) :
    o'.Sound cx outside taken' (id :: done) := by
  have hold : ∀ {g}, g ∈ o.functions → g ∈ o'.functions := fun hg => by
    rw [hfunctions]
    exact List.mem_append_left _ hg
  have hlast : f ∈ o'.functions := by
    rw [hfunctions]
    exact List.mem_append_right _ (.head _)
  constructor
  · exact fun _ hn => htaken (h.reserved hn)
  · exact hsymbols
  · rw [hfunctions, List.map_append]
    refine List.nodup_append.mpr ⟨h.names, List.nodup_singleton _, fun n hn m hm => ?_⟩
    obtain ⟨g, hg, rfl⟩ := List.mem_map.mp hn
    rw [List.mem_singleton.mp hm]
    exact hnew hg
  · intro g hg
    rw [hfunctions] at hg
    rcases List.mem_append.mp hg with hg | hg
    · exact h.free hg
    · rw [List.mem_singleton.mp hg]
      exact hfree
  · intro g hg
    rw [hfunctions] at hg
    rcases List.mem_append.mp hg with hg | hg
    · obtain ⟨i, hi, hemits⟩ := h.source hg
      exact ⟨i, .tail _ hi, hemits.mono htaken hle⟩
    · rw [List.mem_singleton.mp hg]
      exact ⟨id, .head _, hemits⟩
  · intro i hi hroot
    rcases List.mem_cons.mp hi with rfl | hi
    · exact ⟨f, hlast, hemits⟩
    · obtain ⟨g, hg, hemits⟩ := h.blocks hi hroot
      exact ⟨g, hold hg, hemits.mono htaken hle⟩
  · intro i d k hi hd hk
    rcases List.mem_cons.mp hi with rfl | hi
    · exact ⟨f, hlast, hemits, hlayout hd hk⟩
    · obtain ⟨g, hg, hemits, l, hl, hname, hstored⟩ := h.closures hi hd hk
      exact ⟨g, hold hg, hemits.mono htaken hle, l, hlayouts hl, hname, hstored⟩

theorem Output.build_eq_ok {α : Type} {x : BuildM α} {a : α} (h : o.build cx x = .ok (a, o')) :
    ∃ b, Builds cx x (.new o.symbols) a b ∧ o' = { o with symbols := b.symbols } := by
  obtain ⟨⟨a', b⟩, hx, h⟩ := Except.bind_eq_ok.mp h
  cases h
  exact ⟨b, hx, rfl⟩

theorem Output.Sound.fresh (h : o.Sound cx outside taken done) (hid : id ∉ done)
    {s : Symbols} (hle : o.symbols.Le s) (hemits : Emits cx taken s id f) (hfree : f.name ∉ taken)
    {g : Function} (hg : g ∈ o.functions) : g.name ≠ f.name := by
  obtain ⟨i, hi, hemits'⟩ := h.source hg
  exact (hemits.apart (hle.sound h.symbols) (hemits'.mono (fun _ hn => hn) hle)
    (fun he => hid (he ▸ hi)) hfree).symm

theorem Output.Sound.used (h : o.Sound cx outside taken done) {g : Function} (hg : g ∈ o.functions) :
    g.name ∈ o.symbols.used := by
  obtain ⟨i, -, hemits⟩ := h.source hg
  rcases hemits.name with hname | hname | hname
  · exact (h.symbols.names hname).1
  · exact (h.symbols.codes hname).1
  · exact h.symbols.reserved hname

/-- A definition that no function is made of. -/
theorem Output.Sound.skip (h : o.Sound cx outside taken done) (hroot : id ∉ cx.roots)
    (hclosure : ∀ {d} (k), cx.program.defns[id]? = some d → d.body ≠ .closure k) :
    o.Sound cx outside taken (id :: done) where
  __ := h
  source hf := by
    obtain ⟨i, hi, hemits⟩ := h.source hf
    exact ⟨i, .tail _ hi, hemits⟩
  blocks hi hr := by
    rcases List.mem_cons.mp hi with rfl | hi
    · exact absurd hr hroot
    · exact h.blocks hi hr
  closures hi hd hk := by
    rcases List.mem_cons.mp hi with rfl | hi
    · exact absurd hk (hclosure _ hd)
    · exact h.closures hi hd hk

/-- What becomes of a definition: a block that is a root, a closure or a top-level definition is made a
function, and nothing is made of any other. -/
inductive Output.Adds (cx : Setting) (o o' : Output) (id : DefnId) : Prop
  | block {d : Defn} {k : Block} {f : Function} {b : Builder} (hd : cx.program.defns[id]? = some d)
      (hk : d.body = .block k) (hroot : id ∈ cx.roots)
      (hmake : Builds cx (blockFunction id d k) (.new o.symbols) f b)
      (ho : o' = { o with symbols := b.symbols, functions := o.functions ++ [f] })
  | closure {d : Defn} {k : Closure} {f : Function} {l : Layout} {b : Builder}
      (hd : cx.program.defns[id]? = some d) (hk : d.body = .closure k)
      (hmake : Builds cx (closureFunction id d k) (.new o.symbols) (f, l) b)
      (ho : o' = { o with
        symbols := b.symbols, layouts := o.layouts ++ [l], functions := o.functions ++ [f] })
  | top {d : Defn} {l : TopLevel} {f : Function} {g : Global} {b : Builder}
      (hd : cx.program.defns[id]? = some d) (hl : d.body = .top l)
      (hmake : Builds cx (topFunction id l) (.new o.symbols) (f, g) b)
      (ho : o' = { o with
        symbols := b.symbols, globals := o.globals ++ [g], functions := o.functions ++ [f] })
  | skip {d : Defn} (hd : cx.program.defns[id]? = some d)
      (hblock : ∀ {k}, d.body = .block k → id ∉ cx.roots) (hclosure : ∀ {k}, d.body ≠ .closure k)
      (htop : ∀ {l}, d.body ≠ .top l) (ho : o' = o)

theorem Output.adds_of_addDefn (hadd : o.addDefn cx id = .ok o') : Output.Adds cx o o' id := by
  unfold Output.addDefn at hadd
  obtain ⟨d, hdefn, hadd⟩ := Except.bind_eq_ok.mp hadd
  have hd := exists_of_defn hdefn
  cases hbody : d.body with
  | block k =>
      rw [hbody] at hadd
      dsimp only at hadd
      split at hadd
      · rename_i hroot
        obtain ⟨⟨f, o₁⟩, hbuild, hadd⟩ := Except.bind_eq_ok.mp hadd
        cases hadd
        obtain ⟨b, hmake, rfl⟩ := build_eq_ok hbuild
        exact .block hd hbody hroot hmake rfl
      · rename_i hroot
        cases hadd
        exact .skip hd (fun _ => hroot) (fun h => nomatch hbody.symm.trans h)
          (fun h => nomatch hbody.symm.trans h) rfl
  | closure k =>
      rw [hbody] at hadd
      obtain ⟨⟨⟨f, l⟩, o₁⟩, hbuild, hadd⟩ := Except.bind_eq_ok.mp hadd
      cases hadd
      obtain ⟨b, hmake, rfl⟩ := build_eq_ok hbuild
      exact .closure hd hbody hmake rfl
  | top l =>
      rw [hbody] at hadd
      obtain ⟨⟨⟨f, g⟩, o₁⟩, hbuild, hadd⟩ := Except.bind_eq_ok.mp hadd
      cases hadd
      obtain ⟨b, hmake, rfl⟩ := build_eq_ok hbuild
      exact .top hd hbody hmake rfl
  | external e =>
      rw [hbody] at hadd
      cases hadd
      exact .skip hd (fun h => nomatch hbody.symm.trans h) (fun h => nomatch hbody.symm.trans h)
        (fun h => nomatch hbody.symm.trans h) rfl

/-- Adding a definition keeps what is known. -/
theorem Output.Sound.addDefn (hcx : cx.Ready fields) (h : o.Sound cx outside taken done)
    (hid : id ∉ done) (hreach : id ∈ cx.program.reachable) (hadd : o.addDefn cx id = .ok o') :
    ∃ taken', o'.Sound cx outside taken' (id :: done) := by
  cases Output.adds_of_addDefn hadd with
  | @block d k f b hd hbody hroot hmake ho =>
      subst ho
      obtain ⟨raw, F, hmade, hentry, hparams, hle, hle', hname⟩ :=
        blockFunction_made hcx hreach hd hbody hmake
      have hemits : Emits cx taken b.symbols id f :=
        .block hd hbody hmade hentry hparams hle' hname
      have hle := hle.trans hle'
      have hfree : f.name ∉ taken := by
        rw [hmade.like.name]
        exact ((hle.sound h.symbols).names hname).2
      refine ⟨taken, h.push hid (fun _ hn => hn) hle (hle.sound h.symbols) rfl (fun _ hl => hl) hemits
        (fun hn => hfree (h.reserved hn)) (fun hg => h.fresh hid hle hemits hfree hg) ?_⟩
      intro d k hd'' hk
      cases hd.symm.trans hd''
      cases hbody.symm.trans hk
  | @closure d k f l b hd hbody hmake ho =>
      subst ho
      obtain ⟨raw, F, results, hmade, hopens, hparams, hfunction, hstored, hle, hle', hname⟩ :=
        closureFunction_made hcx hreach hd hbody hmake
      have hemits : Emits cx taken b.symbols id f :=
        .closure hd hbody hmade hopens hparams hle' hname
      have hle := hle.trans hle'
      have hfree : f.name ∉ taken := by
        rw [hmade.like.name]
        exact ((hle.sound h.symbols).codes hname).2
      refine ⟨taken, h.push hid (fun _ hn => hn) hle (hle.sound h.symbols) rfl
        (List.subset_append_left _ _) hemits (fun hn => hfree (h.reserved hn))
        (fun hg => h.fresh hid hle hemits hfree hg) ?_⟩
      intro d k' hd'' hk
      cases hd.symm.trans hd''
      cases hbody.symm.trans hk
      exact ⟨l, List.mem_append_right _ (.head _), hfunction.trans hmade.like.name.symm, hstored⟩
  | @top d t f g b hd hbody hmake ho =>
      subst ho
      obtain ⟨raw, init, hmade, hstarts, hname, hle, rfl⟩ := topFunction_made hcx hreach hd hbody hmake
      have hnamed := hmade.like.name.trans hname
      have hused := (o.symbols.le_ofDefn cx.program id).used
      have hfree : f.name ∉ o.symbols.used := fun hn => by
        rw [hnamed] at hn
        exact Symbols.available_not_mem _ _ (hused hn)
      have hle₁ := (o.symbols.le_ofDefn cx.program id).trans ((Symbols.le_reserve _ _).trans hle)
      have hsymbols := hle.sound
        (((o.symbols.le_ofDefn cx.program id).sound h.symbols).reserve
          ("init_" ++ (o.symbols.ofDefn cx.program id).1))
      refine ⟨_, h.push hid (List.subset_cons_self _ _) hle₁ hsymbols rfl (fun _ hl => hl)
        (.top hd hbody hmade hstarts (.refl _) (hname ▸ .head _)) (fun hn => ?_) (fun hg he => ?_) ?_⟩
      · exact hfree (h.symbols.reserved (h.reserved hn))
      · exact hfree (he ▸ h.used hg)
      · intro d k hd'' hk
        cases hd.symm.trans hd''
        cases hbody.symm.trans hk
  | skip hd hblock hclosure htop ho =>
      subst ho
      refine ⟨taken, h.skip (fun hroot => ?_) fun k hd'' hk => ?_⟩
      · obtain ⟨-, d', k, hd'', hk⟩ := hcx.roots hroot
        cases hd.symm.trans hd''
        exact hblock hk hroot
      · cases hd.symm.trans hd''
        exact hclosure hk

/-- Nothing is known at first but the names from outside. -/
theorem Output.sound_start (cx : Setting) (outside : List String) :
    Output.Sound cx outside outside [] ⟨⟨[], [], outside⟩, [], [], []⟩ where
  reserved _ hn := hn
  symbols :=
    { reserved := fun hn => hn
      names := fun hn => nomatch hn
      codes := fun hn => nomatch hn
      names_inj := fun hn => nomatch hn
      codes_inj := fun hn => nomatch hn
      apart := fun hn => nomatch hn }
  names := .nil
  free hf := nomatch hf
  source hf := nomatch hf
  blocks hid := nomatch hid
  closures hid := nomatch hid

/-- What adding a new definition keeps is kept by adding definitions in turn. -/
theorem Output.foldlM_induction {P : List DefnId → Output → Prop} {ids : List DefnId}
    (hstep : ∀ {o o' done id}, id ∈ ids → id ∉ done → P done o → o.addDefn cx id = .ok o' →
      P (id :: done) o') (hnodup : ids.Nodup) (hdone : ∀ id ∈ ids, id ∉ done) (h : P done o)
    (hfold : ids.foldlM (Output.addDefn cx) o = .ok o') :
    ∃ done', P done' o' ∧ ∀ id, id ∈ done' ↔ id ∈ ids ∨ id ∈ done := by
  induction ids generalizing o done with
  | nil =>
      cases hfold
      exact ⟨done, h, by simp⟩
  | cons id ids ih =>
      rw [List.foldlM_cons] at hfold
      obtain ⟨o₁, hadd, hfold⟩ := Except.bind_eq_ok.mp hfold
      obtain ⟨hid, hnodup⟩ := List.nodup_cons.mp hnodup
      obtain ⟨done', h', hmem⟩ := ih (fun hi => hstep (.tail _ hi)) hnodup
        (fun i hi hi' => by
          rcases List.mem_cons.mp hi' with rfl | hi'
          · exact hid hi
          · exact hdone i (.tail _ hi) hi') (hstep (.head _) (hdone id (.head _)) h hadd) hfold
      refine ⟨done', h', fun i => (hmem i).trans ?_⟩
      simp only [List.mem_cons]
      tauto

end Output

/-! ### Well-formed programs -/

/-- How an instruction fits into a function that gives some words. A call or tail call of a symbol
names a function of as many operands and results, or a primitive that the source declares; a code
symbol is that of a function that takes the record of a closure and its arguments. -/
def Instr.Fits (source : Mil.Program) (out : Program) (results : Int) : Instr → Prop
  | .ret args => args.length = results
  | .call (.symbol name) args dests _ => source.UserPrim name ∨ ∃ g, out.function? name = some g ∧
      args.length = g.params.length ∧ dests.length = g.results
  | .tailcall (.symbol name) args => source.UserPrim name ∨ ∃ g, out.function? name = some g ∧
      args.length = g.params.length ∧ g.results = results
  | .op (.addressOf name _) _ _ _ => ∃ id ∈ source.reachable, ∃ d k g, source.defns[id]? = some d ∧
      d.body = .closure k ∧ out.function? name = some g ∧ g.params.length = 1 + k.args.length ∧
      ∃ l ∈ out.layouts, l.function = name ∧ l.stored = k.params.length
  | _ => True

/-- A function without gaps whose instructions fit. -/
structure Function.WellFormed (source : Mil.Program) (out : Program) (f : Function) : Prop where
  entry : (f.code.lookup f.entry).isSome
  successors : ∀ {n i}, f.code.lookup n = some i → ∀ s ∈ i.successors, (f.code.lookup s).isSome
  fits : ∀ {n i}, f.code.lookup n = some i → i.Fits source out f.results

/-- A program of well-formed functions of different names. No function has the name of a primitive
that the source declares. -/
structure Program.WellFormed (source : Mil.Program) (out : Program) : Prop where
  names : (out.functions.map Function.name).Nodup
  prims : ∀ {name}, source.UserPrim name → out.function? name = none
  functions : ∀ f ∈ out.functions, f.WellFormed source out

section Fits

variable {cx : Setting} {outside taken : List String} {done : List DefnId} {o : Output} {size : Int}

/-- Among functions of different names, each is found under its own. -/
theorem function?_of_mem {out : Program} (hnames : (out.functions.map Function.name).Nodup)
    {f : Function} (hf : f ∈ out.functions) : out.function? f.name = some f := by
  unfold Program.function?
  generalize out.functions = fs at hnames hf
  induction fs with
  | nil => cases hf
  | cons g fs ih =>
      rw [List.map_cons, List.nodup_cons] at hnames
      rcases List.mem_cons.mp hf with rfl | hf
      · rw [List.find?_cons_of_pos (by simp)]
      · have hne : g.name ≠ f.name := fun he => hnames.1 (he ▸ List.mem_map_of_mem hf)
        rw [List.find?_cons_of_neg (by simpa using hne)]
        exact ih hnames.2 hf

/-- The symbol of a block that is a function belongs to a function that fits. -/
theorem BlockSymbol.function? (ho : o.Sound cx outside taken done) (hroots : ∀ id ∈ cx.roots, id ∈ done)
    {name : String} {args results : Nat} (h : BlockSymbol cx o.symbols name args results) :
    ∃ g ∈ o.functions, g.name = name ∧ args = g.params.length ∧ g.results = results := by
  obtain ⟨id, d, k, hroot, hd, hk, hname, hargs, hresults⟩ := h
  obtain ⟨g, hg, hemits⟩ := ho.blocks (hroots id hroot) hroot
  cases hemits with
  | block hd' hk' hmade hentry hparams hsymbols hname' =>
      cases hd.symm.trans hd'
      cases hk.symm.trans hk'
      cases hname.symm.trans hname'
      refine ⟨g, hg, hmade.like.name, ?_, ?_⟩
      · rw [hmade.like.params, hargs, hparams.length_eq]
      · rw [hmade.like.results, hmade.results, hresults]
  | closure hd' hk' =>
      cases hd.symm.trans hd'
      cases hk.symm.trans hk'
  | top hd' hl =>
      cases hd.symm.trans hd'
      cases hk.symm.trans hl

/-- The symbol of the code of a closure belongs to a function of the record and the arguments. -/
theorem CodeSymbol.function? (ho : o.Sound cx outside taken done)
    (hreach : ∀ id ∈ cx.program.reachable, id ∈ done) {name : String}
    (h : CodeSymbol cx o.symbols name) : ∃ id ∈ cx.program.reachable, ∃ d k,
      cx.program.defns[id]? = some d ∧ d.body = .closure k ∧
      (∃ g ∈ o.functions, g.name = name ∧ g.params.length = 1 + k.args.length) ∧
      ∃ l ∈ o.layouts, l.function = name ∧ l.stored = k.params.length := by
  obtain ⟨id, d, k, hid, hd, hk, hname⟩ := h
  obtain ⟨g, hg, hemits, l, hl, hfunction, hstored⟩ := ho.closures (hreach id hid) hd hk
  cases hemits with
  | block hd' hk' =>
      cases hd.symm.trans hd'
      cases hk.symm.trans hk'
  | closure hd' hk' hmade hopens hparams hsymbols hname' =>
      cases hd.symm.trans hd'
      cases hk.symm.trans hk'
      cases hname.symm.trans hname'
      refine ⟨id, hid, d, _, hd, hk, ⟨g, hg, hmade.like.name, ?_⟩, l, hl, ?_, hstored⟩
      · rw [hmade.like.params, hparams]
      · rw [hfunction, hmade.like.name]
  | top hd' hl =>
      cases hd.symm.trans hd'
      cases hk.symm.trans hl

theorem Lawful.fits (ho : o.Sound cx outside taken done) (hroots : ∀ id ∈ cx.roots, id ∈ done)
    (hreach : ∀ id ∈ cx.program.reachable, id ∈ done) {results : Nat} {i : Instr}
    (h : Lawful cx results o.symbols i) :
    i.Fits cx.program ⟨size, o.globals, o.layouts, o.functions⟩ results := by
  have hfind : ∀ {g name}, g ∈ o.functions → g.name = name →
      Program.function? ⟨size, o.globals, o.layouts, o.functions⟩ name = some g := by
    rintro g name hg rfl
    exact function?_of_mem ho.names hg
  cases i with
  | ret args => exact congrArg Nat.cast h
  | call fn args dests n =>
      cases fn with
      | reg r => trivial
      | symbol name =>
          refine Or.imp_right (fun h => ?_) h
          obtain ⟨g, hg, hname, hargs, hresults⟩ := BlockSymbol.function? ho hroots h
          exact ⟨g, hfind hg hname, hargs, hresults.symm⟩
  | tailcall fn args =>
      cases fn with
      | reg r => trivial
      | symbol name =>
          obtain ⟨g, hg, hname, hargs, hresults⟩ := BlockSymbol.function? ho hroots h
          exact .inr ⟨g, hfind hg hname, hargs, hresults⟩
  | op o args d n =>
      cases o with
      | addressOf name offset =>
          obtain ⟨id, hid, d, k, hd, hk, ⟨g, hg, hname, hparams⟩, hlayout⟩ :=
            CodeSymbol.function? ho hreach h
          exact ⟨id, hid, d, k, g, hd, hk, hfind hg hname, hparams, hlayout⟩
      | move | const | add | addConst | neg | sub | mul | div | mod | and | or | xor | xorConst | not
      | shl | shr | shru | compare | compareUnsigned => trivial
  | nop | load | store | builtin | alloc | branch | jump | abort => trivial

end Fits

end Mil.Rtl

namespace Mil

open Rtl

/-- The setting in which the functions of a program are built. -/
def Program.setting (p : Program) (size : Int) (chunk : Chunk) : Setting :=
  ⟨p, Roots.ofDefns p p.reachable, size, size.tdiv 8, chunk⟩

/-- The names that a program uses from outside. -/
def Program.outside (p : Program) : List String :=
  p.reachable.flatMap fun id => ((p.defns[id]?).map fun d => outsideNames d.body).getD []

/-- What has been built when all definitions of a program are done. -/
def Program.output (p : Program) (size : Int) (chunk : Chunk) : Except Defect Output :=
  (p.components p.reachable).flatten.foldlM (Output.addDefn (p.setting size chunk))
    ⟨⟨[], [], p.outside⟩, [], [], []⟩

section Outputs

variable {p : Program} {fields : FieldLayout} {size : Int} {out : Rtl.Program}

/-- A register transfer program is what has been built, without the symbols. -/
theorem Program.toRtl_output (h : p.toRtl size = .ok out) :
    ∃ (chunk : Chunk) (o : Output), Chunk.ofBytes? (size.tdiv 8) = some chunk ∧
      p.output size chunk = .ok o ∧ out = ⟨size, o.globals, o.layouts, o.functions⟩ := by
  unfold toRtl at h
  obtain ⟨_, -, hrest⟩ := Except.bind_eq_ok.mp h
  dsimp only at hrest
  split at hrest
  · cases hrest
  · rename_i chunk hchunk
    split at hrest
    · rename_i o hfold
      cases hrest
      exact ⟨chunk, o, hchunk, hfold, rfl⟩
    · cases hrest

/-- What holds before any definition and is kept by adding one that can be reached holds when all are
done. -/
theorem Program.output_induction {P : List DefnId → Output → Prop} {chunk : Chunk} {o : Output}
    (hstart : P [] ⟨⟨[], [], p.outside⟩, [], [], []⟩)
    (hstep : ∀ {o o' done id}, id ∈ p.reachable → id ∉ done → P done o →
      o.addDefn (p.setting size chunk) id = .ok o' → P (id :: done) o')
    (h : p.output size chunk = .ok o) : ∃ done, P done o ∧ ∀ id, id ∈ done ↔ id ∈ p.reachable := by
  obtain ⟨hnodup, hmem⟩ := p.components_within fun _ hid => Program.lt_of_reachable hid
  obtain ⟨done, hdone, hids⟩ := Output.foldlM_induction (fun hid => hstep ((hmem _).mp hid)) hnodup
    (fun _ _ => List.not_mem_nil) hstart h
  exact ⟨done, hdone, fun id => (hids id).trans ((or_iff_left List.not_mem_nil).trans (hmem id))⟩

/-- What is known when all definitions are done. -/
theorem Program.output_sound (hp : p.WordLevel fields) {chunk : Chunk} {o : Output}
    (h : p.output size chunk = .ok o) : ∃ taken done,
      o.Sound (p.setting size chunk) p.outside taken done ∧ ∀ id, id ∈ done ↔ id ∈ p.reachable := by
  obtain ⟨done, ⟨taken, hsound⟩, hdone⟩ := output_induction
    (P := fun done o => ∃ taken, o.Sound (p.setting size chunk) p.outside taken done)
    ⟨_, Output.sound_start (p.setting size chunk) p.outside⟩
    (fun hid hnew ⟨_, h⟩ => h.addDefn (ready_ofDefns hp size (size.tdiv 8) chunk) hnew hid) h
  exact ⟨taken, done, hsound, hdone⟩

/-- The functions of a program and the definitions that they are made from. -/
theorem Program.toRtl_sound (hp : p.WordLevel fields) (h : p.toRtl size = .ok out) :
    ∃ (chunk : Chunk) (o : Output) (taken : List String) (done : List DefnId),
      Chunk.ofBytes? (size.tdiv 8) = some chunk ∧
      out = ⟨size, o.globals, o.layouts, o.functions⟩ ∧
      o.Sound (p.setting size chunk) p.outside taken done ∧ ∀ id, id ∈ done ↔ id ∈ p.reachable := by
  obtain ⟨chunk, o, hchunk, ho, hout⟩ := toRtl_output h
  obtain ⟨taken, done, hsound, hdone⟩ := output_sound hp ho
  exact ⟨chunk, o, taken, done, hchunk, hout, hsound, hdone⟩

theorem mem_outside {name : String} (h : p.UserPrim name) : name ∈ p.outside := by
  obtain ⟨id, d, t, hid, hd, ht, hname⟩ := h
  refine List.mem_flatMap.mpr ⟨id, hid, ?_⟩
  rw [hd, Option.map_some, Option.getD_some]
  cases hbody : d.body with
  | block k =>
      rw [hbody] at ht
      exact List.mem_flatMap.mpr ⟨t, ht, hname⟩
  | closure k =>
      rw [hbody] at ht
      rw [outsideNames, Option.mem_toList.mp ht]
      exact hname
  | top l =>
      rw [hbody] at ht
      rw [outsideNames, Option.mem_toList.mp ht]
      exact hname
  | external e =>
      rw [hbody] at ht
      cases ht

/-- The register transfer program of a word-level program is well formed. -/
theorem Program.toRtl_wellFormed (hp : p.WordLevel fields) (h : p.toRtl size = .ok out) :
    out.WellFormed p := by
  obtain ⟨chunk, o, taken, done, hchunk, rfl, ho, hdone⟩ := Program.toRtl_sound hp h
  have hready := ready_ofDefns hp size (size.tdiv 8) chunk
  refine ⟨ho.names, fun {name} hname => ?_, fun f hf => ?_⟩
  · refine List.find?_eq_none.mpr fun f hf => ?_
    have hne : f.name ≠ name := fun he => ho.free hf (he ▸ mem_outside hname)
    simpa using hne
  · obtain ⟨id, hid, hemits⟩ := ho.source hf
    obtain ⟨results, hresults, hsound⟩ := hemits.sound
    refine ⟨hsound.entry, fun hi => hsound.closed (mem_of_lookup hi), fun hi => ?_⟩
    rw [hresults]
    exact Lawful.fits ho (fun id hid => (hdone id).mpr (hready.roots hid).1)
      (fun id hid => (hdone id).mpr hid) (hsound.ok (mem_of_lookup hi))

theorem toRtl_wellFormed_adder : adder.WordLevel (fun _ _ => []) ∧
    ∃ out, adder.toRtl 64 = .ok out ∧ out.functions.length = 2 ∧ out.WellFormed adder := by
  have hok : (match adder.toRtl 64 with
      | .ok out => decide (out.functions.length = 2)
      | .error _ => false) = true := by decide +kernel
  refine ⟨adder_wordLevel, ?_⟩
  split at hok
  · rename_i out hout
    exact ⟨out, hout, of_decide_eq_true hok, Program.toRtl_wellFormed adder_wordLevel hout⟩
  · cases hok

end Outputs

end Mil

namespace Mil

open Rtl

/-! ### The function of a definition -/

/-- The function that is emitted for a definition: the one under its symbol. -/
def Program.emitted? (p : Program) (size : Int) (id : DefnId) : Option Function :=
  match Chunk.ofBytes? (size.tdiv 8) with
  | none => none
  | some chunk =>
    match p.output size chunk with
    | .error _ => none
    | .ok o => (o.symbols.names.lookup id).bind fun name => o.functions.find? fun f => f.name = name

namespace Rtl

section Roots

variable {p : Mil.Program} {id : DefnId} {d : Defn} {b : Block}

theorem mem_roots_of_entry {fields : FieldLayout} (hp : p.WordLevel fields) (hid : id ∈ p.entries)
    (hd : p.defns[id]? = some d) (hb : d.body = .block b) : id ∈ Roots.ofDefns p p.reachable := by
  obtain ⟨d', hd', hentry⟩ := hp.entries hid
  cases hd.symm.trans hd'
  exact Roots.mem_ofDefns_of_entry (hp.reachable.1 id hid) hd hb hentry

end Roots

section Emitted

variable {cx : Setting} {outside taken : List String} {done : List DefnId} {o : Output} {id : DefnId}
  {d : Defn} {b : Block} {f : Function}

/-- The function of a block stands under its symbol. -/
theorem Emits.lookup_block (h : Emits cx taken o.symbols id f) (hd : cx.program.defns[id]? = some d)
    (hb : d.body = .block b) : o.symbols.names.lookup id = some f.name := by
  cases h with
  | block _ _ hmade _ _ _ hname => exact hname.trans (congrArg some hmade.like.name.symm)
  | closure hd' hk =>
      cases hd.symm.trans hd'
      cases hb.symm.trans hk
  | top hd' hl =>
      cases hd.symm.trans hd'
      cases hb.symm.trans hl

/-- What was built for a block is found under its symbol. -/
theorem emitted?_of_emits {p : Mil.Program} {size : Int} {chunk : Chunk}
    (hchunk : Chunk.ofBytes? (size.tdiv 8) = some chunk) (hout : p.output size chunk = .ok o)
    (ho : o.Sound (p.setting size chunk) outside taken done) (hf : f ∈ o.functions)
    (hemits : Emits (p.setting size chunk) taken o.symbols id f) (hd : p.defns[id]? = some d)
    (hb : d.body = .block b) : p.emitted? size id = some f := by
  unfold Mil.Program.emitted?
  rw [hchunk]
  dsimp only
  rw [hout]
  dsimp only
  rw [hemits.lookup_block hd hb, Option.bind_some]
  have hfind : Program.function? ⟨size, o.globals, o.layouts, o.functions⟩ f.name = some f :=
    function?_of_mem ho.names hf
  exact hfind

end Emitted

end Rtl

end Mil
