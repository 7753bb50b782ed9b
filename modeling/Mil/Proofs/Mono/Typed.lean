import Mil.Proofs.Mono.Fill
import Mil.Proofs.Mono.Reading

/-!
Copies and their types. Every copy is made at a closed reading of the working types of its source:
its declared types are the working types as the valuation of its request reads them. A derivation of
the source, read in the same way, is a derivation of the copy, in which a reference is used at a type
that has the text of the declared type of what it refers to.

What is asked for on the way can be restricted: if every reference of a definition at a good reading
leads to good readings only, no others are asked for.
-/

namespace Mil

/-- Applies a function to the domain and the range; nothing is quantified afterwards. -/
def BlockType.mapTypes (f : Ty → Ty) (b : BlockType) : BlockType := ⟨[], f b.dom, f b.rng⟩

/-- A block type without any variables. -/
structure BlockType.Final (b : BlockType) : Prop where
  kinds : b.kinds = []
  closed : ClosedUnder 0 b.parts

/-- An allocation type without any variables. -/
structure AllocType.Final (a : AllocType) : Prop where
  kinds : a.kinds = []
  closed : ClosedUnder 0 a.parts

/-- A type of a value without any variables. -/
structure Scheme.Final (c : Scheme) : Prop where
  kinds : c.kinds = []
  closed : c.type.Closed 0

namespace Mono

open Typing (Context DefnHas Complete)

/-! ### Good readings -/

/-- The variables that the value which a reference names is generic in. -/
def valueGenerics : DefnBody → Nat → List Nat
  | .top t, index => ((t.lhs[index]?).map TopName.generics).getD []
  | _, _ => []

/-- The rules in a checked program at a reading. Uses lead to good readings only. -/
def workingAt (p : Program) (Good : DefnId → (Nat → Ty) → Prop) (θ : Nat → Ty) : Context :=
  { p.working θ with
    block := fun id inst => ∃ d b, p.defns[id]? = some d ∧ d.body = .block b ∧
      b.interface.SeenAs p.store inst.parts ∧
      ∀ θ', Reads p.store b.interface b.generics θ' (inst.parts.map (Ty.mapVars θ)) → Good id θ'
    closure := fun id inst => ∃ d k, p.defns[id]? = some d ∧ d.body = .closure k ∧
      k.interface.SeenAs p.store inst.parts ∧
      ∀ θ', Reads p.store k.interface k.generics θ' (inst.parts.map (Ty.mapVars θ)) → Good id θ'
    top := fun id index t => ∃ d i, p.defns[id]? = some d ∧ d.body.valueInterface? index = some i ∧
      i.SeenAs p.store [t] ∧
      ∀ θ', Reads p.store i (valueGenerics d.body index) θ' [t.mapVars θ] → Good id θ' }

/-- The uses of a definition at a good reading lead to good readings. -/
def Followed (p : Program) (Good : DefnId → (Nat → Ty) → Prop) : Prop :=
  ∀ {id : DefnId} {d : Defn} {θ : Nat → Ty}, p.defns[id]? = some d → Assigns p.store θ →
    Good id θ → DefnHas (workingAt p Good θ) d.body

/-- If every reading is good, nothing is asked of the uses. -/
theorem followed_true {p : Program} (h : Complete p) : Followed p fun _ _ => True := by
  intro id d θ hd hθ _
  have hle : (p.working θ).Le (workingAt p (fun _ _ => True) θ) := by
    refine ⟨fun _ _ h => h, rfl, ?_, fun _ _ h => h, ?_, fun _ _ h => h, ?_⟩
    · rintro id inst ⟨d, b, hd, hb, hseen⟩
      exact ⟨d, b, hd, hb, hseen, fun _ _ => trivial⟩
    · rintro id inst ⟨d, k, hd, hk, hseen⟩
      exact ⟨d, k, hd, hk, hseen, fun _ _ => trivial⟩
    · rintro id index t ⟨d, i, hd, hi, hseen⟩
      exact ⟨d, i, hd, hi, hseen, fun _ _ => trivial⟩
  exact ((h.stage hd).derivation θ hθ.solves).mono hle

/-! ### Heads of copies -/

/-- The declared types of a copy are the working types of its source, as the reading gives them. -/
inductive HeadAt (θ : Nat → Ty) : DefnBody → DefnBody → Prop
  | block {b b' : Block} {type : BlockType} (hworking : b.defining = some type)
      (hdeclared : b'.declared = some (type.mapTypes (Ty.mapVars θ))) :
      HeadAt θ (.block b) (.block b')
  | closure {k k' : Closure} {type : AllocType} (hworking : k.defining = some type)
      (hdeclared : k'.declared = some (type.mapTypes (Ty.mapVars θ))) :
      HeadAt θ (.closure k) (.closure k')
  | top {t t' : TopLevel} {types : List Ty} (hworking : t.lhs.map TopName.defining = types.map some)
      (hdeclared : t'.lhs.map TopName.declared = types.map fun u => some (.mono (u.mapVars θ))) :
      HeadAt θ (.top t) (.top t')

/-- The key of a copy is the text of its declared type. -/
def KeyText (s : Store) (k : CloneKey) : DefnBody → Prop
  | .block b => ∀ type, b.declared = some type → k.index = 0 ∧ k.inst = some (type.key s)
  | .closure b => ∀ type, b.declared = some type → k.index = 0 ∧ k.inst = some (type.key s)
  | .top t => ∃ c, (DefnBody.top t).scheme? k.index = some c ∧ k.inst = some (s.text c.type)
  | .external e => k.index = 0 ∧ k.inst = some (s.text e.declared.type)

/-- The two definitions are of one kind and have the same declared types. -/
inductive SameHead : DefnBody → DefnBody → Prop
  | block {b b' : Block} (h : b'.declared = b.declared) : SameHead (.block b) (.block b')
  | closure {k k' : Closure} (h : k'.declared = k.declared) : SameHead (.closure k) (.closure k')
  | top {t t' : TopLevel} (h : t'.lhs.map TopName.declared = t.lhs.map TopName.declared) :
      SameHead (.top t) (.top t')
  | external (e : Mil.External) : SameHead (.external e) (.external e)

theorem SameHead.refl (b : DefnBody) : SameHead b b := by
  cases b with
  | block b => exact .block rfl
  | closure k => exact .closure rfl
  | top t => exact .top rfl
  | external e => exact .external e

theorem SameHead.symm {b b' : DefnBody} (h : SameHead b b') : SameHead b' b := by
  cases h with
  | block h => exact .block h.symm
  | closure h => exact .closure h.symm
  | top h => exact .top h.symm
  | external e => exact .external e

theorem SameHead.trans {b b' b'' : DefnBody} (h : SameHead b b') (h' : SameHead b' b'') :
    SameHead b b'' := by
  cases h with
  | block h =>
      cases h' with
      | block h' => exact .block (h'.trans h)
  | closure h =>
      cases h' with
      | closure h' => exact .closure (h'.trans h)
  | top h =>
      cases h' with
      | top h' => exact .top (h'.trans h)
  | external e =>
      cases h' with
      | external => exact .external e

section Heads

variable {θ : Nat → Ty} {b b' b'' : DefnBody}

theorem HeadAt.congr (h : HeadAt θ b b') (h' : SameHead b' b'') : HeadAt θ b b'' := by
  cases h with
  | block hworking hdeclared =>
      cases h' with
      | block h' => exact .block hworking (h'.trans hdeclared)
  | closure hworking hdeclared =>
      cases h' with
      | closure h' => exact .closure hworking (h'.trans hdeclared)
  | top hworking hdeclared =>
      cases h' with
      | top h' => exact .top hworking (h'.trans hdeclared)

/-- The declared type of a name, by position. -/
theorem SameHead.scheme? (h : SameHead b b') (index : Nat) : b'.scheme? index = b.scheme? index := by
  cases h with
  | block => rfl
  | closure => rfl
  | external => rfl
  | @top t t' h =>
      have hget := congrArg (·[index]?) h
      simp only [List.getElem?_map] at hget
      show (t'.lhs[index]?).bind TopName.declared = (t.lhs[index]?).bind TopName.declared
      cases hl : t.lhs[index]? with
      | none =>
          rw [hl] at hget
          rw [Option.map_eq_none_iff.mp hget]
      | some l =>
          rw [hl] at hget
          obtain ⟨l', hl', heq⟩ := Option.map_eq_some_iff.mp hget
          rw [hl', Option.bind_some, Option.bind_some, heq]

theorem KeyText.congr {s : Store} {k : CloneKey} (h : KeyText s k b) (h' : SameHead b b') :
    KeyText s k b' := by
  have hscheme := h'.scheme? k.index
  cases h' with
  | block h' => exact fun type htype => h type (h' ▸ htype)
  | closure h' => exact fun type htype => h type (h' ▸ htype)
  | external => exact h
  | top =>
      obtain ⟨c, hc, hinst⟩ := h
      exact ⟨c, hscheme.trans hc, hinst⟩

end Heads

/-! ### Derivations of copies -/

/-- The copy was asked for. -/
def State.Asked (s : State) (j : DefnId) : Prop := ∃ k, (k, j) ∈ s.clones

/-- The rules in a specialised program. Recorded types are closed, and a reference is used at a type
that has the text of the declared type of what it refers to. -/
def State.context (p : Program) (s : State) : Context where
  atom a := (s.program.atomType a).filter Ty.isGround
  read := id
  block j inst := inst.Final ∧ s.Asked j ∧ ∃ d b type, s.program.defns[j]? = some d ∧
    d.body = .block b ∧ b.declared = some type ∧ type.Final ∧ type.key p.store = inst.key p.store
  prim g inst := g.type = inst ∧ inst.Final
  closure j inst := inst.Final ∧ s.Asked j ∧ ∃ d k type, s.program.defns[j]? = some d ∧
    d.body = .closure k ∧ k.declared = some type ∧ type.Final ∧
    type.key p.store = inst.key p.store
  cfun k inst := inst.Final ∧ p.store.IsInstance k.type.kinds k.type.parts inst.parts
  top j index t := t.Closed 0 ∧ (s.Asked j ∨ MonoExternal p j) ∧ ∃ d c,
    s.program.defns[j]? = some d ∧ d.body.scheme? index = some c ∧ c.Final ∧
    p.store.text c.type = p.store.text t

/-- Entrypoints, recorded types, copies and declared types are kept. -/
structure Widens (s s' : State) : Prop where
  entries : s'.program.entries = s.program.entries
  temps : ∀ {t : Temp} {τ : Ty}, s.program.temps.typeOf t = some τ →
    s'.program.temps.typeOf t = some τ
  sites : ∀ {x : SiteId} {τ : Ty}, (s.program.sites[x]?).join = some τ →
    (s'.program.sites[x]?).join = some τ
  clones : ∀ x ∈ s.clones, x ∈ s'.clones
  heads : ∀ {j : DefnId} {d : Defn}, s.program.defns[j]? = some d →
    ∃ d', s'.program.defns[j]? = some d' ∧ SameHead d.body d'.body

theorem Widens.refl (s : State) : Widens s s :=
  ⟨rfl, fun h => h, fun h => h, fun _ h => h, fun {_ d} hd => ⟨d, hd, .refl _⟩⟩

theorem Widens.trans {s₁ s₂ s₃ : State} (h : Widens s₁ s₂) (h' : Widens s₂ s₃) : Widens s₁ s₃ where
  entries := h'.entries.trans h.entries
  temps ht := h'.temps (h.temps ht)
  sites hx := h'.sites (h.sites hx)
  clones x hx := h'.clones x (h.clones x hx)
  heads hd := by
    obtain ⟨d₂, hd₂, hsame⟩ := h.heads hd
    obtain ⟨d₃, hd₃, hsame'⟩ := h'.heads hd₂
    exact ⟨d₃, hd₃, hsame.trans hsame'⟩

theorem Widens.asked {s s' : State} (h : Widens s s') {j : DefnId} (hj : s.Asked j) : s'.Asked j := by
  obtain ⟨k, hk⟩ := hj
  exact ⟨k, h.clones _ hk⟩

theorem Widens.atomType {s s' : State} (h : Widens s s') {a : Atom} {τ : Ty}
    (ha : s.program.atomType a = some τ) : s'.program.atomType a = some τ := by
  cases a with
  | temp t => exact h.temps ha
  | lit l => cases l <;> exact ha
  | top id index site => exact h.sites ha

theorem Widens.context {p : Program} {s s' : State} (h : Widens s s') :
    (s.context p).Le (s'.context p) := by
  refine ⟨fun a t ha => ?_, rfl, ?_, fun _ _ h => h, ?_, fun _ _ h => h, ?_⟩
  · obtain ⟨ha, hground⟩ := Option.filter_eq_some_iff.mp ha
    exact Option.filter_eq_some_iff.mpr ⟨h.atomType ha, hground⟩
  · rintro j inst ⟨hfinal, hasked, d, b, type, hd, hb, htype, hrest⟩
    obtain ⟨d', hd', hsame⟩ := h.heads hd
    rw [hb] at hsame
    generalize hb' : d'.body = body at hsame
    cases hsame with
    | @block _ b' hdecl =>
        exact ⟨hfinal, h.asked hasked, d', b', type, hd', hb', hdecl.trans htype, hrest⟩
  · rintro j inst ⟨hfinal, hasked, d, k, type, hd, hk, htype, hrest⟩
    obtain ⟨d', hd', hsame⟩ := h.heads hd
    rw [hk] at hsame
    generalize hb' : d'.body = body at hsame
    cases hsame with
    | @closure _ k' hdecl =>
        exact ⟨hfinal, h.asked hasked, d', k', type, hd', hb', hdecl.trans htype, hrest⟩
  · rintro j index t ⟨hclosed, hasked, d, c, hd, hc, hrest⟩
    obtain ⟨d', hd', hsame⟩ := h.heads hd
    exact ⟨hclosed, hasked.imp_left h.asked, d', c, hd', (hsame.scheme? index).trans hc, hrest⟩

/-! ### What specialisation keeps true of types -/

/-- The working types of the names of the definition are their declared types, and none of them is
generic. -/
def Finished : DefnBody → Prop
  | .block b => b.generics = [] ∧ b.defining = b.declared
  | .closure k => k.generics = [] ∧ k.defining = k.declared
  | .top t => t.generics = [] ∧
      ∀ l ∈ t.lhs, l.generics = [] ∧ l.defining = l.declared.map Scheme.type
  | .external _ => True

/-- Is the definition no external? -/
def hasCode (p : Program) (id : DefnId) : Bool :=
  match (p.defns[id]?).map Defn.body with
  | some (.external _) => false
  | _ => true

/-- How many copies with code were asked for. -/
def State.made (p : Program) (s : State) : Nat := s.clones.countP fun x => hasCode p x.1.defn

/-- A copy is at a good reading of its source, or is an external. -/
inductive Headed (p : Program) (Good : DefnId → (Nat → Ty) → Prop) (k : CloneKey) :
    DefnBody → DefnBody → Prop
  | copy {b b' : DefnBody} {θ : Nat → Ty} (hθ : Assigns p.store θ) (hgood : Good k.defn θ)
      (hhead : HeadAt θ b b') : Headed p Good k b b'
  | external {e e' : Mil.External} (hown : k ≠ .own k.defn) (hfinal : e'.declared.Final) :
      Headed p Good k (.external e) (.external e')

theorem Headed.congr {p : Program} {Good : DefnId → (Nat → Ty) → Prop} {k : CloneKey}
    {b b' b'' : DefnBody} (h : Headed p Good k b b') (h' : SameHead b' b'') :
    Headed p Good k b b'' := by
  cases h with
  | copy hθ hgood hhead => exact .copy hθ hgood (hhead.congr h')
  | external hown hfinal =>
      cases h' with
      | external => exact .external hown hfinal

/-- What specialisation keeps true of types while the requests `extra` are being met. Copies have
the types that they were asked for, no two were asked for alike, and those that do not wait are
finished. -/
structure Typed (p : Program) (Good : DefnId → (Nat → Ty) → Prop) (extra : List Pending)
    (s : State) : Prop where
  store : s.program.store = p.store
  start : Widens (.start p) s
  keys : (s.clones.map Prod.fst).Nodup
  heads : ∀ {k : CloneKey} {j : DefnId}, (k, j) ∈ s.clones → ∃ d d', p.defns[k.defn]? = some d ∧
    s.program.defns[j]? = some d' ∧ (k = .own k.defn ∨ KeyText p.store k d'.body) ∧
    Headed p Good k d.body d'.body
  requests : ∀ {q : Pending}, q ∈ extra ++ s.queue → ∃ d d', p.defns[q.source]? = some d ∧
    s.program.defns[q.clone]? = some d' ∧ ClosedSubst q.subst ∧
    Good q.source (valuation p.store q.subst) ∧
    HeadAt (valuation p.store q.subst) d.body d'.body
  filled : ∀ {k : CloneKey} {j : DefnId}, (k, j) ∈ s.clones → ¬ Waits (extra ++ s.queue) j →
    ∃ d', s.program.defns[j]? = some d' ∧ Finished d'.body ∧ DefnHas (s.context p) d'.body
  prims : ∀ {i : Nat} {g : Prim}, (i, g) ∈ s.prims → g.type.Final

/-- More is recorded, and every copy with code that was asked for waits. -/
structure Steps (p : Program) (s s' : State) : Prop where
  widens : Widens s s'
  count : s'.queue.length + s.made p = s.queue.length + s'.made p

theorem Steps.refl (p : Program) (s : State) : Steps p s s := ⟨.refl s, rfl⟩

theorem Steps.trans {p : Program} {s₁ s₂ s₃ : State} (h : Steps p s₁ s₂) (h' : Steps p s₂ s₃) :
    Steps p s₁ s₃ :=
  ⟨h.widens.trans h'.widens, by have := h.count; have := h'.count; omega⟩

section Typed

variable {p : Program} {Good : DefnId → (Nat → Ty) → Prop} {extra : List Pending} {s s' : State}

theorem typed_start : Typed p Good [] (.start p) where
  store := rfl
  start := .refl _
  keys := .nil
  heads h := nomatch h
  requests h := nomatch h
  filled h := nomatch h
  prims h := nomatch h

/-- Types are recorded and primitives copied, and nothing is asked for. -/
theorem Typed.record (h : Typed p Good extra s) (hwidens : Widens s s')
    (hstore : s'.program.store = s.program.store) (hdefns : s'.program.defns = s.program.defns)
    (hclones : s'.clones = s.clones) (hqueue : s'.queue = s.queue)
    (hprims : ∀ {i : Nat} {g : Prim}, (i, g) ∈ s'.prims → g.type.Final) :
    Steps p s s' ∧ Typed p Good extra s' := by
  refine ⟨⟨hwidens, ?_⟩, hstore.trans h.store, h.start.trans hwidens, ?_, ?_, ?_, ?_, hprims⟩
  · rw [hqueue, State.made, State.made, hclones]
  · rw [hclones]
    exact h.keys
  · intro k j hk
    rw [hclones] at hk
    rw [hdefns]
    exact h.heads hk
  · intro q hq
    rw [hqueue] at hq
    rw [hdefns]
    exact h.requests hq
  · intro k j hk hnot
    rw [hclones] at hk
    rw [hqueue] at hnot
    obtain ⟨d', hd', hfinished, hhas⟩ := h.filled hk hnot
    exact ⟨d', hdefns ▸ hd', hfinished, hhas.mono hwidens.context⟩

/-- A copy is asked for, with a request unless it is complete. -/
theorem Typed.ask (h : Typed p Good extra s) (k : CloneKey) (c : DefnId) (added : Option Pending)
    {d d' : Defn} (hstore : s'.program.store = s.program.store)
    (htemps : s'.program.temps = s.program.temps) (hsites : s'.program.sites = s.program.sites)
    (hentries : s'.program.entries = s.program.entries)
    (hdefns : ∀ {j : DefnId} {e : Defn}, s.program.defns[j]? = some e →
      s'.program.defns[j]? = some e)
    (hclones : s'.clones = (k, c) :: s.clones) (hqueue : s'.queue = s.queue ++ added.toList)
    (hprims : s'.prims = s.prims) (hfresh : s.clones.lookup k = none)
    (hd : p.defns[k.defn]? = some d) (hd' : s'.program.defns[c]? = some d')
    (hkey : k = .own k.defn ∨ KeyText p.store k d'.body) (hheaded : Headed p Good k d.body d'.body)
    (hcode : hasCode p k.defn = added.isSome)
    (hadded : ∀ q, added = some q → q.source = k.defn ∧ q.clone = c ∧ ClosedSubst q.subst ∧
      Good q.source (valuation p.store q.subst) ∧
      HeadAt (valuation p.store q.subst) d.body d'.body)
    (hfilled : added = none → Finished d'.body ∧ DefnHas (s'.context p) d'.body) :
    Steps p s s' ∧ Typed p Good extra s' := by
  have hwidens : Widens s s' := by
    refine ⟨hentries, fun ht => ?_, fun hx => ?_, fun x hx => ?_, fun {j e} he => ⟨e, hdefns he, .refl _⟩⟩
    · rw [htemps]
      exact ht
    · rw [hsites]
      exact hx
    · rw [hclones]
      exact .tail _ hx
  refine ⟨⟨hwidens, ?_⟩, hstore.trans h.store, h.start.trans hwidens, ?_, ?_, ?_, ?_, ?_⟩
  · rw [hqueue, State.made, State.made, hclones, List.countP_cons, hcode, List.length_append]
    cases added with
    | none => simp
    | some q =>
        simp
        omega
  · rw [hclones, List.map_cons, List.nodup_cons]
    refine ⟨fun hmem => ?_, h.keys⟩
    obtain ⟨⟨k', j⟩, hj, rfl⟩ := List.mem_map.mp hmem
    exact not_mem_clones_of_lookup hfresh hj
  · intro k' j hj
    rw [hclones] at hj
    rcases List.mem_cons.mp hj with heq | hj
    · cases heq
      exact ⟨d, d', hd, hd', hkey, hheaded⟩
    · obtain ⟨e, e', he, he', hrest⟩ := h.heads hj
      exact ⟨e, e', he, hdefns he', hrest⟩
  · intro q hq
    rw [hqueue, ← List.append_assoc, List.mem_append, Option.mem_toList] at hq
    rcases hq with hq | hq
    · obtain ⟨e, e', he, he', hrest⟩ := h.requests hq
      exact ⟨e, e', he, hdefns he', hrest⟩
    · obtain ⟨hsource, hclone, hrest⟩ := hadded q hq
      exact ⟨d, d', hsource ▸ hd, hclone ▸ hd', hrest⟩
  · intro k' j hj hnot
    rw [hclones] at hj
    rcases List.mem_cons.mp hj with heq | hj
    · cases heq
      cases added with
      | none => exact ⟨d', hd', hfilled rfl⟩
      | some q =>
          refine absurd ⟨q, ?_, (hadded q rfl).2.1⟩ hnot
          rw [hqueue]
          simp
    · obtain ⟨e, he, hfinished, hhas⟩ := h.filled hj fun ⟨q, hq, hqj⟩ => hnot ⟨q, by
        rw [hqueue, ← List.append_assoc]
        exact List.mem_append_left _ hq, hqj⟩
      exact ⟨e, hdefns he, hfinished, hhas.mono hwidens.context⟩
  · rw [hprims]
    exact h.prims

/-- The oldest request is taken from the queue. -/
theorem Typed.pop {q : Pending} {queue : List Pending} (h : Typed p Good [] s)
    (hqueue : s.queue = q :: queue) : Typed p Good [q] { s with queue } := by
  have hall : [q] ++ queue = [] ++ s.queue := hqueue.symm
  refine ⟨h.store, ⟨h.start.entries, h.start.temps, h.start.sites, h.start.clones, h.start.heads⟩, h.keys, h.heads,
    ?_, ?_, h.prims⟩
  · rw [hall]
    exact h.requests
  · rw [hall]
    exact h.filled

/-- A request is met by a definition of the type that was asked for. -/
theorem Typed.meet {q : Pending} {d' : Defn} {body : DefnBody} (h : Typed p Good [q] s)
    (hd' : s.program.defns[q.clone]? = some d') (hsame : SameHead d'.body body)
    (hfinished : Finished body) (hhas : DefnHas (s.context p) body) :
    Steps p s { s with program := s.program.setBody q.clone body } ∧
      Typed p Good [] { s with program := s.program.setBody q.clone body } := by
  have hget (j : DefnId) : (s.program.setBody q.clone body).defns[j]? =
      if q.clone = j then (s.program.defns[j]?).map fun d => { d with body }
      else s.program.defns[j]? := s.program.getElem?_setBody q.clone j body
  have hheads {j : DefnId} {d : Defn} (hd : s.program.defns[j]? = some d) :
      ∃ d'', (s.program.setBody q.clone body).defns[j]? = some d'' ∧ SameHead d.body d''.body := by
    rw [hget]
    by_cases hj : q.clone = j
    · subst hj
      rw [hd'] at hd ⊢
      cases hd
      exact ⟨{ d' with body }, by rw [if_pos rfl]; rfl, hsame⟩
    · exact ⟨d, by rw [if_neg hj, hd], .refl _⟩
  have hwidens : Widens s { s with program := s.program.setBody q.clone body } :=
    ⟨rfl, fun ht => ht, fun hx => hx, fun _ hx => hx, hheads⟩
  refine ⟨⟨hwidens, rfl⟩, h.store, h.start.trans hwidens, h.keys, fun {k j} hk => ?_,
    fun {q'} hq' => ?_, fun {k j} hk hnot => ?_, h.prims⟩
  · obtain ⟨e, e', he, he', hkey, hheaded⟩ := h.heads hk
    obtain ⟨e'', he'', hsame'⟩ := hheads he'
    exact ⟨e, e'', he, he'', hkey.imp_right (·.congr hsame'), hheaded.congr hsame'⟩
  · obtain ⟨e, e', he, he', hclosed, hgood, hhead⟩ := h.requests (.tail _ hq')
    obtain ⟨e'', he'', hsame'⟩ := hheads he'
    exact ⟨e, e'', he, he'', hclosed, hgood, hhead.congr hsame'⟩
  · by_cases hj : q.clone = j
    · subst hj
      refine ⟨{ d' with body }, ?_, hfinished, hhas.mono hwidens.context⟩
      show (s.program.setBody q.clone body).defns[q.clone]? = _
      rw [hget, if_pos rfl, hd']
      rfl
    · obtain ⟨e, he, hrest, hhas'⟩ := h.filled hk fun ⟨q', hq', hqj⟩ => by
        rcases List.mem_cons.mp hq' with rfl | hq'
        · exact hj hqj
        · exact hnot ⟨q', hq', hqj⟩
      refine ⟨e, ?_, hrest, hhas'.mono hwidens.context⟩
      show (s.program.setBody q.clone body).defns[j]? = _
      rw [hget, if_neg hj, he]

end Typed

/-- From any state that has grown out of `s₀`, the step succeeds, keeps true what specialisation
keeps true, and gives what it should. -/
def Meets {α : Type} (p : Program) (Good : DefnId → (Nat → Ty) → Prop) (extra : List Pending)
    (s₀ : State) (x : MonoM α) (Q : State → α → Prop) : Prop :=
  ∀ s, Steps p s₀ s → Tracks p extra s → Typed p Good extra s → ∃ a s', Yields x s a s' ∧
    Steps p s s' ∧ Tracks p extra s' ∧ Typed p Good extra s' ∧ Q s' a

section Meets

variable {α β : Type} {p : Program} {Good : DefnId → (Nat → Ty) → Prop} {extra : List Pending}
  {s₀ : State} {x : MonoM α} {Q : State → α → Prop} {R : State → β → Prop}

theorem Meets.bind {f : α → MonoM β} (hx : Meets p Good extra s₀ x Q)
    (hf : ∀ a s₁, Steps p s₀ s₁ → Q s₁ a → Meets p Good extra s₁ (f a) R) :
    Meets p Good extra s₀ (x >>= f) R := by
  intro s hs ht htyped
  obtain ⟨a, s₁, hxa, hs₁, ht₁, htyped₁, hQ⟩ := hx s hs ht htyped
  obtain ⟨b, s', hfb, hs', ht', htyped', hR⟩ :=
    hf a s₁ (hs.trans hs₁) hQ s₁ (.refl p s₁) ht₁ htyped₁
  exact ⟨b, s', yields_bind.mpr ⟨a, s₁, hxa, hfb⟩, hs₁.trans hs', ht', htyped', hR⟩

theorem Meets.pure {a : α} (h : ∀ s, Steps p s₀ s → Q s a) :
    Meets p Good extra s₀ (Pure.pure a) Q :=
  fun s hs ht htyped => ⟨a, s, yields_pure.mpr ⟨rfl, rfl⟩, .refl p s, ht, htyped, h s hs⟩

theorem Meets.imp (hx : Meets p Good extra s₀ x Q) {Q' : State → α → Prop}
    (h : ∀ s a, Q s a → Q' s a) : Meets p Good extra s₀ x Q' := by
  intro s hs ht htyped
  obtain ⟨a, s', hxa, hs', ht', htyped', hQ⟩ := hx s hs ht htyped
  exact ⟨a, s', hxa, hs', ht', htyped', h s' a hQ⟩

/-- A step that only looks at the state. -/
theorem Meets.of_same (h : ∀ s, Steps p s₀ s → Tracks p extra s → Typed p Good extra s →
    ∃ a, Yields x s a s ∧ Q s a) : Meets p Good extra s₀ x Q := by
  intro s hs ht htyped
  obtain ⟨a, hxa, hQ⟩ := h s hs ht htyped
  exact ⟨a, s, hxa, .refl p s, ht, htyped, hQ⟩

theorem Meets.mapM {f : α → MonoM β} {C : State → α → β → Prop} {as : List α}
    (hC : ∀ {s s' a b}, Steps p s s' → C s a b → C s' a b)
    (hf : ∀ a ∈ as, ∀ s₁, Steps p s₀ s₁ → Meets p Good extra s₁ (f a) fun s b => C s a b) :
    Meets p Good extra s₀ (as.mapM f) fun s bs => List.Forall₂ (C s) as bs := by
  induction as generalizing s₀ with
  | nil =>
      rw [List.mapM_nil]
      exact .pure fun _ _ => .nil
  | cons a as ih =>
      rw [List.mapM_cons]
      refine (hf a (.head _) s₀ (.refl p s₀)).bind fun b s₁ hs₁ hb => ?_
      refine (ih fun a' ha' s₂ hs₂ => hf a' (.tail _ ha') s₂ (hs₁.trans hs₂)).bind
        fun bs s₂ hs₂ hbs => ?_
      exact .pure fun s hs => .cons (hC (hs₂.trans hs) hb) (hbs.imp fun _ _ h => hC hs h)

theorem Meets.optionMapM {f : α → MonoM β} {C : State → α → β → Prop} {o : Option α}
    (hC : ∀ {s s' a b}, Steps p s s' → C s a b → C s' a b)
    (hf : ∀ a, o = some a → Meets p Good extra s₀ (f a) fun s b => C s a b) :
    Meets p Good extra s₀ (o.mapM f) fun s r => Option.Rel (C s) o r := by
  cases o with
  | none => exact .pure fun _ _ => .none
  | some a =>
      have hmap : Option.mapM f (some a) = f a >>= fun b => Pure.pure (some b) := rfl
      rw [hmap]
      exact (hf a rfl).bind fun b s₁ _ hb => .pure fun s hs => .some (hC hs hb)

end Meets

end Mono

end Mil
