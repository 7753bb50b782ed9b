import Mil.Program.Basic
import Mil.Proofs.Ty.Instance

/-!
What a body is apart from its types. Checking records instances in a body and changes nothing else,
so whatever depends on the bare body alone outlives it: which temporaries are bound and read, and
that a body is formed. In a formed body no temporary is read before it is bound, and primitives and
constructors are what their names say.
-/

namespace Mil

/-- What stands in an array still stands there after a push. -/
theorem getElem?_push_of_some {α : Type} {xs : Array α} {i : Nat} {a : α} (h : xs[i]? = some a)
    (x : α) : (xs.push x)[i]? = some a := by
  obtain ⟨hlt, rfl⟩ := Array.getElem?_eq_some_iff.mp h
  exact Array.getElem?_push_lt hlt

theorem Program.getElem?_setBody (p : Program) (id j : DefnId) (body : DefnBody) :
    (p.setBody id body).defns[j]? =
      if id = j then (p.defns[j]?).map fun d => { d with body } else p.defns[j]? := by
  rw [setBody, Array.getElem?_modify]

/-- New temporaries have the numbers that come next. -/
theorem TempTypes.freshAll_spec (temps : TempTypes) (ts : List (Option Ty)) :
    (temps.freshAll ts).2.size = temps.size + ts.length ∧
      (temps.freshAll ts).1 = List.range' temps.size ts.length := by
  induction ts generalizing temps with
  | nil => exact ⟨rfl, rfl⟩
  | cons t ts ih =>
      obtain ⟨hsize, hvars⟩ := ih (temps.push t)
      rw [Array.size_push] at hsize hvars
      simp only [freshAll, fresh, List.length_cons]
      exact ⟨by omega, by rw [hvars, List.range'_succ]⟩

/-- A call without its recorded instance. -/
def BlockCall.bare (c : BlockCall) : BlockCall := { c with inst := none }

/-- A tail without its recorded instance. -/
def Tail.bare : Tail → Tail
  | .ret args => .ret args
  | .call c => .call c.bare
  | .prim q args _ => .prim q args none
  | .alloc id args _ => .alloc id args none
  | .data k args _ => .data k args none
  | .enter fn args => .enter fn args
  | .sel k field arg _ => .sel k field arg none

/-- A body without its recorded instances. -/
def Code.bare : Code → Code
  | .bind vars tail next => .bind vars tail.bare next.bare
  | .done tail => .done tail.bare
  | .branch cond t f => .branch cond t.bare f.bare
  | .case scrut alts default =>
    .case scrut (alts.map fun alt => (alt.1, alt.2.bare)) (default.map BlockCall.bare)

theorem Tail.atoms_bare (t : Tail) : t.bare.atoms = t.atoms := by cases t <;> rfl

theorem Code.atoms_bare (c : Code) : c.bare.atoms = c.atoms := by
  induction c with
  | bind vars tail next ih => rw [bare, atoms, atoms, ih, tail.atoms_bare]
  | done tail => exact tail.atoms_bare
  | branch cond t f => rfl
  | case scrut alts default =>
      have halts : (alts.map fun alt => (alt.1, alt.2.bare)).flatMap (fun alt => alt.2.args) =
          alts.flatMap fun alt => alt.2.args := by
        rw [List.flatMap_map]
        rfl
      cases default with
      | none => simpa [bare, atoms, calls, List.flatMap_map] using halts
      | some c =>
          simp only [bare, atoms, calls, List.flatMap_append, List.flatMap_map]
          rfl

theorem Code.binders_bare (c : Code) : c.bare.binders = c.binders := by
  induction c with
  | bind vars tail next ih => rw [bare, binders, binders, ih]
  | done tail => rfl
  | branch cond t f => rfl
  | case scrut alts default => rfl

theorem Tail.atoms_eq_of_bare {t t' : Tail} (h : t'.bare = t.bare) : t'.atoms = t.atoms := by
  rw [← t'.atoms_bare, h, t.atoms_bare]

theorem Code.atoms_eq_of_bare {c c' : Code} (h : c'.bare = c.bare) : c'.atoms = c.atoms := by
  rw [← c'.atoms_bare, h, c.atoms_bare]

theorem Code.binders_eq_of_bare {c c' : Code} (h : c'.bare = c.bare) : c'.binders = c.binders := by
  rw [← c'.binders_bare, h, c.binders_bare]

/-! ### Formed bodies -/

/-- A built-in primitive, or one that the program declares. -/
def Prim.Standard (q : Prim) : Prop :=
  q.op = .user ∨ (q.type = q.op.type ∧ q.purity = q.op.purity)

/-- A constructor builds values of a data type whose parameters are all that its type quantifies. -/
def Cfun.Shaped (k : Cfun) : Prop :=
  ∃ c, (c = .unit ∨ ∃ name, c = .data name) ∧
    k.type.result = Ty.apply (.con c) ((List.range k.type.kinds.length).map .gen)

/-- All constructors build values of data types. -/
def Env.Regular (E : Env) : Prop := ∀ name k, E.cfun? name = some k → k.Shaped

/-- Operands that are temporaries are in scope. -/
def InScope (scope : List Temp) (as : List Atom) : Prop := ∀ v, .temp v ∈ as → v ∈ scope

/-- The primitive or constructor of a tail is what its name says. -/
def Tail.Named (E : Env) (T : PrimTable) : Tail → Prop
  | .prim q _ _ => q.Standard ∧ T.prims[q.index]? = some q
  | .data k _ _ => E.cfun? k.name = some k
  | .sel k _ _ _ => E.cfun? k.name = some k
  | _ => True

/-- The operands of a tail are in scope, and its primitive or constructor is what its name says. -/
structure Tail.Formed (E : Env) (T : PrimTable) (scope : List Temp) (t : Tail) : Prop where
  scope : InScope scope t.atoms
  named : t.Named E T

/-- The parts of a body are formed, each in the scope that the bindings before it leave. -/
def Code.Formed (E : Env) (T : PrimTable) : List Temp → Code → Prop
  | scope, .bind vars tail next => tail.Formed E T scope ∧ next.Formed E T (vars ++ scope)
  | scope, .done tail => tail.Formed E T scope
  | scope, .branch cond t f => InScope scope (Code.branch cond t f).atoms
  | scope, .case scrut alts default => InScope scope (Code.case scrut alts default).atoms ∧
      ∀ alt ∈ alts, E.cfun? alt.1.name = some alt.1

theorem InScope.mono {scope scope' : List Temp} {as : List Atom} (h : InScope scope as)
    (hs : scope ⊆ scope') : InScope scope' as :=
  fun v hv => hs (h v hv)

theorem InScope.append {scope : List Temp} {as bs : List Atom} (ha : InScope scope as)
    (hb : InScope scope bs) : InScope scope (as ++ bs) :=
  fun v hv => (List.mem_append.mp hv).elim (ha v) (hb v)

theorem Code.Formed.mono {E : Env} {T : PrimTable} {scope scope' : List Temp} {c : Code} (h : c.Formed E T scope)
    (hs : scope ⊆ scope') : c.Formed E T scope' := by
  induction c generalizing scope scope' with
  | bind vars tail next ih =>
      refine ⟨⟨h.1.scope.mono hs, h.1.named⟩, ih h.2 ?_⟩
      exact List.append_subset.mpr ⟨List.subset_append_left _ _,
        fun v hv => List.mem_append_right _ (hs hv)⟩
  | done tail => exact ⟨h.scope.mono hs, h.named⟩
  | branch cond t f => exact InScope.mono h hs
  | case scrut alts default => exact ⟨h.1.mono hs, h.2⟩

theorem Tail.formed_bare {E : Env} {T : PrimTable} {scope : List Temp} {t : Tail} :
    t.bare.Formed E T scope ↔ t.Formed E T scope := by
  have hnamed : t.bare.Named E T ↔ t.Named E T := by cases t <;> exact Iff.rfl
  exact ⟨fun h => ⟨t.atoms_bare ▸ h.scope, hnamed.mp h.named⟩,
    fun h => ⟨t.atoms_bare.symm ▸ h.scope, hnamed.mpr h.named⟩⟩

theorem Code.formed_bare {E : Env} {T : PrimTable} {scope : List Temp} {c : Code} :
    c.bare.Formed E T scope ↔ c.Formed E T scope := by
  induction c generalizing scope with
  | bind vars tail next ih => exact and_congr Tail.formed_bare ih
  | done tail => exact Tail.formed_bare
  | branch cond t f => exact Iff.rfl
  | case scrut alts default =>
      have hatoms := (Code.case scrut alts default).atoms_bare
      rw [bare] at hatoms ⊢
      rw [Formed, Formed, hatoms]
      refine and_congr Iff.rfl ?_
      simp only [List.forall_mem_map]

theorem Tail.Formed.of_bare {E : Env} {T : PrimTable} {scope : List Temp} {t t' : Tail} (h : t.Formed E T scope)
    (ht : t'.bare = t.bare) : t'.Formed E T scope :=
  Tail.formed_bare.mp (ht ▸ Tail.formed_bare.mpr h)

theorem Code.Formed.of_bare {E : Env} {T : PrimTable} {scope : List Temp} {c c' : Code} (h : c.Formed E T scope)
    (hc : c'.bare = c.bare) : c'.Formed E T scope :=
  Code.formed_bare.mp (hc ▸ Code.formed_bare.mpr h)

/-! ### Definitions -/

namespace DefnBody

/-- The parameters and arguments. -/
def inputs : DefnBody → List Temp
  | .block b => b.params
  | .closure k => k.params ++ k.args
  | _ => []

/-- The operands of the body. -/
def atoms : DefnBody → List Atom
  | .block b => (b.body.map Code.atoms).getD []
  | .closure k => (k.tail.map Tail.atoms).getD []
  | .top t => (t.tail.map Tail.atoms).getD []
  | .external _ => []

/-- The temporaries that the body binds. -/
def binders : DefnBody → List Temp
  | .block b => (b.body.map Code.binders).getD []
  | _ => []

/-- The body, if it is there, is formed in the scope of its inputs, and an external has no
implementation. -/
def Formed (E : Env) (T : PrimTable) : DefnBody → Prop
  | .block b => ∀ code, b.body = some code → code.Formed E T b.params
  | .closure k => ∀ tail, k.tail = some tail → tail.Formed E T (k.params ++ k.args)
  | .top t => ∀ tail, t.tail = some tail → tail.Formed E T []
  | .external e => e.impl = none

/-- The two definitions have the same inputs and the same bare body. -/
inductive SameShape : DefnBody → DefnBody → Prop
  | block {b b' : Block} (hparams : b'.params = b.params)
      (hbody : b'.body.map Code.bare = b.body.map Code.bare) : SameShape (.block b) (.block b')
  | closure {k k' : Closure} (hparams : k'.params = k.params) (hargs : k'.args = k.args)
      (htail : k'.tail.map Tail.bare = k.tail.map Tail.bare) : SameShape (.closure k) (.closure k')
  | top {t t' : TopLevel} (htail : t'.tail.map Tail.bare = t.tail.map Tail.bare) :
      SameShape (.top t) (.top t')
  | external {e : External} : SameShape (.external e) (.external e)

section SameShape

variable {b b' : DefnBody}

theorem SameShape.refl (b : DefnBody) : SameShape b b := by
  cases b with
  | block b => exact .block rfl rfl
  | closure k => exact .closure rfl rfl rfl
  | top t => exact .top rfl
  | external e => exact .external

/-- Parts with the same bare part give the same, if nothing but the bare part counts. -/
theorem map_eq_of_bare {α β : Type} {bare : α → α} {f : α → β}
    (hf : ∀ {a a'}, bare a' = bare a → f a' = f a) {o o' : Option α}
    (h : o'.map bare = o.map bare) : o'.map f = o.map f := by
  cases o with
  | none => rw [Option.map_eq_none_iff.mp h]
  | some a =>
      obtain ⟨a', rfl, ha⟩ := Option.map_eq_some_iff.mp h
      rw [Option.map_some, Option.map_some, hf ha]

theorem SameShape.inputs (h : SameShape b b') : b'.inputs = b.inputs := by
  cases h with
  | block hparams hbody => exact hparams
  | closure hparams hargs htail => rw [DefnBody.inputs, DefnBody.inputs, hparams, hargs]
  | top htail => rfl
  | external => rfl

theorem SameShape.atoms (h : SameShape b b') : b'.atoms = b.atoms := by
  cases h with
  | block hparams hbody =>
      rw [DefnBody.atoms, DefnBody.atoms, map_eq_of_bare Code.atoms_eq_of_bare hbody]
  | closure hparams hargs htail =>
      rw [DefnBody.atoms, DefnBody.atoms, map_eq_of_bare Tail.atoms_eq_of_bare htail]
  | top htail =>
      rw [DefnBody.atoms, DefnBody.atoms, map_eq_of_bare Tail.atoms_eq_of_bare htail]
  | external => rfl

theorem SameShape.binders (h : SameShape b b') : b'.binders = b.binders := by
  cases h with
  | block hparams hbody =>
      rw [DefnBody.binders, DefnBody.binders, map_eq_of_bare Code.binders_eq_of_bare hbody]
  | closure hparams hargs htail => rfl
  | top htail => rfl
  | external => rfl

theorem SameShape.formed {E : Env} {T : PrimTable} (h : SameShape b b') (hb : b.Formed E T) : b'.Formed E T := by
  cases h with
  | block hparams hbody =>
      intro code hcode
      rw [hcode] at hbody
      obtain ⟨code₀, hcode₀, hbare⟩ := Option.map_eq_some_iff.mp hbody.symm
      exact hparams ▸ (hb code₀ hcode₀).of_bare hbare.symm
  | closure hparams hargs htail =>
      intro tail hk
      rw [hk] at htail
      obtain ⟨tail₀, htail₀, hbare⟩ := Option.map_eq_some_iff.mp htail.symm
      exact hparams ▸ hargs ▸ (hb tail₀ htail₀).of_bare hbare.symm
  | top htail =>
      intro tail ht
      rw [ht] at htail
      obtain ⟨tail₀, htail₀, hbare⟩ := Option.map_eq_some_iff.mp htail.symm
      exact (hb tail₀ htail₀).of_bare hbare.symm
  | external => exact hb

end SameShape

end DefnBody

end Mil
