import Mil.Proofs.Program.Outline
import Mil.Proofs.Ty.Reader
import Mil.Proofs.Typing.Derivation

/-!
What inference finds in a program and what it does to it. Names can be seen at instances of their
declared types, or at their working types while these are not quantified yet. A step of inference
extends the store and records types where there were none, so that derivations stay what they are.
-/

namespace Mil

/-- The place of a reference. -/
def Atom.site? : Atom → Option SiteId
  | .top _ _ site => some site
  | _ => none

/-- How a name can be seen: its declared type, if there is one, and otherwise its working type. -/
structure Interface where
  declared : Option (List Kind × List Ty)
  working : Option (List Ty)

namespace Interface

/-- Declared types are closed, and working types that can be seen are over the variables from `lo`
on. -/
def Visible (i : Interface) (s : Store) (lo : Nat) : Prop :=
  match i.declared, i.working with
  | some (kinds, parts), _ => ClosedUnder kinds.length parts
  | none, some ts => s.Fits lo ts
  | none, none => True

/-- The types are an instance of the declared type, or the working type itself. -/
def SeenAs (i : Interface) (s : Store) (inst : List Ty) : Prop :=
  match i.declared with
  | some (kinds, parts) => s.IsInstance kinds parts inst
  | none => i.working = some inst

variable {i : Interface} {s s' : Store} {lo : Nat} {inst : List Ty}

theorem Visible.refines (h : i.Visible s lo) (hs : s.Refines lo s') : i.Visible s' lo := by
  unfold Visible at h ⊢
  split at h
  · exact h
  · exact hs.fits h
  · trivial

theorem SeenAs.of_extends (h : i.SeenAs s inst) (hs : s.Extends s') : i.SeenAs s' inst := by
  unfold SeenAs at h ⊢
  split at h
  · exact h.of_extends hs
  · exact h

end Interface

/-- The interface of a block. -/
def Block.interface (b : Block) : Interface :=
  ⟨b.declared.map fun t => (t.kinds, t.parts), b.defining.map BlockType.parts⟩

/-- The interface of a closure. -/
def Closure.interface (k : Closure) : Interface :=
  ⟨k.declared.map fun t => (t.kinds, t.parts), k.defining.map AllocType.parts⟩

/-- The interface of a name of a top-level definition. -/
def TopName.interface (l : TopName) : Interface :=
  ⟨l.declared.map fun c => (c.kinds, c.parts), l.defining.map fun t => [t]⟩

/-- The interface of an external. -/
def External.interface (e : External) : Interface := ⟨some (e.declared.kinds, e.declared.parts), none⟩

/-- The interfaces of the names of a definition. -/
def DefnBody.interfaces : DefnBody → List Interface
  | .block b => [b.interface]
  | .closure k => [k.interface]
  | .top t => t.lhs.map TopName.interface
  | .external e => [e.interface]

/-- The interface of the value that a reference names. -/
def DefnBody.valueInterface? : DefnBody → Nat → Option Interface
  | .top t, index => (t.lhs[index]?).map TopName.interface
  | .external e, _ => some e.interface
  | _, _ => none

theorem DefnBody.mem_interfaces_of_valueInterface? {b : DefnBody} {index : Nat} {i : Interface}
    (h : b.valueInterface? index = some i) : i ∈ b.interfaces := by
  cases b with
  | block b => cases h
  | closure k => cases h
  | top t =>
      obtain ⟨l, hl, rfl⟩ := Option.map_eq_some_iff.mp h
      exact List.mem_map_of_mem (List.mem_of_getElem? hl)
  | external e =>
      cases h
      exact .head _

/-- The types of the primitives and constructors that a tail names are closed. -/
def Tail.SignaturesClosed : Tail → Prop
  | .prim q _ _ => ClosedUnder q.type.kinds.length q.type.parts
  | .data k _ _ => ClosedUnder k.type.kinds.length k.type.parts
  | .sel k _ _ _ => ClosedUnder k.type.kinds.length k.type.parts
  | _ => True

/-- The types of the primitives and constructors that a body names are closed. -/
def Code.SignaturesClosed : Code → Prop
  | .bind _ tail next => tail.SignaturesClosed ∧ next.SignaturesClosed
  | .done tail => tail.SignaturesClosed
  | .branch _ _ _ => True
  | .case _ alts _ => ∀ alt ∈ alts, ClosedUnder alt.1.type.kinds.length alt.1.type.parts

/-- The places of the references among operands. -/
def sitesOf (as : List Atom) : List SiteId := as.filterMap Atom.site?

/-- The rules in a program whose variables are read by an assignment: uses are instances of declared
types, or are at the working type of what has no declared type yet. -/
def Program.working (p : Program) (θ : Nat → Ty) : Typing.Context where
  atom := p.atomType
  read := Ty.mapVars θ
  block id inst := ∃ d b, p.defns[id]? = some d ∧ d.body = .block b ∧
    b.interface.SeenAs p.store inst.parts
  prim q inst := ClosedUnder q.type.kinds.length q.type.parts ∧
    p.store.IsInstance q.type.kinds q.type.parts inst.parts
  closure id inst := ∃ d k, p.defns[id]? = some d ∧ d.body = .closure k ∧
    k.interface.SeenAs p.store inst.parts
  cfun k inst := ClosedUnder k.type.kinds.length k.type.parts ∧
    p.store.IsInstance k.type.kinds k.type.parts inst.parts
  top id index t := ∃ d i, p.defns[id]? = some d ∧ d.body.valueInterface? index = some i ∧
    i.SeenAs p.store [t]

namespace Typing

/-! ### What inference may rely on, and what it does to a program -/

/-- The store is regular, the temporaries of a body have room and types over the variables from `lo`
on, and all names can be seen at closed types or at types over these variables. -/
structure Scene (lo : Nat) (T : List Temp) (p : Program) : Prop where
  regular : p.store.Regular lo
  temps : ∀ t ∈ T, ∀ τ, p.temps.typeOf t = some τ → τ.Within lo p.store.cells.size
  room : ∀ t ∈ T, t < p.temps.size
  visible : ∀ (id : DefnId) (d : Defn), p.defns[id]? = some d →
    ∀ i ∈ d.body.interfaces, i.Visible p.store lo

/-- Inference extends the store and records types for temporaries of `T` and places of `S` that had
none. -/
structure Advances (lo : Nat) (T : List Temp) (S : List SiteId) (p p' : Program) : Prop where
  scene : Scene lo T p'
  store : p.store.Refines lo p'.store
  env : p'.env = p.env
  prims : p'.prims = p.prims
  defns : p'.defns = p.defns
  atoms : ∀ a t, p.atomType a = some t → p'.atomType a = some t
  temps_size : p'.temps.size = p.temps.size
  temps : ∀ t, t ∉ T → p'.temps.typeOf t = p.temps.typeOf t
  sites_size : p'.sites.size = p.sites.size
  sites : ∀ x : SiteId, x ∉ S → p'.sites[x]? = p.sites[x]?

section Advances

variable {lo : Nat} {T : List Temp} {S S₁ S₂ : List SiteId} {p p' p₁ p₂ p₃ : Program}

theorem Advances.refl (h : Scene lo T p) : Advances lo T [] p p :=
  ⟨h, .refl h.regular, rfl, rfl, rfl, fun _ _ h => h, rfl, fun _ _ => rfl, rfl, fun _ _ => rfl⟩

theorem Advances.trans (h : Advances lo T S₁ p₁ p₂) (h' : Advances lo T S₂ p₂ p₃) :
    Advances lo T (S₁ ++ S₂) p₁ p₃ where
  scene := h'.scene
  store := h.store.trans h'.store
  env := h'.env.trans h.env
  prims := h'.prims.trans h.prims
  defns := h'.defns.trans h.defns
  atoms a t ha := h'.atoms a t (h.atoms a t ha)
  temps_size := h'.temps_size.trans h.temps_size
  temps t ht := (h'.temps t ht).trans (h.temps t ht)
  sites_size := h'.sites_size.trans h.sites_size
  sites x hx := by
    rw [List.mem_append, not_or] at hx
    exact (h'.sites x hx.2).trans (h.sites x hx.1)

theorem Advances.mono (h : Advances lo T S₁ p p') (hS : S₁ ⊆ S₂) : Advances lo T S₂ p p' :=
  { h with sites := fun x hx => h.sites x fun hx' => hx (hS hx') }

/-- A step that only refines the store. -/
theorem Advances.of_store {s : Store} (h : Scene lo T p) (hs : p.store.Refines lo s) :
    Advances lo T [] p { p with store := s } where
  scene := {
    regular := hs.regular
    temps := fun t ht τ hτ => hs.within (h.temps t ht τ hτ)
    room := h.room
    visible := fun id d hd i hi => (h.visible id d hd i hi).refines hs }
  store := hs
  env := rfl
  prims := rfl
  defns := rfl
  atoms a t ha := by cases a <;> exact ha
  temps_size := rfl
  temps _ _ := rfl
  sites_size := rfl
  sites _ _ := rfl

/-- Derivations survive what inference does. -/
theorem Advances.le (h : Advances lo T S p p') (θ : Nat → Ty) :
    (p.working θ).Le (p'.working θ) where
  atom := h.atoms
  read := rfl
  block := by
    rintro id inst ⟨d, b, hd, hb, hseen⟩
    exact ⟨d, b, by rw [h.defns, hd], hb, hseen.of_extends h.store.grows⟩
  prim q inst hq := ⟨hq.1, hq.2.of_extends h.store.grows⟩
  closure := by
    rintro id inst ⟨d, k, hd, hk, hseen⟩
    exact ⟨d, k, by rw [h.defns, hd], hk, hseen.of_extends h.store.grows⟩
  cfun k inst hk := ⟨hk.1, hk.2.of_extends h.store.grows⟩
  top := by
    rintro id index t ⟨d, i, hd, hi, hseen⟩
    exact ⟨d, i, by rw [h.defns, hd], hi, hseen.of_extends h.store.grows⟩

end Advances

/-- No type has been recorded yet at the places of the references among operands, and each of them
occurs once. -/
structure Unrecorded (p : Program) (as : List Atom) : Prop where
  nodup : (sitesOf as).Nodup
  none : ∀ x ∈ sitesOf as, p.sites[x]? = some Option.none

section Unrecorded

variable {lo : Nat} {T : List Temp} {p p' : Program} {as bs : List Atom}

theorem sitesOf_append (as bs : List Atom) : sitesOf (as ++ bs) = sitesOf as ++ sitesOf bs :=
  List.filterMap_append ..

theorem Unrecorded.left (h : Unrecorded p (as ++ bs)) : Unrecorded p as where
  nodup := (List.nodup_append.mp (sitesOf_append as bs ▸ h.nodup)).1
  none x hx := h.none x (by rw [sitesOf_append]; exact List.mem_append_left _ hx)

/-- After the first operands have been recorded, the others have not. -/
theorem Unrecorded.right (h : Unrecorded p (as ++ bs)) (hp : Advances lo T (sitesOf as) p p') :
    Unrecorded p' bs where
  nodup := (List.nodup_append.mp (sitesOf_append as bs ▸ h.nodup)).2.1
  none x hx := by
    have hdisj := (List.nodup_append.mp (sitesOf_append as bs ▸ h.nodup)).2.2
    rw [hp.sites x fun hx' => hdisj x hx' x hx rfl]
    exact h.none x (by rw [sitesOf_append]; exact List.mem_append_right _ hx)

theorem Unrecorded.after (h : Unrecorded p as) (hp : Advances lo T [] p p') : Unrecorded p' as where
  nodup := h.nodup
  none x hx := by
    rw [hp.sites x List.not_mem_nil]
    exact h.none x hx

end Unrecorded

/-! ### Steps of inference that go well -/

section Steps

variable {α : Type} {p p' : Program}

theorem yields_withStore {f : Store → α × Store} {a : α} :
    Yields (withStore f) p a p' ↔ a = (f p.store).1 ∧ p' = { p with store := (f p.store).2 } := by
  unfold Yields
  constructor
  · intro h
    cases h
    exact ⟨rfl, rfl⟩
  · rintro ⟨rfl, rfl⟩
    rfl

theorem yields_within {place : Place} {x : Infer α} {a : α} :
    Yields (within place x) p a p' ↔ Yields x p a p' := by
  unfold Yields within
  constructor
  · intro h
    split at h
    · cases h
    · exact h
  · intro h
    rw [h]

theorem yields_unified {f : Store → Except UnifyError Unit × Store} :
    Yields (unified f) p () p' ↔
      f p.store = (.ok (), (f p.store).2) ∧ p' = { p with store := (f p.store).2 } := by
  rw [unified, yields_bind]
  constructor
  · rintro ⟨r, p₁, hr, h⟩
    obtain ⟨rfl, rfl⟩ := yields_withStore.mp hr
    rcases hf : f p.store with ⟨e | u, s⟩
    · rw [hf] at h
      exact absurd h not_yields_throw
    · rw [hf] at h
      exact ⟨rfl, (yields_pure.mp h).2.symm⟩
  · rintro ⟨hok, rfl⟩
    refine ⟨_, _, yields_withStore.mpr ⟨rfl, rfl⟩, ?_⟩
    rw [hok]
    exact yields_pure.mpr ⟨rfl, rfl⟩

end Steps

/-- The step leaves a result and another program. -/
def Leaves {α : Type} (x : StateM Program α) (p : Program) (a : α) (p' : Program) : Prop :=
  x p = (a, p')

theorem leaves_bind {α β : Type} {p p' : Program} {x : StateM Program α} {f : α → StateM Program β}
    {b : β} : Leaves (x >>= f) p b p' ↔ ∃ a p₁, Leaves x p a p₁ ∧ Leaves (f a) p₁ b p' := by
  unfold Leaves
  constructor
  · intro h
    exact ⟨(x p).1, (x p).2, rfl, h⟩
  · rintro ⟨a, p₁, hx, h⟩
    change f (x p).1 (x p).2 = _
    rw [hx]
    exact h

theorem leaves_pure {α : Type} {p p' : Program} {a b : α} :
    Leaves (pure a) p b p' ↔ a = b ∧ p = p' := by
  unfold Leaves
  constructor
  · intro h
    cases h
    exact ⟨rfl, rfl⟩
  · rintro ⟨rfl, rfl⟩
    rfl

theorem leaves_run {α : Type} {p p' : Program} {x : Infer α} {a : α} :
    Leaves x.run p (.ok a) p' ↔ Yields x p a p' := Iff.rfl

end Typing

end Mil
