import Mil.Proofs.Program.Linked
import Mil.Proofs.Typing.Infer

/-!
The stages of a definition during the check. A definition starts with no working type and none of
its temporaries typed; it is given a working type, then its body is inferred, then the working type
is quantified. Each stage is a property of the definition in the program as it is at that time, and
every step on one definition keeps the stages of all others.
-/

namespace Mil

namespace DefnBody

/-- The temporaries that the definition binds or reads. -/
def temps (b : DefnBody) : List Temp := b.inputs ++ b.binders ++ b.atoms.filterMap Atom.temp?

/-- The types of the primitives and constructors that the body names are closed. -/
def SignaturesClosed : DefnBody → Prop
  | .block b => ∀ code, b.body = some code → code.SignaturesClosed
  | .closure k => ∀ tail, k.tail = some tail → tail.SignaturesClosed
  | .top t => ∀ tail, t.tail = some tail → tail.SignaturesClosed
  | .external _ => True

/-- The variables that the definition is generic in. -/
def generics : DefnBody → List Nat
  | .block b => b.generics
  | .closure k => k.generics
  | .top t => t.generics
  | .external _ => []

/-- Was a problem found in the body? -/
def failed : DefnBody → Bool
  | .block b => b.failed
  | .closure k => k.failed
  | .top t => t.failed
  | .external _ => false

theorem mem_temps_of_input {b : DefnBody} {t : Temp} (h : t ∈ b.inputs) : t ∈ b.temps :=
  List.mem_append_left _ (List.mem_append_left _ h)

theorem mem_temps_of_binder {b : DefnBody} {t : Temp} (h : t ∈ b.binders) : t ∈ b.temps :=
  List.mem_append_left _ (List.mem_append_right _ h)

theorem mem_temps_of_atom {b : DefnBody} {t : Temp} (h : .temp t ∈ b.atoms) : t ∈ b.temps :=
  List.mem_append_right _ (List.mem_filterMap.mpr ⟨.temp t, h, rfl⟩)

/-- The declared type of every name is its working type, quantified over its variables. -/
def Generalised (s : Store) : DefnBody → Prop
  | .block b => ∃ type, b.defining = some type ∧ s.Fits 0 type.parts ∧
      b.generics = type.addVars s [] ∧ b.declared = some (type.generalize s b.generics)
  | .closure k => ∃ type, k.defining = some type ∧ s.Fits 0 type.parts ∧
      k.generics = type.addVars s [] ∧ k.declared = some (type.generalize s k.generics)
  | .top t => t.generics = (t.lhs.flatMap TopName.generics).eraseDups ∧
      ∀ l ∈ t.lhs, ∃ type, l.defining = some type ∧ s.Fits 0 [type] ∧
        l.generics = s.varsOf type ∧ l.declared = some (Scheme.generalize s type l.generics)
  | .external _ => True

end DefnBody

/-- The declared type, if there is one, is closed. -/
def Interface.DeclaredClosed (i : Interface) : Prop :=
  ∀ q, i.declared = some q → ClosedUnder q.1.length q.2

/-- The working type, if there is one, is over the variables from `lo` on. -/
def Interface.WorkingFits (i : Interface) (s : Store) (lo : Nat) : Prop :=
  ∀ ts, i.working = some ts → s.Fits lo ts

theorem Interface.visible_of {i : Interface} {s : Store} {lo : Nat} (hc : i.DeclaredClosed)
    (hw : i.WorkingFits s lo) : i.Visible s lo := by
  unfold Visible
  split
  · rename_i hd
    exact hc _ hd
  · rename_i ts _ hts
    exact hw ts hts
  · trivial

namespace Typing

/-- The parameters of a definition take its working type apart. -/
inductive HeadHas (Γ : Context) : DefnBody → Prop
  | block {b : Block} {type : BlockType} {τs : List Ty} (htype : b.defining = some type)
      (hdom : Γ.read type.dom = .tuple τs) (hparams : ArgsHave Γ (b.params.map .temp) τs) :
      HeadHas Γ (.block b)
  | closure {k : Closure} {type : AllocType} {τs : List Ty} {τ : Ty}
      (htype : k.defining = some type) (hresult : Γ.read type.result = .func (.tuple τs) τ)
      (hparams : ArgsHave Γ (k.params.map .temp) (type.stored.map Γ.read))
      (hargs : ArgsHave Γ (k.args.map .temp) τs) : HeadHas Γ (.closure k)
  | top {t : TopLevel} {types : List Ty} (htypes : t.lhs.map TopName.defining = types.map some) :
      HeadHas Γ (.top t)
  | external {e : External} : HeadHas Γ (.external e)

theorem HeadHas.block_inv {Γ : Context} {b : Block} (h : HeadHas Γ (.block b)) :
    ∃ type τs, b.defining = some type ∧ Γ.read type.dom = .tuple τs ∧
      ArgsHave Γ (b.params.map .temp) τs := by
  cases h with
  | block htype hdom hparams => exact ⟨_, _, htype, hdom, hparams⟩

theorem HeadHas.closure_inv {Γ : Context} {k : Closure} (h : HeadHas Γ (.closure k)) :
    ∃ type τs τ, k.defining = some type ∧ Γ.read type.result = .func (.tuple τs) τ ∧
      ArgsHave Γ (k.params.map .temp) (type.stored.map Γ.read) ∧
      ArgsHave Γ (k.args.map .temp) τs := by
  cases h with
  | closure htype hresult hparams hargs => exact ⟨_, _, _, htype, hresult, hparams, hargs⟩

theorem HeadHas.top_inv {Γ : Context} {t : TopLevel} (h : HeadHas Γ (.top t)) :
    ∃ types : List Ty, t.lhs.map TopName.defining = types.map some := by
  cases h with
  | top htypes => exact ⟨_, htypes⟩

theorem HeadHas.mono {Γ Γ' : Context} {b : DefnBody} (h : HeadHas Γ b) (hle : Γ.Le Γ') :
    HeadHas Γ' b := by
  cases h with
  | block htype hdom hparams =>
      rw [← hle.read] at hdom
      exact .block htype hdom (hparams.mono hle)
  | closure htype hresult hparams hargs =>
      rw [← hle.read] at hresult hparams
      exact .closure htype hresult (hparams.mono hle) (hargs.mono hle)
  | top htypes => exact .top htypes
  | external => exact .external

/-! ### Stages -/

/-- How far the check of a definition has come. -/
inductive Phase
  | fresh
  | initialised
  | inferred
  | generalised
deriving DecidableEq

/-- Nothing has been done with the definition. -/
structure FreshStage (p : Program) (b : DefnBody) : Prop where
  declared : ∀ i ∈ b.interfaces, i.DeclaredClosed
  working : ∀ i ∈ b.interfaces, i.working = none
  untyped : ∀ t ∈ b.temps, p.temps.typeOf t = none
  unrecorded : Unrecorded p b.atoms
  signatures : b.SignaturesClosed
  failed : b.failed = false

/-- The definition and its parameters have working types. -/
structure InitialisedStage (lo : Nat) (p : Program) (b : DefnBody) : Prop where
  declared : ∀ i ∈ b.interfaces, i.DeclaredClosed
  working : ∀ i ∈ b.interfaces, i.WorkingFits p.store lo
  head : ∀ θ, p.store.Solves θ → HeadHas (p.working θ) b
  temps : ∀ t ∈ b.temps, ∀ τ, p.temps.typeOf t = some τ → τ.Within lo p.store.cells.size
  unrecorded : Unrecorded p b.atoms
  signatures : b.SignaturesClosed
  failed : b.failed = false

/-- The body has the working type of the definition. -/
structure InferredStage (lo : Nat) (p : Program) (b : DefnBody) : Prop where
  declared : ∀ i ∈ b.interfaces, i.DeclaredClosed
  working : ∀ i ∈ b.interfaces, i.WorkingFits p.store lo
  derivation : ∀ θ, p.store.Solves θ → DefnHas (p.working θ) b
  failed : b.failed = false

/-- The working type is quantified, and its variables, all before `hi`, are unbound. -/
structure GeneralisedStage (hi : Nat) (p : Program) (b : DefnBody) : Prop where
  declared : ∀ i ∈ b.interfaces, i.declared.isSome ∧ i.DeclaredClosed
  derivation : ∀ θ, p.store.Solves θ → DefnHas (p.working θ) b
  generalised : b.Generalised p.store
  settled : ∀ v ∈ b.generics, v < hi ∧ p.store.binding? v = none

/-- The property of a definition at a stage. -/
def StageHolds (lo hi : Nat) (p : Program) : Phase → DefnBody → Prop
  | .fresh => FreshStage p
  | .initialised => InitialisedStage lo p
  | .inferred => InferredStage lo p
  | .generalised => GeneralisedStage hi p

theorem StageHolds.visible {lo hi : Nat} {p : Program} {φ : Phase} {b : DefnBody}
    (h : StageHolds lo hi p φ b) : ∀ i ∈ b.interfaces, i.Visible p.store lo := by
  intro i hi
  cases φ with
  | fresh =>
      refine Interface.visible_of (h.declared i hi) fun ts hts => ?_
      rw [h.working i hi] at hts
      cases hts
  | initialised => exact Interface.visible_of (h.declared i hi) (h.working i hi)
  | inferred => exact Interface.visible_of (h.declared i hi) (h.working i hi)
  | generalised =>
      obtain ⟨hsome, hclosed⟩ := h.declared i hi
      obtain ⟨q, hq⟩ := Option.isSome_iff_exists.mp hsome
      unfold Interface.Visible
      rw [hq]
      exact hclosed q hq

/-! ### Frames -/

/-- A step on one definition, as the others see it: the store is refined, variables before `hi` stay
as they are, and derivations stay derivations. -/
structure Frame (lo hi : Nat) (p p' : Program) : Prop where
  store : p.store.Refines lo p'.store
  frozen : ∀ v, v < hi → p'.store.binding? v = p.store.binding? v
  le : ∀ θ, (p.working θ).Le (p'.working θ)

section Generalised

variable {lo : Nat} {s s' : Store}

/-- Types whose variables are all settled are read as before. -/
theorem resolve_eq_of_settled (href : s.Refines lo s') {ts : List Ty} {vars : List Nat}
    (hvars : ∀ t ∈ ts, ∀ v, Ty.Occurs (.var v) (s.resolve t) → v ∈ vars)
    (hsettled : ∀ v ∈ vars, s'.binding? v = none) : ∀ t ∈ ts, s'.resolve t = s.resolve t :=
  fun t ht => href.regular.resolve_eq_of_extends href.grows fun v hv => hsettled v (hvars t ht v hv)

theorem kindsOf_eq_of_vars (href : s.Refines lo s') (hreg : s.Regular lo) {ts : List Ty}
    {vars : List Nat} (hfits : s.Fits 0 ts)
    (hvars : ∀ v ∈ vars, ∃ t ∈ ts, Ty.Occurs (.var v) (s.resolve t)) :
    s'.kindsOf vars = s.kindsOf vars := by
  refine List.map_congr_left fun v hv => href.grows.kind ?_
  obtain ⟨t, ht, hv⟩ := hvars v hv
  exact ((hreg.lower.resolve_within (hfits t ht)).var hv).2

theorem generalised_block (href : s.Refines lo s') (hreg : s.Regular lo) {type : BlockType}
    (hfits : s.Fits 0 type.parts) (hsettled : ∀ v ∈ type.addVars s [], s'.binding? v = none) :
    type.addVars s' [] = type.addVars s [] ∧
      type.generalize s' (type.addVars s []) = type.generalize s (type.addVars s []) := by
  have hmem : ∀ v, v ∈ type.addVars s [] ↔
      ∃ t ∈ type.parts, Ty.Occurs (.var v) (s.resolve t) := fun v => by
    rw [BlockType.mem_addVars]
    simp
  have hread := resolve_eq_of_settled href (fun t ht v hv => (hmem v).mpr ⟨t, ht, hv⟩) hsettled
  have hkinds := kindsOf_eq_of_vars href hreg hfits fun v hv => (hmem v).mp hv
  have hdom := hread type.dom (.head _)
  have hrng := hread type.rng (.tail _ (.head _))
  simp only [BlockType.addVars, Store.addVars, BlockType.generalize] at hkinds ⊢
  rw [hdom, hrng, hkinds]
  exact ⟨rfl, rfl⟩

theorem generalised_closure (href : s.Refines lo s') (hreg : s.Regular lo) {type : AllocType}
    (hfits : s.Fits 0 type.parts) (hsettled : ∀ v ∈ type.addVars s [], s'.binding? v = none) :
    type.addVars s' [] = type.addVars s [] ∧
      type.generalize s' (type.addVars s []) = type.generalize s (type.addVars s []) := by
  have hmem : ∀ v, v ∈ type.addVars s [] ↔
      ∃ t ∈ type.parts, Ty.Occurs (.var v) (s.resolve t) := fun v => by
    rw [AllocType.mem_addVars]
    simp
  have hread := resolve_eq_of_settled href (fun t ht v hv => (hmem v).mpr ⟨t, ht, hv⟩) hsettled
  have hkinds := kindsOf_eq_of_vars href hreg hfits fun v hv => (hmem v).mp hv
  have hresult := hread type.result (List.mem_append_right _ (.head _))
  have hstored : ∀ t ∈ type.stored, s'.resolve t = s.resolve t :=
    fun t ht => hread t (List.mem_append_left _ ht)
  have hfold : ∀ (ts : List Ty) (acc : List Nat), (∀ t ∈ ts, s'.resolve t = s.resolve t) →
      ts.foldl (fun acc t => s'.addVars t acc) acc = ts.foldl (fun acc t => s.addVars t acc) acc := by
    intro ts
    induction ts with
    | nil => exact fun _ _ => rfl
    | cons t ts ih =>
        intro acc h
        rw [List.foldl_cons, List.foldl_cons, Store.addVars, h t (.head _)]
        exact ih _ fun u hu => h u (.tail _ hu)
  constructor
  · rw [AllocType.addVars, AllocType.addVars, hfold _ _ hstored, Store.addVars, hresult]
    rfl
  · rw [AllocType.generalize, AllocType.generalize, AllocType.mapTypes, AllocType.mapTypes, hkinds,
      hresult, List.map_congr_left fun t ht => by rw [hstored t ht]]

theorem generalised_name (href : s.Refines lo s') (hreg : s.Regular lo) {type : Ty}
    (hfits : s.Fits 0 [type]) (hsettled : ∀ v ∈ s.varsOf type, s'.binding? v = none) :
    s'.varsOf type = s.varsOf type ∧
      Scheme.generalize s' type (s.varsOf type) = Scheme.generalize s type (s.varsOf type) := by
  have hmem : ∀ v, v ∈ s.varsOf type ↔
      ∃ t ∈ [type], Ty.Occurs (.var v) (s.resolve t) := fun v => by
    rw [Store.mem_varsOf]
    simp
  have hread := resolve_eq_of_settled href (fun t ht v hv => (hmem v).mpr ⟨t, ht, hv⟩) hsettled
  have hkinds := kindsOf_eq_of_vars href hreg hfits fun v hv => (hmem v).mp hv
  have htype := hread type (.head _)
  simp only [Store.varsOf, Store.addVars, Scheme.generalize] at hkinds ⊢
  rw [htype, hkinds]
  exact ⟨rfl, rfl⟩

/-- A quantified definition stays one while its generic variables stay unbound. -/
theorem generalised_of_refines (href : s.Refines lo s') (hreg : s.Regular lo) {b : DefnBody}
    (h : b.Generalised s) (hsettled : ∀ v ∈ b.generics, s'.binding? v = none) :
    b.Generalised s' := by
  have hfit {ts : List Ty} (h : s.Fits 0 ts) : s'.Fits 0 ts :=
    fun t ht => (h t ht).mono (Nat.le_refl _) href.grows.size_le
  cases b with
  | block b =>
      obtain ⟨type, hdef, hfits, hgen, hdecl⟩ := h
      have hsettled' : ∀ v ∈ type.addVars s [], s'.binding? v = none := hgen ▸ hsettled
      obtain ⟨hvars, heq⟩ := generalised_block href hreg hfits hsettled'
      exact ⟨type, hdef, hfit hfits, hgen.trans hvars.symm, by rw [hdecl, hgen, heq]⟩
  | closure k =>
      obtain ⟨type, hdef, hfits, hgen, hdecl⟩ := h
      have hsettled' : ∀ v ∈ type.addVars s [], s'.binding? v = none := hgen ▸ hsettled
      obtain ⟨hvars, heq⟩ := generalised_closure href hreg hfits hsettled'
      exact ⟨type, hdef, hfit hfits, hgen.trans hvars.symm, by rw [hdecl, hgen, heq]⟩
  | top t =>
      refine ⟨h.1, fun l hl => ?_⟩
      obtain ⟨type, hdef, hfits, hgen, hdecl⟩ := h.2 l hl
      have hsettled' : ∀ v ∈ s.varsOf type, s'.binding? v = none := by
        intro v hv
        refine hsettled v ?_
        rw [DefnBody.generics, h.1, List.mem_eraseDups]
        exact List.mem_flatMap.mpr ⟨l, hl, hgen ▸ hv⟩
      obtain ⟨hvars, heq⟩ := generalised_name href hreg hfits hsettled'
      exact ⟨type, hdef, hfit hfits, hgen.trans hvars.symm, by rw [hdecl, hgen, heq]⟩
  | external e => trivial

end Generalised

section Frame

variable {lo hi : Nat} {p p' : Program} {b : DefnBody}

theorem Unrecorded.frame {as : List Atom} (h : Unrecorded p as)
    (hsites : ∀ x ∈ sitesOf as, p'.sites[x]? = p.sites[x]?) : Unrecorded p' as :=
  ⟨h.nodup, fun x hx => by rw [hsites x hx]; exact h.none x hx⟩

/-- A step that does not touch the temporaries and places of a definition keeps its stage. -/
theorem StageHolds.frame {φ : Phase} (h : StageHolds lo hi p φ b) (hreg : p.store.Regular lo)
    (hf : Frame lo hi p p') (htemps : ∀ t ∈ b.temps, p'.temps.typeOf t = p.temps.typeOf t)
    (hsites : ∀ x ∈ sitesOf b.atoms, p'.sites[x]? = p.sites[x]?) : StageHolds lo hi p' φ b := by
  have hfits {i : Interface} (h : i.WorkingFits p.store lo) : i.WorkingFits p'.store lo :=
    fun ts hts => hf.store.fits (h ts hts)
  cases φ with
  | fresh =>
      exact ⟨h.declared, h.working, fun t ht => (htemps t ht).trans (h.untyped t ht),
        h.unrecorded.frame hsites, h.signatures, h.failed⟩
  | initialised =>
      refine ⟨h.declared, fun i hi => hfits (h.working i hi),
        fun θ hθ => (h.head θ (hf.store.solves hθ)).mono (hf.le θ), fun t ht τ hτ => ?_,
        h.unrecorded.frame hsites, h.signatures, h.failed⟩
      rw [htemps t ht] at hτ
      exact hf.store.within (h.temps t ht τ hτ)
  | inferred =>
      exact ⟨h.declared, fun i hi => hfits (h.working i hi),
        fun θ hθ => (h.derivation θ (hf.store.solves hθ)).mono (hf.le θ), h.failed⟩
  | generalised =>
      have hunbound : ∀ v ∈ b.generics, p'.store.binding? v = none := fun v hv => by
        rw [hf.frozen v (h.settled v hv).1]
        exact (h.settled v hv).2
      exact ⟨h.declared, fun θ hθ => (h.derivation θ (hf.store.solves hθ)).mono (hf.le θ),
        generalised_of_refines hf.store hreg h.generalised hunbound,
        fun v hv => ⟨(h.settled v hv).1, hunbound v hv⟩⟩

end Frame

end Typing

end Mil
