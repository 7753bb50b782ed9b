import Mil.Proofs.Typing.Invariant

/-!
The first step on a definition: a working type, and types for the parameters that follow from it.
-/

namespace Mil

namespace Typing

section Initialise

variable {n lo hi : Nat} {p : Program} {φ : DefnId → Phase} {id : DefnId} {d : Defn}

/-- Giving a working type to a fresh definition and types to its parameters. -/
theorem stepOn_initialise {body : DefnBody} {s : Store} {temps : TempTypes}
    (hd : p.defns[id]? = some d) (hfresh : FreshStage p d.body) (href : p.store.Refines lo s)
    (hshape : d.body.SameShape body) (hopens : d.body.Opens s body)
    (hsize : temps.size = p.temps.size)
    (htemps : ∀ t, t ∉ d.body.inputs → temps.typeOf t = p.temps.typeOf t) :
    StepOn lo lo id d body p { p.setBody id body with store := s, temps } where
  frame := {
    store := href
    frozen := href.frozen
    le := working_le hd rfl hopens href.grows fun a t ha => by
      cases a with
      | temp v =>
          by_cases hv : v ∈ d.body.inputs
          · rw [Program.atomType, hfresh.untyped v (DefnBody.mem_temps_of_input hv)] at ha
            cases ha
          · exact (htemps v hv).trans ha
      | lit l => cases l <;> exact ha
      | top _ _ x => exact ha }
  shape := hshape
  env := rfl
  prims := rfl
  defns := rfl
  temps_size := hsize
  temps t ht := htemps t fun hi => ht (DefnBody.mem_temps_of_input hi)
  sites _ _ := rfl

theorem blockWorkingType_spec {b : Block} {s : Store} (h : s.Regular lo)
    (hc : b.interface.DeclaredClosed) :
    s.Refines lo (blockWorkingType b s).2 ∧
      (blockWorkingType b s).2.Fits lo (blockWorkingType b s).1.parts := by
  unfold blockWorkingType
  split
  · rename_i declared hdecl
    have hc : ClosedUnder declared.kinds.length declared.parts :=
      hc (declared.kinds, declared.parts) (by rw [Block.interface, hdecl]; rfl)
    exact ⟨(declared.instantiate_spec h hc).refines, (declared.instantiate_spec h hc).fits⟩
  · obtain ⟨href, -, hdom⟩ := Store.freshAll_spec h (b.params.map fun _ => .star)
    have href' := Store.Refines.fresh href.regular .tuple
    refine ⟨href.trans href', fun t ht => ?_⟩
    simp only [BlockType.parts, List.mem_cons, List.not_mem_nil, or_false] at ht
    rcases ht with rfl | rfl
    · exact Ty.within_tuple.mpr (href'.fits hdom)
    · refine Ty.within_var.mpr ⟨href.regular.le_size, ?_⟩
      rw [Store.size_fresh]
      omega

theorem closureWorkingType_spec {k : Closure} {s : Store} (h : s.Regular lo)
    (hc : k.interface.DeclaredClosed) :
    s.Refines lo (closureWorkingType k s).2 ∧
      (closureWorkingType k s).2.Fits lo (closureWorkingType k s).1.parts := by
  unfold closureWorkingType
  split
  · rename_i declared hdecl
    have hc : ClosedUnder declared.kinds.length declared.parts :=
      hc (declared.kinds, declared.parts) (by rw [Closure.interface, hdecl]; rfl)
    exact ⟨(declared.instantiate_spec h hc).refines, (declared.instantiate_spec h hc).fits⟩
  · obtain ⟨href₁, -, hstored⟩ := Store.freshAll_spec h (k.params.map fun _ => .star)
    obtain ⟨href₂, -, hargs⟩ := Store.freshAll_spec href₁.regular (k.args.map fun _ => .star)
    have href₃ := Store.Refines.fresh href₂.regular .tuple
    refine ⟨(href₁.trans href₂).trans href₃, fun t ht => ?_⟩
    rcases List.mem_append.mp ht with ht | ht
    · exact (href₂.trans href₃).within (hstored t ht)
    · rw [List.mem_singleton.mp ht]
      refine Ty.within_func.mpr ⟨Ty.within_tuple.mpr (href₃.fits hargs), Ty.within_var.mpr ?_⟩
      refine ⟨href₂.regular.le_size, ?_⟩
      rw [Store.size_fresh]
      omega

theorem nameWorkingType_spec {l : TopName} {s : Store} (h : s.Regular lo)
    (hc : l.interface.DeclaredClosed) :
    s.Refines lo (nameWorkingType l s).2 ∧
      (nameWorkingType l s).2.Fits lo [(nameWorkingType l s).1] := by
  unfold nameWorkingType
  split
  · rename_i declared hdecl
    have hc : ClosedUnder declared.kinds.length declared.parts :=
      hc (declared.kinds, declared.parts) (by rw [TopName.interface, hdecl]; rfl)
    exact ⟨(declared.instantiate_spec h hc).refines, (declared.instantiate_spec h hc).fits⟩
  · refine ⟨Store.Refines.fresh h .star, fun t ht => ?_⟩
    rw [List.mem_singleton.mp ht]
    refine Ty.within_var.mpr ⟨h.le_size, ?_⟩
    rw [Store.size_fresh]
    omega

/-- A fresh definition that was given a working type is initialised. -/
theorem initialisedStage {p' : Program} {body : DefnBody} (hfresh : FreshStage p d.body)
    (hstep : StepOn lo lo id d body p p') (hsites : p'.sites = p.sites)
    (hdeclared : ∀ i ∈ body.interfaces, i.DeclaredClosed)
    (hworking : ∀ i ∈ body.interfaces, i.WorkingFits p'.store lo)
    (hhead : ∀ θ, p'.store.Solves θ → HeadHas (p'.working θ) body)
    (htemps : ∀ t ∈ body.temps, ∀ τ, p'.temps.typeOf t = some τ →
      p.temps.typeOf t = some τ ∨ τ.Within lo p'.store.cells.size)
    (hsignatures : body.SignaturesClosed) (hfailed : body.failed = false) :
    InitialisedStage lo p' body where
  declared := hdeclared
  working := hworking
  head := hhead
  temps t ht τ hτ := by
    rcases htemps t ht τ hτ with h | h
    · rw [hfresh.untyped t (hstep.shape.temps ▸ ht)] at h
      cases h
    · exact h
  unrecorded := by
    rw [hstep.shape.atoms]
    exact hfresh.unrecorded.frame fun x _ => by rw [hsites]
  signatures := hsignatures
  failed := hfailed

theorem inv_initBlock {c c' : Checker} {b : Block} (h : Inv n lo lo c.program φ)
    (hd : c.program.defns[id]? = some d) (hb : d.body = .block b) (hφ : φ id = .fresh)
    (hy : Yields (initBlock id d b) c () c') :
    Inv n lo lo c'.program (Function.update φ id .initialised) := by
  have hfresh : FreshStage c.program d.body := by
    have := h.stage hd
    rwa [hφ] at this
  have hi : b.interface ∈ d.body.interfaces := by
    rw [hb]
    exact .head _
  obtain ⟨href, hfits⟩ := blockWorkingType_spec h.regular (hfresh.declared _ hi)
  rw [initBlock, yields_bind] at hy
  obtain ⟨type, c₁, htype, hy⟩ := hy
  obtain ⟨rfl, rfl⟩ := yields_onStore.mp htype
  rw [yields_bind] at hy
  obtain ⟨_, c₂, hset, hy⟩ := hy
  obtain rfl := yields_setBody.mp hset
  rw [yields_bind] at hy
  obtain ⟨_, c₃, hstore, hy⟩ := hy
  obtain ⟨rfl, rfl⟩ := yields_store.mp hstore
  generalize (blockWorkingType b c.program.store).1 = type at hfits hy
  generalize (blockWorkingType b c.program.store).2 = s at href hfits hy
  split at hy
  · rename_i dom hdom
    split at hy
    · rename_i hlen
      obtain rfl := yields_setTypes.mp hy
      have hprune : s.prune type.dom = .tuple dom := Ty.eq_tuple_of_elems? hdom
      have hdomfits : s.Fits lo dom := by
        have := href.regular.prune_within (hfits type.dom (.head _))
        rw [hprune] at this
        exact Ty.within_tuple.mp this
      have hinputs : d.body.inputs = b.params := by rw [hb]; rfl
      have hstep : StepOn lo lo id d (.block { b with defining := some type }) c.program
          { c.program.setBody id (.block { b with defining := some type }) with
            store := s, temps := assign c.program.temps b.params dom } := by
        refine stepOn_initialise hd hfresh href ?_ ?_ size_assign fun t ht =>
          typeOf_assign_of_not_mem (hinputs ▸ ht)
        · rw [hb]
          exact .block rfl rfl
        · rw [hb]
          exact .block (Interface.le_of_fresh (hfresh.working _ hi) rfl)
      refine h.step hd hstep (initialisedStage hfresh hstep rfl ?_ ?_ ?_ ?_ ?_ ?_)
      · rintro i (_ | ⟨_, ⟨⟩⟩) q hq
        exact hfresh.declared _ hi q hq
      · rintro i (_ | ⟨_, ⟨⟩⟩) ts ⟨⟩
        exact hfits
      · intro θ (hθ : s.Solves θ)
        refine .block rfl ?_ (argsHave_of_typeOf (typeOf_assign ?_ ?_ hlen.symm))
        · show type.dom.mapVars θ = _
          rw [← hθ.prune type.dom, hprune, Ty.mapVars_tuple]
        · exact hinputs ▸ h.layout.inputs hd
        · exact fun t ht => h.layout.room hd t (DefnBody.mem_temps_of_input (hinputs ▸ ht))
      · exact fun t _ τ hτ => (typeOf_assign_cases hτ).imp_right (hdomfits τ)
      · have := hfresh.signatures
        rwa [hb] at this
      · have := hfresh.failed
        rwa [hb] at this
    · exact absurd hy not_yields_throw
  · exact absurd hy not_yields_throw

theorem inv_initClosure {c c' : Checker} {k : Closure} (h : Inv n lo lo c.program φ)
    (hd : c.program.defns[id]? = some d) (hk : d.body = .closure k) (hφ : φ id = .fresh)
    (hy : Yields (initClosure id d k) c () c') :
    Inv n lo lo c'.program (Function.update φ id .initialised) := by
  have hfresh : FreshStage c.program d.body := by
    have := h.stage hd
    rwa [hφ] at this
  have hi : k.interface ∈ d.body.interfaces := by
    rw [hk]
    exact .head _
  obtain ⟨href, hfits⟩ := closureWorkingType_spec h.regular (hfresh.declared _ hi)
  rw [initClosure, yields_bind] at hy
  obtain ⟨type, c₁, htype, hy⟩ := hy
  obtain ⟨rfl, rfl⟩ := yields_onStore.mp htype
  rw [yields_bind] at hy
  obtain ⟨_, c₂, hset, hy⟩ := hy
  obtain rfl := yields_setBody.mp hset
  rw [yields_bind] at hy
  obtain ⟨_, c₃, hstore, hy⟩ := hy
  obtain ⟨rfl, rfl⟩ := yields_store.mp hstore
  generalize (closureWorkingType k c.program.store).1 = type at hfits hy
  generalize (closureWorkingType k c.program.store).2 = s at href hfits hy
  split at hy
  · rename_i args hargs
    split at hy
    · rename_i hlen
      rw [yields_bind] at hy
      obtain ⟨_, c₄, hparams, hy⟩ := hy
      obtain rfl := yields_setTypes.mp hparams
      obtain rfl := yields_setTypes.mp hy
      obtain ⟨⟨dom, rng⟩, hfunc, hdom⟩ := Option.bind_eq_some_iff.mp hargs
      have hresult : s.resolve type.result = .func (.tuple args) rng :=
        (Ty.eq_func_of_asFunc? hfunc).trans (by rw [Ty.eq_tuple_of_elems? hdom])
      have hresultfits := href.regular.resolve_within
        (hfits type.result (List.mem_append_right _ (.head _)))
      rw [hresult] at hresultfits
      have hargsfits := Ty.within_tuple.mp (Ty.within_func.mp hresultfits).1
      have hinputs : d.body.inputs = k.params ++ k.args := by rw [hk]; rfl
      have hnodup := List.nodup_append.mp (hinputs ▸ h.layout.inputs hd)
      have hroom : ∀ t ∈ k.params ++ k.args, t < c.program.temps.size := fun t ht =>
        h.layout.room hd t (DefnBody.mem_temps_of_input (hinputs ▸ ht))
      let temps := assign (assign c.program.temps k.params type.stored) k.args args
      have hstep : StepOn lo lo id d (.closure { k with defining := some type }) c.program
          { c.program.setBody id (.closure { k with defining := some type }) with
            store := s, temps := temps } := by
        refine stepOn_initialise hd hfresh href ?_ ?_ (size_assign.trans size_assign) fun t ht => ?_
        · rw [hk]
          exact .closure rfl rfl rfl
        · rw [hk]
          exact .closure (Interface.le_of_fresh (hfresh.working _ hi) rfl)
        · rw [hinputs, List.mem_append, not_or] at ht
          exact (typeOf_assign_of_not_mem ht.2).trans (typeOf_assign_of_not_mem ht.1)
      refine h.step hd hstep (initialisedStage hfresh hstep rfl ?_ ?_ ?_ ?_ ?_ ?_)
      · rintro i (_ | ⟨_, ⟨⟩⟩) q hq
        exact hfresh.declared _ hi q hq
      · rintro i (_ | ⟨_, ⟨⟩⟩) ts ⟨⟩
        exact hfits
      · intro θ (hθ : s.Solves θ)
        have hread : type.result.mapVars θ =
            .func (.tuple (args.map fun t => t.mapVars θ)) (rng.mapVars θ) := by
          rw [← hθ.resolve type.result, hresult, Ty.mapVars_func, Ty.mapVars_tuple]
        refine .closure rfl hread (argsHave_of_typeOf ?_)
          (argsHave_of_typeOf (typeOf_assign hnodup.2.1 ?_ hlen.1.symm))
        · have hparams := typeOf_assign hnodup.1 (fun t ht => hroom t (List.mem_append_left _ ht))
            hlen.2.symm
          refine ((List.forall₂_and_left _ _).mpr ⟨fun t ht => ht, hparams⟩).imp fun t τ ht => ?_
          have hnot : t ∉ k.args := fun ht' => hnodup.2.2 t ht.1 t ht' rfl
          exact (typeOf_assign_of_not_mem hnot).trans ht.2
        · intro t ht
          rw [size_assign]
          exact hroom t (List.mem_append_right _ ht)
      · intro t _ τ hτ
        rcases typeOf_assign_cases hτ with hτ | hτ
        · exact (typeOf_assign_cases hτ).imp_right fun hτ => hfits τ (List.mem_append_left _ hτ)
        · exact .inr (hargsfits τ hτ)
      · have := hfresh.signatures
        rwa [hk] at this
      · have := hfresh.failed
        rwa [hk] at this
    · exact absurd hy not_yields_throw
  · exact absurd hy not_yields_throw

/-- A name that was given a working type. -/
def Worked (s : Store) (lo : Nat) (l l' : TopName) : Prop :=
  ∃ type, l' = { l with defining := some type } ∧ s.Fits lo [type]

theorem exists_worked_of_mem {s : Store} {ls ls' : List TopName}
    (h : List.Forall₂ (Worked s lo) ls ls') : ∀ l' ∈ ls', ∃ l ∈ ls, Worked s lo l l' := by
  induction h with
  | nil => exact fun l' hl' => absurd hl' List.not_mem_nil
  | cons hw _ ih =>
      intro l' hl'
      rcases List.mem_cons.mp hl' with rfl | hl'
      · exact ⟨_, .head _, hw⟩
      · obtain ⟨l, hl, hw⟩ := ih l' hl'
        exact ⟨l, .tail _ hl, hw⟩

theorem exists_types_of_worked {s : Store} {ls ls' : List TopName}
    (h : List.Forall₂ (Worked s lo) ls ls') :
    ∃ types : List Ty, ls'.map TopName.defining = types.map some := by
  induction h with
  | nil => exact ⟨[], rfl⟩
  | cons hw _ ih =>
      obtain ⟨type, rfl, -⟩ := hw
      obtain ⟨types, htypes⟩ := ih
      exact ⟨type :: types, by rw [List.map_cons, List.map_cons, htypes]⟩

theorem initNames_spec {c c' : Checker} {ls ls' : List TopName} (h : c.program.store.Regular lo)
    (hc : ∀ l ∈ ls, l.interface.DeclaredClosed)
    (hy : Yields (ls.mapM fun l => do
      return { l with defining := some (← onStore (nameWorkingType l)) }) c ls' c') :
    ∃ s, c' = { c with program := { c.program with store := s } } ∧
      c.program.store.Refines lo s ∧ List.Forall₂ (Worked s lo) ls ls' := by
  induction ls generalizing c ls' with
  | nil =>
      rw [List.mapM_nil] at hy
      obtain ⟨rfl, rfl⟩ := yields_pure.mp hy
      exact ⟨_, rfl, .refl h, .nil⟩
  | cons l ls ih =>
      rw [List.mapM_cons, yields_bind] at hy
      obtain ⟨l', c₁, hl, hy⟩ := hy
      rw [yields_bind] at hl
      obtain ⟨type, c₂, htype, hl⟩ := hl
      obtain ⟨rfl, rfl⟩ := yields_onStore.mp htype
      obtain ⟨rfl, rfl⟩ := yields_pure.mp hl
      rw [yields_bind] at hy
      obtain ⟨ls'', c₃, hls, hy⟩ := hy
      obtain ⟨rfl, rfl⟩ := yields_pure.mp hy
      obtain ⟨href, hfits⟩ := nameWorkingType_spec h (hc l (.head _))
      obtain ⟨s, rfl, href', hall⟩ := ih href.regular (fun l hl => hc l (.tail _ hl)) hls
      exact ⟨s, rfl, href.trans href', .cons ⟨_, rfl, href'.fits hfits⟩ hall⟩

theorem inv_initTop {c c' : Checker} {t : TopLevel} (h : Inv n lo lo c.program φ)
    (hd : c.program.defns[id]? = some d) (ht : d.body = .top t) (hφ : φ id = .fresh)
    (hy : Yields (initTop id t) c () c') :
    Inv n lo lo c'.program (Function.update φ id .initialised) := by
  have hfresh : FreshStage c.program d.body := by
    have := h.stage hd
    rwa [hφ] at this
  have hi : ∀ l ∈ t.lhs, l.interface ∈ d.body.interfaces := fun l hl => by
    rw [ht]
    exact List.mem_map_of_mem hl
  rw [initTop, yields_bind] at hy
  obtain ⟨lhs, c₁, hlhs, hy⟩ := hy
  obtain ⟨s, rfl, href, hall⟩ := initNames_spec h.regular
    (fun l hl => hfresh.declared _ (hi l hl)) hlhs
  obtain rfl := yields_setBody.mp hy
  have hnew := exists_worked_of_mem hall
  have hstep : StepOn lo lo id d (.top { t with lhs }) c.program
      { c.program.setBody id (.top { t with lhs }) with store := s, temps := c.program.temps } := by
    refine stepOn_initialise hd hfresh href ?_ ?_ rfl fun _ _ => rfl
    · rw [ht]
      exact .top rfl
    · rw [ht]
      refine .top fun index l hl => ?_
      have hlt : index < lhs.length := by
        rw [← hall.length_eq]
        exact (List.getElem?_eq_some_iff.mp hl).1
      obtain ⟨hlt', hget⟩ := List.getElem?_eq_some_iff.mp hl
      have hw := hall.get hlt' hlt
      refine ⟨lhs[index], List.getElem?_eq_getElem hlt, ?_⟩
      obtain ⟨type, heq, -⟩ := hw
      simp only [List.get_eq_getElem, hget] at heq
      rw [heq]
      exact Interface.le_of_fresh (hfresh.working _ (hi l (List.mem_of_getElem? hl))) rfl
  refine h.step hd hstep (initialisedStage hfresh hstep rfl ?_ ?_ ?_ ?_ ?_ ?_)
  · intro i hi' q hq
    obtain ⟨l', hl', rfl⟩ := List.mem_map.mp hi'
    obtain ⟨l, hl, type, rfl, -⟩ := hnew l' hl'
    exact hfresh.declared _ (hi l hl) q hq
  · intro i hi' ts hts
    obtain ⟨l', hl', rfl⟩ := List.mem_map.mp hi'
    obtain ⟨l, hl, type, rfl, hfits⟩ := hnew l' hl'
    cases hts
    exact hfits
  · intro θ hθ
    obtain ⟨types, htypes⟩ := exists_types_of_worked hall
    exact .top htypes
  · exact fun t _ τ hτ => .inl hτ
  · have := hfresh.signatures
    rwa [ht] at this
  · have := hfresh.failed
    rwa [ht] at this

/-- Giving a working type moves a definition to its first stage. -/
theorem inv_setInitialType {c c' : Checker} (h : Inv n lo lo c.program φ) (hφ : φ id = .fresh)
    (hy : Yields (setInitialType id) c () c') :
    Inv n lo lo c'.program (Function.update φ id .initialised) := by
  rw [setInitialType, yields_bind] at hy
  obtain ⟨d, c₁, hd, hy⟩ := hy
  obtain ⟨hd, rfl⟩ := yields_definition.mp hd
  split at hy
  · rename_i b hb
    exact inv_initBlock h hd hb hφ hy
  · rename_i k hk
    exact inv_initClosure h hd hk hφ hy
  · rename_i t ht
    exact inv_initTop h hd ht hφ hy
  · rename_i e he
    obtain ⟨-, rfl⟩ := yields_pure.mp hy
    refine h.stay fun {d'} hd' => ?_
    rw [hd] at hd'
    cases hd'
    have hfresh : FreshStage c₁.program d.body := by
      have := h.stage hd
      rwa [hφ] at this
    refine ⟨hfresh.declared, fun i hi ts hts => ?_, fun θ _ => ?_, fun t ht τ hτ => ?_,
      hfresh.unrecorded, hfresh.signatures, hfresh.failed⟩
    · rw [hfresh.working i hi] at hts
      cases hts
    · rw [he]
      exact .external
    · rw [hfresh.untyped t ht] at hτ
      cases hτ

end Initialise

end Typing

end Mil
