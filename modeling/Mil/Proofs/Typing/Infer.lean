import Mil.Proofs.Typing.Scene

/-!
Inference is sound. When the inference of a body goes well, the body that comes out of it, with the
types recorded in it, has a typing derivation for every solution of the store. Solutions only become
fewer, so a derivation that was found is not lost by what is bound later.
-/

namespace Mil

namespace Typing

/-! ### The types of names and of operands -/

section Names

variable {lo : Nat} {T : List Temp} {p p' : Program}

theorem yields_defnAt {id : DefnId} {d : Defn} :
    Yields (defnAt id) p d p' ↔ p.defns[id]? = some d ∧ p' = p := by
  rw [defnAt, yields_bind]
  constructor
  · rintro ⟨q, p₁, hget, h⟩
    obtain ⟨rfl, rfl⟩ := yields_get.mp hget
    split at h
    · rename_i d' hd
      obtain ⟨rfl, rfl⟩ := yields_pure.mp h
      exact ⟨hd, rfl⟩
    · exact absurd h not_yields_throw
  · rintro ⟨hd, rfl⟩
    refine ⟨_, _, yields_get.mpr ⟨rfl, rfl⟩, ?_⟩
    rw [hd]
    exact yields_pure.mpr ⟨rfl, rfl⟩

theorem blockType_spec {id : DefnId} {type : BlockType} (h : Scene lo T p)
    (hy : Yields (blockType id) p type p') :
    Advances lo T [] p p' ∧ p'.store.Fits lo type.parts ∧ ∀ θ, (p'.working θ).block id type := by
  rw [blockType, yields_bind] at hy
  obtain ⟨d, p₁, hd, hy⟩ := hy
  obtain ⟨hd, rfl⟩ := yields_defnAt.mp hd
  split at hy
  · rename_i b hb
    have hvis := h.visible id d hd b.interface (by rw [hb]; exact .head _)
    split at hy
    · rename_i declared hdecl
      obtain ⟨rfl, rfl⟩ := yields_withStore.mp hy
      have hc : ClosedUnder declared.kinds.length declared.parts := by
        simpa [Block.interface, Interface.Visible, hdecl] using hvis
      obtain ⟨href, hfits, hinst⟩ := declared.instantiate_spec h.regular hc
      refine ⟨.of_store h href, hfits, fun θ => ⟨d, b, hd, hb, ?_⟩⟩
      simpa [Block.interface, Interface.SeenAs, hdecl] using hinst
    · rename_i working hdecl hdef
      obtain ⟨rfl, rfl⟩ := yields_pure.mp hy
      refine ⟨.refl h, ?_, fun θ => ⟨d, b, hd, hb, ?_⟩⟩
      · simpa [Block.interface, Interface.Visible, hdecl, hdef] using hvis
      · simp [Block.interface, Interface.SeenAs, hdecl, hdef]
    · exact absurd hy not_yields_throw
  · exact absurd hy not_yields_throw

theorem allocType_spec {id : DefnId} {type : AllocType} (h : Scene lo T p)
    (hy : Yields (allocType id) p type p') :
    Advances lo T [] p p' ∧ p'.store.Fits lo type.parts ∧ ∀ θ, (p'.working θ).closure id type := by
  rw [allocType, yields_bind] at hy
  obtain ⟨d, p₁, hd, hy⟩ := hy
  obtain ⟨hd, rfl⟩ := yields_defnAt.mp hd
  split at hy
  · rename_i k hk
    have hvis := h.visible id d hd k.interface (by rw [hk]; exact .head _)
    split at hy
    · rename_i declared hdecl
      obtain ⟨rfl, rfl⟩ := yields_withStore.mp hy
      have hc : ClosedUnder declared.kinds.length declared.parts := by
        simpa [Closure.interface, Interface.Visible, hdecl] using hvis
      obtain ⟨href, hfits, hinst⟩ := declared.instantiate_spec h.regular hc
      refine ⟨.of_store h href, hfits, fun θ => ⟨d, k, hd, hk, ?_⟩⟩
      simpa [Closure.interface, Interface.SeenAs, hdecl] using hinst
    · rename_i working hdecl hdef
      obtain ⟨rfl, rfl⟩ := yields_pure.mp hy
      refine ⟨.refl h, ?_, fun θ => ⟨d, k, hd, hk, ?_⟩⟩
      · simpa [Closure.interface, Interface.Visible, hdecl, hdef] using hvis
      · simp [Closure.interface, Interface.SeenAs, hdecl, hdef]
    · exact absurd hy not_yields_throw
  · exact absurd hy not_yields_throw

theorem topType_spec {id : DefnId} {index : Nat} {type : Ty} (h : Scene lo T p)
    (hy : Yields (topType id index) p type p') :
    Advances lo T [] p p' ∧ p'.store.Fits lo [type] ∧ ∀ θ, (p'.working θ).top id index type := by
  rw [topType, yields_bind] at hy
  obtain ⟨d, p₁, hd, hy⟩ := hy
  obtain ⟨hd, rfl⟩ := yields_defnAt.mp hd
  have hvis {i : Interface} (hi : d.body.valueInterface? index = some i) : i.Visible p₁.store lo :=
    h.visible id d hd i (DefnBody.mem_interfaces_of_valueInterface? hi)
  split at hy
  · rename_i t ht
    split at hy
    · exact absurd hy not_yields_throw
    · rename_i l hl
      have hi : d.body.valueInterface? index = some l.interface := by
        rw [ht, DefnBody.valueInterface?, hl]
        rfl
      have hvis := hvis hi
      split at hy
      · rename_i declared hdecl
        obtain ⟨rfl, rfl⟩ := yields_withStore.mp hy
        have hc : ClosedUnder declared.kinds.length declared.parts := by
          simpa [TopName.interface, Interface.Visible, hdecl] using hvis
        obtain ⟨href, hfits, hinst⟩ := declared.instantiate_spec h.regular hc
        refine ⟨.of_store h href, hfits, fun θ => ⟨d, l.interface, hd, hi, ?_⟩⟩
        simpa [TopName.interface, Interface.SeenAs, hdecl] using hinst
      · rename_i working hdecl hdef
        obtain ⟨rfl, rfl⟩ := yields_pure.mp hy
        refine ⟨.refl h, ?_, fun θ => ⟨d, l.interface, hd, hi, ?_⟩⟩
        · simpa [TopName.interface, Interface.Visible, hdecl, hdef] using hvis
        · simp [TopName.interface, Interface.SeenAs, hdecl, hdef]
      · exact absurd hy not_yields_throw
  · rename_i e he
    have hi : d.body.valueInterface? index = some e.interface := by rw [he]; rfl
    obtain ⟨rfl, rfl⟩ := yields_withStore.mp hy
    obtain ⟨href, hfits, hinst⟩ := e.declared.instantiate_spec h.regular (hvis hi)
    exact ⟨.of_store h href, hfits, fun θ => ⟨d, e.interface, hd, hi, hinst⟩⟩
  · exact absurd hy not_yields_throw

/-- Recording a type at an empty place. -/
theorem Advances.record {site : SiteId} (type : Ty) (h : Scene lo T p)
    (hsite : p.sites[site]? = some none) :
    Advances lo T [site] p { p with sites := p.sites.modify site fun _ => some type } where
  scene := ⟨h.regular, h.temps, h.room, h.visible⟩
  store := .refl h.regular
  env := rfl
  prims := rfl
  defns := rfl
  atoms a t ha := by
    cases a with
    | temp v => exact ha
    | lit l => cases l <;> exact ha
    | top id index x =>
        by_cases hx : x = site
        · subst hx
          rw [Program.atomType, hsite] at ha
          cases ha
        · simp only [Program.atomType, Array.getElem?_modify, if_neg (Ne.symm hx)]
          exact ha
  temps_size := rfl
  temps _ _ := rfl
  sites_size := Array.size_modify ..
  sites x hx := by
    rw [Array.getElem?_modify, if_neg]
    rintro rfl
    exact hx (.head _)

/-- The type of an operand, recorded at the place of a reference. -/
theorem atomType_spec {a : Atom} {type : Ty} (h : Scene lo T p) (ht : ∀ t, a = .temp t → t ∈ T)
    (hu : Unrecorded p [a]) (hy : Yields (atomType a) p type p') :
    Advances lo T (sitesOf [a]) p p' ∧ type.Within lo p'.store.cells.size ∧
      ∀ θ, AtomHas (p'.working θ) a (type.mapVars θ) := by
  unfold atomType at hy
  cases a with
  | temp t =>
      dsimp only at hy
      rw [yields_bind] at hy
      obtain ⟨q, p₁, hget, hy⟩ := hy
      obtain ⟨rfl, rfl⟩ := yields_get.mp hget
      split at hy
      · rename_i τ hτ
        obtain ⟨rfl, rfl⟩ := yields_pure.mp hy
        exact ⟨.refl h, h.temps t (ht t rfl) _ hτ, fun θ => ⟨_, hτ, rfl, fun _ _ _ he => nomatch he⟩⟩
      · exact absurd hy not_yields_throw
  | lit l =>
      cases l with
      | word w =>
          obtain ⟨rfl, rfl⟩ := yields_pure.mp hy
          exact ⟨.refl h, Ty.within_con _, fun θ => ⟨_, rfl, rfl, fun _ _ _ he => nomatch he⟩⟩
      | flag b =>
          obtain ⟨rfl, rfl⟩ := yields_pure.mp hy
          exact ⟨.refl h, Ty.within_con _, fun θ => ⟨_, rfl, rfl, fun _ _ _ he => nomatch he⟩⟩
  | top id index site =>
      obtain ⟨τ, p₁, htop, hy⟩ := yields_bind.mp hy
      obtain ⟨_, p₂, hmod, hy⟩ := yields_bind.mp hy
      obtain ⟨rfl, rfl⟩ := yields_pure.mp hy
      obtain rfl := yields_modify.mp hmod
      obtain ⟨hadv, hfits, huse⟩ := topType_spec h htop
      have hsite : p₁.sites[site]? = some none := (hu.after hadv).none site (.head _)
      have hrec := Advances.record τ hadv.scene hsite
      refine ⟨hadv.trans hrec, hfits _ (.head _), fun θ => ⟨τ, ?_, rfl, ?_⟩⟩
      · show ((p₁.sites.modify site fun _ => some τ)[site]?).join = some τ
        rw [Array.getElem?_modify, if_pos rfl, hsite]
        rfl
      · intro id' index' site' he
        cases he
        exact (hrec.le θ).top id index τ (huse θ)

/-- The types of operands, from left to right. -/
theorem atomTypes_spec {as : List Atom} {types : List Ty} (h : Scene lo T p)
    (ht : ∀ t, .temp t ∈ as → t ∈ T) (hu : Unrecorded p as)
    (hy : Yields (as.mapM atomType) p types p') :
    Advances lo T (sitesOf as) p p' ∧ p'.store.Fits lo types ∧
      ∀ θ, ArgsHave (p'.working θ) as (types.map fun t => t.mapVars θ) := by
  induction as generalizing p types with
  | nil =>
      rw [List.mapM_nil] at hy
      obtain ⟨rfl, rfl⟩ := yields_pure.mp hy
      exact ⟨.refl h, fun t ht => absurd ht List.not_mem_nil, fun θ => .nil⟩
  | cons a as ih =>
      rw [List.mapM_cons] at hy
      obtain ⟨τ, p₁, ha, hy⟩ := yields_bind.mp hy
      obtain ⟨τs, p₂, has, hy⟩ := yields_bind.mp hy
      obtain ⟨rfl, rfl⟩ := yields_pure.mp hy
      have hu' : Unrecorded p ([a] ++ as) := hu
      obtain ⟨hadv, hτ, htyped⟩ := atomType_spec h (fun t he => ht t (he ▸ .head _)) hu'.left ha
      obtain ⟨hadv', hτs, htypeds⟩ := ih hadv.scene (fun t hm => ht t (.tail _ hm))
        (hu'.right hadv) has
      refine ⟨?_, ?_, fun θ => .cons ((htyped θ).mono (hadv'.le θ)) (htypeds θ)⟩
      · rw [← List.singleton_append, sitesOf_append]
        exact hadv.trans hadv'
      · intro t hmem
        rcases List.mem_cons.mp hmem with rfl | hmem
        · exact hadv'.store.within hτ
        · exact hτs t hmem

end Names

/-! ### Tails -/

/-- A part with the given operands was inferred: it has the type that was found, for every solution
of the store that is left. -/
structure Infers (lo : Nat) (T : List Temp) (as : List Atom) (p p' : Program) (found : Ty)
    (Has : Context → Ty → Prop) : Prop where
  advances : Advances lo T (sitesOf as) p p'
  within : found.Within lo p'.store.cells.size
  has : ∀ θ, p'.store.Solves θ → Has (p'.working θ) (found.mapVars θ)

section Tails

variable {lo : Nat} {T : List Temp} {p p' : Program}

theorem unify_advances {a b : Ty} (h : Scene lo T p) (ha : a.Within lo p.store.cells.size)
    (hb : b.Within lo p.store.cells.size) (hy : Yields (unify a b) p () p') :
    Advances lo T [] p p' ∧ ∀ θ, p'.store.Solves θ → a.mapVars θ = b.mapVars θ := by
  obtain ⟨hok, rfl⟩ := yields_unified.mp hy
  obtain ⟨href, heq⟩ := Store.unify_spec h.regular ha hb hok
  exact ⟨.of_store h href, heq⟩

theorem unifyArgs_spec {dom : Ty} {args : List Atom} (h : Scene lo T p)
    (hdom : dom.Within lo p.store.cells.size) (ht : ∀ t, .temp t ∈ args → t ∈ T)
    (hu : Unrecorded p args) (hy : Yields (unifyArgs dom args) p () p') :
    Advances lo T (sitesOf args) p p' ∧ ∀ θ, p'.store.Solves θ →
      ∃ τs, dom.mapVars θ = .tuple τs ∧ ArgsHave (p'.working θ) args τs := by
  rw [unifyArgs, yields_bind] at hy
  obtain ⟨types, p₁, hargs, hy⟩ := hy
  obtain ⟨hadv, hfits, htyped⟩ := atomTypes_spec h ht hu hargs
  obtain ⟨hadv', heq⟩ := unify_advances hadv.scene (hadv.store.within hdom)
    (Ty.within_tuple.mpr hfits) hy
  refine ⟨(hadv.trans hadv').mono (by simp), fun θ hθ => ⟨_, ?_, (htyped θ).mono (hadv'.le θ)⟩⟩
  rw [heq θ hθ, Ty.mapVars_tuple]

theorem unifyStored_spec {stored : List Ty} {args : List Atom} (h : Scene lo T p)
    (hstored : p.store.Fits lo stored) (ht : ∀ t, .temp t ∈ args → t ∈ T)
    (hu : Unrecorded p args) (hy : Yields (unifyStored stored args) p () p') :
    Advances lo T (sitesOf args) p p' ∧ ∀ θ, p'.store.Solves θ →
      ArgsHave (p'.working θ) args (stored.map fun t => t.mapVars θ) := by
  rw [unifyStored, yields_bind] at hy
  obtain ⟨types, p₁, hargs, hy⟩ := hy
  obtain ⟨hadv, hfits, htyped⟩ := atomTypes_spec h ht hu hargs
  obtain ⟨hok, rfl⟩ := yields_unified.mp hy
  obtain ⟨href, heq⟩ := Store.unifyAll_spec hadv.scene.regular (hadv.store.fits hstored) hfits hok
  have hadv' := Advances.of_store hadv.scene href
  refine ⟨(hadv.trans hadv').mono (by simp), fun θ hθ => ?_⟩
  rw [heq θ hθ]
  exact (htyped θ).mono (hadv'.le θ)

theorem inferCall_spec {c c' : BlockCall} {rng : Ty} (h : Scene lo T p)
    (ht : ∀ t, .temp t ∈ c.args → t ∈ T) (hu : Unrecorded p c.args)
    (hy : Yields (inferCall c) p (c', rng) p') :
    Infers lo T c.args p p' rng (CallHas · c') ∧ c'.bare = c.bare := by
  rw [inferCall, yields_bind] at hy
  obtain ⟨type, p₁, htype, hy⟩ := hy
  rw [yields_bind] at hy
  obtain ⟨q, p₂, hget, hy⟩ := hy
  obtain ⟨rfl, rfl⟩ := yields_get.mp hget
  rw [yields_bind] at hy
  obtain ⟨_, p₃, hargs, hy⟩ := hy
  obtain ⟨he, rfl⟩ := yields_pure.mp hy
  cases he
  obtain ⟨hadv, hfits, huse⟩ := blockType_spec h htype
  obtain ⟨hadv', heq⟩ := unifyArgs_spec hadv.scene (hfits _ (.head _)) ht (hu.after hadv)
    (yields_within.mp hargs)
  refine ⟨⟨hadv.trans hadv', hadv'.store.within (hfits _ (.tail _ (.head _))), fun θ hθ => ?_⟩, rfl⟩
  obtain ⟨τs, hdom, hτs⟩ := heq θ hθ
  exact .mk ((hadv'.le θ).block _ _ (huse θ)) hdom hτs

theorem inferTail_spec {t t' : Tail} {found : Ty} (h : Scene lo T p)
    (ht : ∀ v, .temp v ∈ t.atoms → v ∈ T) (hu : Unrecorded p t.atoms) (hc : t.SignaturesClosed)
    (hy : Yields (inferTail t) p (t', found) p') :
    Infers lo T t.atoms p p' found (TailHas · t') ∧ t'.bare = t.bare := by
  unfold inferTail at hy
  cases t with
  | ret args =>
      dsimp only at hy
      rw [yields_bind] at hy
      obtain ⟨types, p₁, hargs, hy⟩ := hy
      obtain ⟨he, rfl⟩ := yields_pure.mp hy
      cases he
      obtain ⟨hadv, hfits, htyped⟩ := atomTypes_spec h ht hu hargs
      refine ⟨⟨hadv, Ty.within_tuple.mpr hfits, fun θ _ => ?_⟩, rfl⟩
      rw [Ty.mapVars_tuple]
      exact .ret (htyped θ)
  | call c =>
      dsimp only at hy
      rw [yields_bind] at hy
      obtain ⟨⟨c', rng⟩, p₁, hcall, hy⟩ := hy
      obtain ⟨he, rfl⟩ := yields_pure.mp hy
      cases he
      obtain ⟨hinf, hbare⟩ := inferCall_spec h ht hu hcall
      exact ⟨⟨hinf.advances, hinf.within, fun θ hθ => .call (hinf.has θ hθ)⟩, congrArg Tail.call hbare⟩
  | prim q args inst =>
      dsimp only at hy
      rw [yields_bind] at hy
      obtain ⟨type, p₁, htype, hy⟩ := hy
      rw [yields_bind] at hy
      obtain ⟨_, p₂, hargs, hy⟩ := hy
      obtain ⟨he, rfl⟩ := yields_pure.mp hy
      cases he
      obtain ⟨rfl, rfl⟩ := yields_withStore.mp htype
      obtain ⟨href, hfits, hinst⟩ := q.type.instantiate_spec h.regular hc
      have hadv := Advances.of_store h href
      obtain ⟨hadv', heq⟩ := unifyArgs_spec hadv.scene (hfits _ (.head _)) ht (hu.after hadv)
        (yields_within.mp hargs)
      refine ⟨⟨hadv.trans hadv', hadv'.store.within (hfits _ (.tail _ (.head _))), fun θ hθ => ?_⟩,
        rfl⟩
      obtain ⟨τs, hdom, hτs⟩ := heq θ hθ
      exact .prim ⟨hc, hinst.of_extends hadv'.store.grows⟩ hdom hτs
  | alloc id args inst =>
      dsimp only at hy
      rw [yields_bind] at hy
      obtain ⟨type, p₁, htype, hy⟩ := hy
      rw [yields_bind] at hy
      obtain ⟨q, p₂, hget, hy⟩ := hy
      obtain ⟨rfl, rfl⟩ := yields_get.mp hget
      rw [yields_bind] at hy
      obtain ⟨_, p₃, hargs, hy⟩ := hy
      obtain ⟨he, rfl⟩ := yields_pure.mp hy
      cases he
      obtain ⟨hadv, hfits, huse⟩ := allocType_spec h htype
      obtain ⟨hadv', heq⟩ := unifyStored_spec hadv.scene
        (fun t ht => hfits t (List.mem_append_left _ ht)) ht (hu.after hadv) (yields_within.mp hargs)
      have hresult := hadv'.store.within (hfits type.result (List.mem_append_right _ (.head _)))
      refine ⟨⟨hadv.trans hadv', Ty.within_tuple.mpr (by simpa using hresult), fun θ hθ => ?_⟩, rfl⟩
      rw [Ty.mapVars_tuple]
      exact .alloc ((hadv'.le θ).closure _ _ (huse θ)) (heq θ hθ)
  | data k args inst =>
      dsimp only at hy
      rw [yields_bind] at hy
      obtain ⟨type, p₁, htype, hy⟩ := hy
      rw [yields_bind] at hy
      obtain ⟨_, p₂, hargs, hy⟩ := hy
      obtain ⟨he, rfl⟩ := yields_pure.mp hy
      cases he
      obtain ⟨rfl, rfl⟩ := yields_withStore.mp htype
      obtain ⟨href, hfits, hinst⟩ := k.type.instantiate_spec h.regular hc
      have hadv := Advances.of_store h href
      obtain ⟨hadv', heq⟩ := unifyStored_spec hadv.scene
        (fun t ht => hfits t (List.mem_append_left _ ht)) ht (hu.after hadv) (yields_within.mp hargs)
      have hresult := hadv'.store.within (hfits _ (List.mem_append_right _ (.head _)))
      refine ⟨⟨hadv.trans hadv', Ty.within_tuple.mpr (by simpa using hresult), fun θ hθ => ?_⟩, rfl⟩
      rw [Ty.mapVars_tuple]
      exact .data ⟨hc, hinst.of_extends hadv'.store.grows⟩ (heq θ hθ)
  | enter fn args =>
      dsimp only at hy
      rw [yields_bind] at hy
      obtain ⟨fnType, p₁, hfn, hy⟩ := hy
      rw [yields_bind] at hy
      obtain ⟨types, p₂, hargs, hy⟩ := hy
      rw [yields_bind] at hy
      obtain ⟨rng, p₃, hrng, hy⟩ := hy
      rw [yields_bind] at hy
      obtain ⟨_, p₄, hunify, hy⟩ := hy
      obtain ⟨he, rfl⟩ := yields_pure.mp hy
      cases he
      have hu' : Unrecorded p ([fn] ++ args) := hu
      obtain ⟨hadv₁, hτ, hfn⟩ := atomType_spec h (fun t he => ht t (he ▸ .head _)) hu'.left hfn
      obtain ⟨hadv₂, hτs, hargs⟩ := atomTypes_spec hadv₁.scene (fun t hm => ht t (.tail _ hm))
        (hu'.right hadv₁) hargs
      obtain ⟨rfl, rfl⟩ := yields_withStore.mp hrng
      have hadv₃ := Advances.of_store hadv₂.scene (.fresh hadv₂.scene.regular .tuple)
      have hrng : (p₂.store.fresh .tuple).1.Within lo (p₂.store.fresh .tuple).2.cells.size := by
        refine Ty.within_var.mpr ⟨hadv₂.scene.regular.le_size, ?_⟩
        rw [Store.size_fresh]
        omega
      obtain ⟨hadv₄, heq⟩ := unify_advances hadv₃.scene
        (hadv₃.store.within (hadv₂.store.within hτ))
        (Ty.within_func.mpr ⟨Ty.within_tuple.mpr (hadv₃.store.fits hτs), hrng⟩)
        (yields_within.mp hunify)
      have hadv₃₄ := hadv₃.trans hadv₄
      refine ⟨⟨?_, hadv₄.store.within hrng, fun θ hθ => ?_⟩, rfl⟩
      · refine ((hadv₁.trans hadv₂).trans hadv₃₄).mono ?_
        rw [← sitesOf_append]
        simp [Tail.atoms]
      · have hfn' := (hfn θ).mono ((hadv₂.trans hadv₃₄).le θ)
        rw [heq θ hθ, Ty.mapVars_func, Ty.mapVars_tuple] at hfn'
        exact .enter hfn' ((hargs θ).mono (hadv₃₄.le θ))
  | sel k field arg inst =>
      dsimp only at hy
      split at hy
      · rw [yields_bind] at hy
        obtain ⟨_, _, hfail, -⟩ := hy
        exact absurd hfail not_yields_throw
      · rename_i hrange
        rw [not_or] at hrange
        rw [yields_bind] at hy
        obtain ⟨type, p₁, htype, hy⟩ := hy
        rw [yields_bind] at hy
        obtain ⟨argType, p₂, harg, hy⟩ := hy
        rw [yields_bind] at hy
        obtain ⟨_, p₃, hunify, hy⟩ := hy
        obtain ⟨he, rfl⟩ := yields_pure.mp hy
        cases he
        obtain ⟨rfl, rfl⟩ := yields_withStore.mp htype
        obtain ⟨href, hfits, hinst⟩ := k.type.instantiate_spec h.regular hc
        have hadv₁ := Advances.of_store h href
        obtain ⟨hadv₂, hτ, harg⟩ := atomType_spec hadv₁.scene (fun t he => ht t (he ▸ .head _))
          (hu.after hadv₁) harg
        have hresult := hadv₂.store.within (hfits _ (List.mem_append_right _ (.head _)))
        obtain ⟨hadv₃, heq⟩ := unify_advances hadv₂.scene hresult hτ (yields_within.mp hunify)
        have hlen : field.toNat < (k.type.instantiate p.store).1.stored.length := by
          have : k.arity = k.type.stored.length := rfl
          simp only [AllocType.instantiate, AllocType.instantiateWith, AllocType.mapTypes,
            List.length_map]
          omega
        have hget := List.getElem?_eq_getElem hlen
        have hfield := hadv₃.store.within (hadv₂.store.within
          (hfits _ (List.mem_append_left _ (List.getElem_mem hlen))))
        rw [hget, Option.toList_some]
        refine ⟨⟨(hadv₁.trans hadv₂).trans hadv₃ |>.mono (by simp [Tail.atoms]), ?_,
          fun θ hθ => ?_⟩, rfl⟩
        · exact Ty.within_tuple.mpr (by simpa using hfield)
        · rw [Ty.mapVars_tuple]
          have harg' := (harg θ).mono (hadv₃.le θ)
          rw [← heq θ hθ] at harg'
          exact .sel ⟨hc, hinst.of_extends (hadv₂.trans hadv₃).store.grows⟩ (by omega) hget harg'

end Tails

/-! ### Bodies -/

section Bodies

variable {lo : Nat} {T : List Temp} {p p' : Program}

/-- Giving a type to a temporary that has none. -/
theorem Advances.typeTemp {v : Temp} {type : Ty} (h : Scene lo T p) (hv : v ∈ T)
    (hnone : p.temps.typeOf v = none) (htype : type.Within lo p.store.cells.size) :
    Advances lo T [] p { p with temps := p.temps.modify v fun _ => some type } where
  scene := {
    regular := h.regular
    temps := fun t ht τ hτ => by
      rw [TempTypes.typeOf, Array.getElem?_modify] at hτ
      split at hτ
      · rename_i hvt
        rw [← hvt, Array.getElem?_eq_getElem (h.room v hv)] at hτ
        cases hτ
        exact htype
      · exact h.temps t ht τ hτ
    room := fun t ht => by
      rw [Array.size_modify]
      exact h.room t ht
    visible := h.visible }
  store := .refl h.regular
  env := rfl
  prims := rfl
  defns := rfl
  atoms a t ha := by
    cases a with
    | temp x =>
        by_cases hx : v = x
        · subst hx
          rw [Program.atomType, hnone] at ha
          cases ha
        · simp only [Program.atomType, TempTypes.typeOf, Array.getElem?_modify, if_neg hx]
          exact ha
    | lit l => cases l <;> exact ha
    | top id index x => exact ha
  temps_size := Array.size_modify ..
  temps t ht := by
    rw [TempTypes.typeOf, Array.getElem?_modify, if_neg]
    · rfl
    · rintro rfl
      exact ht hv
  sites_size := rfl
  sites _ _ := rfl

theorem typeOf_modify_self {v : Temp} {type : Ty} (hv : v < p.temps.size) :
    TempTypes.typeOf (p.temps.modify v fun _ => some type) v = some type := by
  rw [TempTypes.typeOf, Array.getElem?_modify, if_pos rfl, Array.getElem?_eq_getElem hv]
  rfl

theorem binderTypes_spec {vs : List Temp} {types : List Ty} (h : Scene lo T p)
    (hvs : ∀ v ∈ vs, v ∈ T) (hy : Yields (binderTypes vs) p types p') :
    Advances lo T [] p p' ∧ p'.store.Fits lo types ∧
      ∀ θ, ArgsHave (p'.working θ) (vs.map .temp) (types.map fun t => t.mapVars θ) := by
  induction vs generalizing p types with
  | nil =>
      obtain ⟨rfl, rfl⟩ := yields_pure.mp hy
      exact ⟨.refl h, fun t ht => absurd ht List.not_mem_nil, fun θ => .nil⟩
  | cons v vs ih =>
      have hv : v ∈ T := hvs v (.head _)
      rw [binderTypes, yields_bind] at hy
      obtain ⟨q, p₁, hget, hy⟩ := hy
      obtain ⟨rfl, rfl⟩ := yields_get.mp hget
      suffices hfirst : ∀ {p₂ : Program} {type : Ty}, Advances lo T [] p₁ p₂ →
          p₂.temps.typeOf v = some type → ∀ {types' : List Ty}, Yields (binderTypes vs) p₂ types' p' →
          types = type :: types' →
          Advances lo T [] p₁ p' ∧ p'.store.Fits lo types ∧
            ∀ θ, ArgsHave (p'.working θ) ((v :: vs).map .temp) (types.map fun t => t.mapVars θ) by
        split at hy
        · rename_i type htype
          rw [yields_bind] at hy
          obtain ⟨_, p₂, hpure, hy⟩ := hy
          obtain ⟨rfl, rfl⟩ := yields_pure.mp hpure
          rw [yields_bind] at hy
          obtain ⟨types', p₃, hrest, hy⟩ := hy
          obtain ⟨rfl, rfl⟩ := yields_pure.mp hy
          exact hfirst (.refl h) htype hrest rfl
        · rename_i hnone
          rw [yields_bind] at hy
          obtain ⟨type, p₂, hfresh, hy⟩ := hy
          obtain ⟨rfl, rfl⟩ := yields_withStore.mp hfresh
          rw [yields_bind] at hy
          obtain ⟨_, p₃, hmod, hy⟩ := hy
          obtain rfl := yields_modify.mp hmod
          rw [yields_bind] at hy
          obtain ⟨_, p₄, hpure, hy⟩ := hy
          obtain ⟨rfl, rfl⟩ := yields_pure.mp hpure
          rw [yields_bind] at hy
          obtain ⟨types', p₅, hrest, hy⟩ := hy
          obtain ⟨rfl, rfl⟩ := yields_pure.mp hy
          have hadv := Advances.of_store h (.fresh h.regular .star)
          have htype : (p₁.store.fresh .star).1.Within lo (p₁.store.fresh .star).2.cells.size := by
            refine Ty.within_var.mpr ⟨h.regular.le_size, ?_⟩
            rw [Store.size_fresh]
            omega
          exact hfirst (hadv.trans (.typeTemp hadv.scene hv hnone htype))
            (typeOf_modify_self (h.room v hv)) hrest rfl
      intro p₂ type hadv htype types' hrest heq
      obtain ⟨hadv', hfits, htyped⟩ := ih hadv.scene (fun v hv => hvs v (.tail _ hv)) hrest
      subst heq
      refine ⟨hadv.trans hadv', fun t ht => ?_, fun θ => .cons ?_ (htyped θ)⟩
      · rcases List.mem_cons.mp ht with rfl | ht
        · exact hadv'.store.within (hadv.scene.temps v hv t htype)
        · exact hfits t ht
      · have hhas : AtomHas (p₂.working θ) (.temp v) (type.mapVars θ) :=
          ⟨type, htype, rfl, fun _ _ _ he => nomatch he⟩
        exact hhas.mono (hadv'.le θ)

/-- What the alternatives of a case must satisfy. -/
def AltsHave (Γ : Context) (alts : List (Cfun × BlockCall)) (σ τ : Ty) : Prop :=
  ∀ alt ∈ alts, (∃ inst, Γ.cfun alt.1 inst ∧ Γ.read inst.result = σ) ∧ CallHas Γ alt.2 τ

theorem AltsHave.mono {Γ Γ' : Context} {alts : List (Cfun × BlockCall)} {σ τ : Ty}
    (h : AltsHave Γ alts σ τ) (hle : Γ.Le Γ') : AltsHave Γ' alts σ τ := by
  intro alt ha
  obtain ⟨⟨inst, huse, hresult⟩, hcall⟩ := h alt ha
  exact ⟨⟨inst, hle.cfun _ _ huse, by rw [hle.read, hresult]⟩, hcall.mono hle⟩

/-- The alternatives of a case without their recorded instances. -/
def bareAlts (alts : List (Cfun × BlockCall)) : List (Cfun × BlockCall) :=
  alts.map fun alt => (alt.1, alt.2.bare)

/-- The operands of the alternatives of a case. -/
def altAtoms (alts : List (Cfun × BlockCall)) : List Atom := (alts.map Prod.snd).flatMap BlockCall.args

theorem inferAlts_spec {scrut rng : Ty} {alts alts' : List (Cfun × BlockCall)} (h : Scene lo T p)
    (hscrut : scrut.Within lo p.store.cells.size) (hrng : rng.Within lo p.store.cells.size)
    (ht : ∀ t, .temp t ∈ altAtoms alts → t ∈ T) (hu : Unrecorded p (altAtoms alts))
    (hc : ∀ alt ∈ alts, ClosedUnder alt.1.type.kinds.length alt.1.type.parts)
    (hy : Leaves (inferAlts scrut rng alts) p (alts', .ok ()) p') :
    Advances lo T (sitesOf (altAtoms alts)) p p' ∧ bareAlts alts' = bareAlts alts ∧
      ∀ θ, p'.store.Solves θ → AltsHave (p'.working θ) alts' (scrut.mapVars θ) (rng.mapVars θ) := by
  induction alts generalizing p alts' with
  | nil =>
      obtain ⟨he, rfl⟩ := leaves_pure.mp hy
      cases he
      exact ⟨.refl h, rfl, fun θ _ alt ha => absurd ha List.not_mem_nil⟩
  | cons alt alts ih =>
      obtain ⟨k, c⟩ := alt
      have hu' : Unrecorded p (c.args ++ altAtoms alts) := hu
      rw [inferAlts, leaves_bind] at hy
      obtain ⟨r, p₁, hfirst, hy⟩ := hy
      split at hy
      · cases (leaves_pure.mp hy).1
      · rename_i c' found
        rw [leaves_run, yields_bind] at hfirst
        obtain ⟨type, q₁, htype, hfirst⟩ := hfirst
        obtain ⟨rfl, rfl⟩ := yields_withStore.mp htype
        rw [yields_bind] at hfirst
        obtain ⟨_, q₂, hunify, hcall⟩ := hfirst
        obtain ⟨href, hfits, hinst⟩ := k.type.instantiate_spec h.regular (hc _ (.head _))
        have hadv₁ := Advances.of_store h href
        have hresult := hfits _ (List.mem_append_right _ (.head _))
        obtain ⟨hadv₂, heq₂⟩ := unify_advances hadv₁.scene hresult (hadv₁.store.within hscrut)
          (yields_within.mp hunify)
        have hadv₁₂ := hadv₁.trans hadv₂
        obtain ⟨hinf, hbare⟩ := inferCall_spec hadv₂.scene
          (fun t hm => ht t (List.mem_append_left _ hm)) (hu'.left.after hadv₁₂) hcall
        have hadv₃ := hinf.advances
        rw [leaves_bind] at hy
        obtain ⟨r, p₂, hsecond, hy⟩ := hy
        split at hy
        · cases (leaves_pure.mp hy).1
        · have hrng' := hadv₃.store.within (hadv₁₂.store.within hrng)
          obtain ⟨hadv₄, heq₄⟩ := unify_advances hadv₃.scene hrng' hinf.within
            (yields_within.mp hsecond)
          have hadv₃₄ := hadv₃.trans hadv₄
          have hadv : Advances lo T (sitesOf c.args) p p₂ := (hadv₁₂.trans hadv₃₄).mono (by simp)
          rw [leaves_bind] at hy
          obtain ⟨⟨alts'', r⟩, p₃, hrest, hy⟩ := hy
          obtain ⟨he, rfl⟩ := leaves_pure.mp hy
          cases he
          obtain ⟨hadv', hbare', hhave⟩ := ih hadv.scene (hadv.store.within hscrut)
            (hadv.store.within hrng) (fun t hm => ht t (List.mem_append_right _ hm))
            (hu'.right hadv) (fun alt ha => hc alt (.tail _ ha)) hrest
          refine ⟨?_, ?_, fun θ hθ alt ha => ?_⟩
          · have hsites : sitesOf (altAtoms ((k, c) :: alts)) = sitesOf c.args ++ sitesOf (altAtoms alts) :=
              sitesOf_append ..
            rw [hsites]
            exact hadv.trans hadv'
          · show (k, c'.bare) :: bareAlts alts'' = (k, c.bare) :: bareAlts alts
            rw [hbare, hbare']
          · rcases List.mem_cons.mp ha with rfl | ha
            · have hθ₄ := hadv'.store.solves hθ
              have hθ₃ := hadv₄.store.solves hθ₄
              have hinst' := hinst.of_extends
                ((hadv₂.store.trans hadv₃₄.store).trans hadv'.store).grows
              refine ⟨⟨_, ⟨hc (k, c) (.head _), hinst'⟩, heq₂ θ (hadv₃.store.solves hθ₃)⟩, ?_⟩
              rw [heq₄ θ hθ₄]
              exact (hinf.has θ hθ₃).mono ((hadv₄.trans hadv').le θ)
            · exact hhave θ hθ alt ha

/-- Inference of an optional call against the type of a case. -/
theorem inferDefault_spec {rng : Ty} {default default' : Option BlockCall} (h : Scene lo T p)
    (hrng : rng.Within lo p.store.cells.size)
    (ht : ∀ t, .temp t ∈ default.toList.flatMap BlockCall.args → t ∈ T)
    (hu : Unrecorded p (default.toList.flatMap BlockCall.args))
    (hy : Leaves (inferDefault rng default) p (default', .ok ()) p') :
    Advances lo T (sitesOf (default.toList.flatMap BlockCall.args)) p p' ∧
      default'.map BlockCall.bare = default.map BlockCall.bare ∧
      ∀ θ, p'.store.Solves θ → ∀ c, default' = some c → CallHas (p'.working θ) c (rng.mapVars θ) := by
  unfold inferDefault at hy
  cases default with
  | none =>
      obtain ⟨he, rfl⟩ := leaves_pure.mp hy
      cases he
      exact ⟨.refl h, rfl, fun θ _ c hc => nomatch hc⟩
  | some c =>
      have hargs : (some c).toList.flatMap BlockCall.args = c.args := by simp
      rw [hargs] at ht hu ⊢
      dsimp only at hy
      rw [leaves_bind] at hy
      obtain ⟨r, p₁, hcall, hy⟩ := hy
      split at hy
      · cases (leaves_pure.mp hy).1
      · rename_i c' found
        rw [leaves_bind] at hy
        obtain ⟨r, p₂, hunify, hy⟩ := hy
        obtain ⟨he, rfl⟩ := leaves_pure.mp hy
        cases he
        obtain ⟨hinf, hbare⟩ := inferCall_spec h ht hu hcall
        obtain ⟨hadv, heq⟩ := unify_advances hinf.advances.scene
          (hinf.advances.store.within hrng) hinf.within (yields_within.mp hunify)
        refine ⟨(hinf.advances.trans hadv).mono (by simp), congrArg some hbare, ?_⟩
        rintro θ hθ _ ⟨⟩
        rw [heq θ hθ]
        exact (hinf.has θ (hadv.store.solves hθ)).mono (hadv.le θ)

theorem inferBranch_spec {cond : Atom} {t f : BlockCall} {code' : Code} {found : Ty}
    (h : Scene lo T p) (ht : ∀ v, .temp v ∈ (Code.branch cond t f).atoms → v ∈ T)
    (hu : Unrecorded p (Code.branch cond t f).atoms)
    (hy : Leaves (inferBranch cond t f) p (code', .ok found) p') :
    Infers lo T (Code.branch cond t f).atoms p p' found (CodeHas · code') ∧
      code'.bare = (Code.branch cond t f).bare := by
  have hu' : Unrecorded p ([cond] ++ (t.args ++ f.args)) := hu
  have ht' : ∀ v, .temp v ∈ [cond] ++ (t.args ++ f.args) → v ∈ T := ht
  rw [inferBranch, leaves_bind] at hy
  obtain ⟨r, p₁, hstart, hy⟩ := hy
  split at hy
  · cases (leaves_pure.mp hy).1
  · rename_i t' tType
    rw [leaves_run, yields_bind] at hstart
    obtain ⟨condType, q₁, hcond, hstart⟩ := hstart
    rw [yields_bind] at hstart
    obtain ⟨_, q₂, hunify, hcall⟩ := hstart
    obtain ⟨hadv₁, hτ, hcond⟩ := atomType_spec h
      (fun v he => ht' v (List.mem_append_left _ (he ▸ .head _))) hu'.left hcond
    obtain ⟨hadv₂, heq₂⟩ := unify_advances hadv₁.scene (Ty.within_con _) hτ
      (yields_within.mp hunify)
    have hadv₁₂ : Advances lo T (sitesOf [cond]) p q₂ := (hadv₁.trans hadv₂).mono (by simp)
    have hcalls := hu'.right hadv₁₂
    obtain ⟨hinf₃, hbare₃⟩ := inferCall_spec hadv₁₂.scene
      (fun v hv => ht' v (List.mem_append_right _ (List.mem_append_left _ hv))) hcalls.left hcall
    have hadv₃ := hinf₃.advances
    rw [leaves_bind] at hy
    obtain ⟨r, p₂, hcall', hy⟩ := hy
    split at hy
    · cases (leaves_pure.mp hy).1
    · rename_i f' fType
      rw [leaves_bind] at hy
      obtain ⟨r, p₃, hunify', hy⟩ := hy
      obtain ⟨he, rfl⟩ := leaves_pure.mp hy
      cases r with
      | error e => cases he
      | ok u =>
          cases he
          obtain ⟨hinf₄, hbare₄⟩ := inferCall_spec hadv₃.scene
            (fun v hv => ht' v (List.mem_append_right _ (List.mem_append_right _ hv)))
            (hcalls.right hadv₃) hcall'
          have hadv₄ := hinf₄.advances
          obtain ⟨hadv₅, heq₅⟩ := unify_advances hadv₄.scene
            (hadv₄.store.within hinf₃.within) hinf₄.within (yields_within.mp hunify')
          have hadv₄₅ := hadv₄.trans hadv₅
          refine ⟨⟨?_, hadv₄₅.store.within hinf₃.within, fun θ hθ => ?_⟩, ?_⟩
          · refine (hadv₁₂.trans (hadv₃.trans hadv₄₅)).mono ?_
            rw [List.append_nil, ← sitesOf_append, ← sitesOf_append]
            exact fun _ hx => hx
          · have hθ₄ := hadv₅.store.solves hθ
            have hcond' := (hcond θ).mono ((hadv₂.trans (hadv₃.trans hadv₄₅)).le θ)
            rw [← heq₂ θ ((hadv₃.trans hadv₄₅).store.solves hθ), Ty.mapVars_con] at hcond'
            refine .branch hcond' ((hinf₃.has θ (hadv₄.store.solves hθ₄)).mono (hadv₄₅.le θ)) ?_
            rw [heq₅ θ hθ]
            exact (hinf₄.has θ hθ₄).mono (hadv₅.le θ)
          · rw [Code.bare, hbare₃, hbare₄]
            rfl

theorem inferCase_spec {scrut : Atom} {alts : List (Cfun × BlockCall)} {default : Option BlockCall}
    {code' : Code} {found : Ty} (h : Scene lo T p)
    (ht : ∀ v, .temp v ∈ (Code.case scrut alts default).atoms → v ∈ T)
    (hu : Unrecorded p (Code.case scrut alts default).atoms)
    (hc : (Code.case scrut alts default).SignaturesClosed)
    (hy : Leaves (inferCase scrut alts default) p (code', .ok found) p') :
    Infers lo T (Code.case scrut alts default).atoms p p' found (CodeHas · code') ∧
      code'.bare = (Code.case scrut alts default).bare := by
  have hatoms : (Code.case scrut alts default).atoms =
        [scrut] ++ (altAtoms alts ++ default.toList.flatMap BlockCall.args) := by
    simp [Code.atoms, Code.calls, altAtoms]
  rw [hatoms] at ht hu ⊢
  rw [inferCase, leaves_bind] at hy
  obtain ⟨r, p₁, hstart, hy⟩ := hy
  split at hy
  · cases (leaves_pure.mp hy).1
  · rename_i scrutType rng
    rw [leaves_run, yields_bind] at hstart
    obtain ⟨_, q₁, hscrut, hstart⟩ := hstart
    rw [yields_bind] at hstart
    obtain ⟨_, q₂, hfresh, hstart⟩ := hstart
    obtain ⟨he, rfl⟩ := yields_pure.mp hstart
    cases he
    obtain ⟨rfl, rfl⟩ := yields_withStore.mp hfresh
    obtain ⟨hadv₁, hτ, hscrut⟩ := atomType_spec h
      (fun v he => ht v (List.mem_append_left _ (he ▸ .head _))) hu.left hscrut
    have hadv₂ := Advances.of_store hadv₁.scene (.fresh hadv₁.scene.regular .tuple)
    have hrng : (q₁.store.fresh .tuple).1.Within lo (q₁.store.fresh .tuple).2.cells.size := by
      refine Ty.within_var.mpr ⟨hadv₁.scene.regular.le_size, ?_⟩
      rw [Store.size_fresh]
      omega
    have hadv₁₂ : Advances lo T (sitesOf [scrut]) p _ := (hadv₁.trans hadv₂).mono (by simp)
    have hcalls := hu.right hadv₁₂
    rw [leaves_bind] at hy
    obtain ⟨⟨alts', r⟩, p₂, halts, hy⟩ := hy
    split at hy
    · cases (leaves_pure.mp hy).1
    · rename_i heq
      cases heq
      rw [leaves_bind] at hy
      obtain ⟨⟨default', r⟩, p₃, hdefault, hy⟩ := hy
      obtain ⟨he, rfl⟩ := leaves_pure.mp hy
      cases r with
      | error e => cases he
      | ok u =>
          cases he
          obtain ⟨hadv₃, hbare₃, hhave₃⟩ := inferAlts_spec hadv₁₂.scene (hadv₂.store.within hτ) hrng
            (fun v hv => ht v (List.mem_append_right _ (List.mem_append_left _ hv))) hcalls.left hc
            halts
          obtain ⟨hadv₄, hbare₄, hhave₄⟩ := inferDefault_spec hadv₃.scene (hadv₃.store.within hrng)
            (fun v hv => ht v (List.mem_append_right _ (List.mem_append_right _ hv)))
            (hcalls.right hadv₃) hdefault
          have hadv₃₄ := hadv₃.trans hadv₄
          refine ⟨⟨?_, hadv₃₄.store.within hrng, fun θ hθ => ?_⟩, ?_⟩
          · rw [sitesOf_append, sitesOf_append]
            exact hadv₁₂.trans hadv₃₄
          · exact .case ((hscrut θ).mono ((hadv₂.trans hadv₃₄).le θ))
              ((hhave₃ θ (hadv₄.store.solves hθ)).mono (hadv₄.le θ)) (hhave₄ θ hθ)
          · show Code.case scrut (bareAlts alts') (default'.map BlockCall.bare) = _
            rw [hbare₃, hbare₄]
            rfl

/-- The inference of a body gives a derivation. -/
theorem inferCode_spec {code code' : Code} {found : Ty} (h : Scene lo T p)
    (ht : ∀ v, .temp v ∈ code.atoms → v ∈ T) (hb : ∀ v ∈ code.binders, v ∈ T)
    (hu : Unrecorded p code.atoms) (hc : code.SignaturesClosed)
    (hy : Leaves (inferCode code) p (code', .ok found) p') :
    Infers lo T code.atoms p p' found (CodeHas · code') ∧ code'.bare = code.bare := by
  induction code generalizing p code' with
  | bind vars tail next ih =>
      have ht' : ∀ v, .temp v ∈ tail.atoms ++ next.atoms → v ∈ T := ht
      have hu' : Unrecorded p (tail.atoms ++ next.atoms) := hu
      rw [inferCode, leaves_bind] at hy
      obtain ⟨r, p₁, htail, hy⟩ := hy
      split at hy
      · cases (leaves_pure.mp hy).1
      · rename_i tail' tailType
        obtain ⟨hinf₁, hbare₁⟩ := inferTail_spec h
          (fun v hv => ht' v (List.mem_append_left _ hv)) hu'.left hc.1 htail
        have hadv₁ := hinf₁.advances
        rw [leaves_bind] at hy
        obtain ⟨r, p₂, hbound, hy⟩ := hy
        split at hy
        · cases (leaves_pure.mp hy).1
        · rw [leaves_run, yields_bind] at hbound
          obtain ⟨types, q₁, hvars, hunify⟩ := hbound
          obtain ⟨hadv₂, hfits₂, hvars⟩ := binderTypes_spec hadv₁.scene
            (fun v hv => hb v (List.mem_append_left _ hv)) hvars
          obtain ⟨hadv₃, heq₃⟩ := unify_advances hadv₂.scene (Ty.within_tuple.mpr hfits₂)
            (hadv₂.store.within hinf₁.within) hunify
          have hadv₂₃ := hadv₂.trans hadv₃
          have hadv : Advances lo T (sitesOf tail.atoms) p p₂ :=
            (hadv₁.trans hadv₂₃).mono (by simp)
          rw [leaves_bind] at hy
          obtain ⟨⟨next', r⟩, p₃, hnext, hy⟩ := hy
          obtain ⟨he, rfl⟩ := leaves_pure.mp hy
          cases he
          obtain ⟨hinf₄, hbare₄⟩ := ih hadv.scene
            (fun v hv => ht' v (List.mem_append_right _ hv))
            (fun v hv => hb v (List.mem_append_right _ hv)) (hu'.right hadv) hc.2 hnext
          have hadv₄ := hinf₄.advances
          refine ⟨⟨?_, hinf₄.within, fun θ hθ => ?_⟩, ?_⟩
          · show Advances lo T (sitesOf (tail.atoms ++ next.atoms)) p p₃
            rw [sitesOf_append]
            exact hadv.trans hadv₄
          · have hθ₃ := hadv₄.store.solves hθ
            have htail' := (hinf₁.has θ (hadv₂₃.store.solves hθ₃)).mono ((hadv₂₃.trans hadv₄).le θ)
            rw [← heq₃ θ hθ₃, Ty.mapVars_tuple] at htail'
            exact .bind htail' ((hvars θ).mono ((hadv₃.trans hadv₄).le θ)) (hinf₄.has θ hθ)
          · rw [Code.bare, Code.bare, hbare₁, hbare₄]
  | done tail =>
      rw [inferCode, leaves_bind] at hy
      obtain ⟨r, p₁, htail, hy⟩ := hy
      split at hy
      · cases (leaves_pure.mp hy).1
      · obtain ⟨he, rfl⟩ := leaves_pure.mp hy
        cases he
        obtain ⟨hinf, hbare⟩ := inferTail_spec h ht hu hc htail
        exact ⟨⟨hinf.advances, hinf.within, fun θ hθ => .done (hinf.has θ hθ)⟩, congrArg Code.done hbare⟩
  | branch cond t f => exact inferBranch_spec h ht hu hy
  | case scrut alts default => exact inferCase_spec h ht hu hc hy

end Bodies

end Typing

end Mil
