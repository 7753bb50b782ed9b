import Mil.Proofs.Typing.Invariant

/-!
The second step on a definition: its body is inferred and unified with the working type.
-/

namespace Mil

namespace Typing

theorem yields_outcome {c c' : Checker} {d : Defn} {r : Except Stop Unit}
    (h : Yields (outcome d r) c none c') : r = .ok () ∧ c' = c := by
  unfold outcome at h
  split at h
  · exact ⟨rfl, (yields_pure.mp h).2.symm⟩
  · exact absurd h not_yields_throw
  · rw [yields_bind] at h
    obtain ⟨_, _, -, h⟩ := h
    exact nomatch (yields_pure.mp h).1

section CheckBody

variable {n lo : Nat} {p p₁ : Program} {φ : DefnId → Phase} {id : DefnId} {d : Defn}
  {body : DefnBody} {s : Store}

/-- Inference of the body of a definition, a new body at its place, and a last unification. -/
theorem stepOn_infer (hd : p.defns[id]? = some d)
    (hadv : Advances lo d.body.temps (sitesOf d.body.atoms) p p₁) (href : p₁.store.Refines lo s)
    (hshape : d.body.SameShape body) (hopens : d.body.Opens s body) :
    StepOn lo lo id d body p { p₁.setBody id body with store := s } where
  frame := {
    store := hadv.store.trans href
    frozen := (hadv.store.trans href).frozen
    le := working_le hd (by rw [Program.setBody, Program.setBody, hadv.defns]) hopens
      (hadv.store.trans href).grows fun a t ha => by
        have := hadv.atoms a t ha
        cases a <;> exact this }
  shape := hshape
  env := hadv.env
  prims := hadv.prims
  defns := by rw [Program.setBody, Program.setBody, hadv.defns]
  temps_size := hadv.temps_size
  temps := hadv.temps
  sites := hadv.sites

theorem le_infer (hd : p.defns[id]? = some d)
    (hadv : Advances lo d.body.temps (sitesOf d.body.atoms) p p₁) (href : p₁.store.Refines lo s)
    (hopens : d.body.Opens s body) (θ : Nat → Ty) :
    (p₁.working θ).Le (Program.working { p₁.setBody id body with store := s } θ) := by
  have hdefns : Program.defns { p₁.setBody id body with store := s } = (p₁.setBody id body).defns :=
    rfl
  exact working_le (hadv.defns ▸ hd) hdefns hopens href.grows
    (fun a t ha => by cases a <;> exact ha) θ

theorem inv_checkBlock {c c₁ c' : Checker} {b : Block} {type : BlockType} {code code' : Code}
    {found : Ty} (h : Inv n lo lo c.program φ) (hd : c.program.defns[id]? = some d)
    (hb : d.body = .block b) (hcode : b.body = some code) (htype : b.defining = some type)
    (hφ : φ id = .initialised)
    (hinfer : Leaves (inferCode code) c.program (code', .ok found) c₁.program)
    (hc' : c'.program = { c₁.program.setBody id (.block { b with body := some code' }) with
      store := (c₁.program.store.unify type.rng found).2 })
    (hok : c₁.program.store.unify type.rng found =
      (.ok (), (c₁.program.store.unify type.rng found).2)) :
    Inv n lo lo c'.program (Function.update φ id .inferred) := by
  have hinit : InitialisedStage lo c.program d.body := by
    have := h.stage hd
    rwa [hφ] at this
  have hatoms : d.body.atoms = code.atoms := by rw [hb, DefnBody.atoms, hcode]; rfl
  have hbinders : d.body.binders = code.binders := by rw [hb, DefnBody.binders, hcode]; rfl
  have hi : b.interface ∈ d.body.interfaces := by
    rw [hb]
    exact .head _
  have hfits : c.program.store.Fits lo type.parts := by
    refine hinit.working _ hi type.parts ?_
    rw [Block.interface, htype]
    rfl
  obtain ⟨hinf, hbare⟩ := inferCode_spec (h.scene hd hinit)
    (fun v hv => DefnBody.mem_temps_of_atom (hatoms ▸ hv))
    (fun v hv => DefnBody.mem_temps_of_binder (hbinders ▸ hv)) (hatoms ▸ hinit.unrecorded)
    (by
      have := hinit.signatures
      rw [hb] at this
      exact this code hcode)
    hinfer
  have hadv := hatoms ▸ hinf.advances
  obtain ⟨href, heq⟩ := Store.unify_spec hadv.scene.regular
    (hadv.store.within (hfits type.rng (.tail _ (.head _)))) hinf.within hok
  have hopens : ∀ s, d.body.Opens s (.block { b with body := some code' }) := fun s => by
    rw [hb]
    exact .block (.refl s b.interface)
  have hshape : d.body.SameShape (.block { b with body := some code' }) := by
    rw [hb]
    refine .block rfl ?_
    rw [hcode, Option.map_some, Option.map_some, hbare]
  have hstep := stepOn_infer hd hadv href hshape (hopens _)
  rw [hc']
  refine h.step hd hstep ⟨?_, ?_, fun θ hθ => ?_, ?_⟩
  · rintro i (_ | ⟨_, ⟨⟩⟩) q hq
    exact hinit.declared _ hi q hq
  · rintro i (_ | ⟨_, ⟨⟩⟩) ts hts
    exact hstep.frame.store.fits (hinit.working _ hi ts hts)
  · have hhead := (hinit.head θ (hstep.frame.store.solves hθ)).mono (hstep.frame.le θ)
    rw [hb] at hhead
    obtain ⟨type', τs, htype', hdom, hparams⟩ := hhead.block_inv
    rw [htype] at htype'
    cases htype'
    refine .block htype rfl hdom hparams ?_
    have hcode := (hinf.has θ (href.solves hθ)).mono (le_infer hd hadv href (hopens _) θ)
    rw [← heq θ hθ] at hcode
    exact hcode
  · have := hinit.failed
    rwa [hb] at this

theorem yields_checkTail {c c' : Checker} {t t' : Option Tail} {expected : Ty}
    (h : Yields (checkTail t expected) c (t', .ok ()) c') :
    ∃ tail tail' found p₁ s, t = some tail ∧ t' = some tail' ∧
      Yields (inferTail tail) c.program (tail', found) p₁ ∧
      p₁.store.unify expected found = (.ok (), s) ∧ c'.program = { p₁ with store := s } := by
  unfold checkTail at h
  split at h
  · exact nomatch (yields_pure.mp h).1
  · rename_i tail
    rw [yields_bind] at h
    obtain ⟨r, c₁, hstep, h⟩ := h
    have hinfer := (yields_infer.mp hstep).1
    clear hstep
    split at h
    · exact nomatch (yields_pure.mp h).1
    · rename_i tail' found
      rw [yields_bind] at h
      obtain ⟨r, c₂, hunify, h⟩ := h
      obtain ⟨he, rfl⟩ := yields_pure.mp h
      cases he
      obtain ⟨hok, hc₂⟩ := yields_unified.mp (leaves_run.mp (yields_infer.mp hunify).1)
      exact ⟨tail, tail', found, c₁.program, _, rfl, rfl, hinfer, hok, hc₂⟩

/-- A tail that was inferred against a type is a step on its definition and has that type. -/
theorem tail_step (body : DefnBody) {tail tail' : Tail} {expected found : Ty} (h : Inv n lo lo p φ)
    (hd : p.defns[id]? = some d) (hinit : InitialisedStage lo p d.body)
    (hatoms : d.body.atoms = tail.atoms) (hsig : tail.SignaturesClosed)
    (hexpected : expected.Within lo p.store.cells.size)
    (hy : Yields (inferTail tail) p (tail', found) p₁)
    (hok : p₁.store.unify expected found = (.ok (), s))
    (hshape : tail'.bare = tail.bare → d.body.SameShape body) (hopens : d.body.Opens s body) :
    StepOn lo lo id d body p { p₁.setBody id body with store := s } ∧ ∀ θ, s.Solves θ →
      TailHas (Program.working { p₁.setBody id body with store := s } θ) tail'
        (expected.mapVars θ) := by
  obtain ⟨hinf, hbare⟩ := inferTail_spec (h.scene hd hinit)
    (fun v hv => DefnBody.mem_temps_of_atom (hatoms ▸ hv)) (hatoms ▸ hinit.unrecorded) hsig hy
  have hadv := hatoms ▸ hinf.advances
  obtain ⟨href, heq⟩ := Store.unify_spec hadv.scene.regular (hadv.store.within hexpected)
    hinf.within hok
  refine ⟨stepOn_infer hd hadv href (hshape hbare) hopens, fun θ hθ => ?_⟩
  rw [heq θ hθ]
  exact (hinf.has θ (href.solves hθ)).mono (le_infer hd hadv href hopens θ)

theorem inv_checkClosure {c c₁ c' : Checker} {k : Closure} {t' : Option Tail}
    (h : Inv n lo lo c.program φ) (hd : c.program.defns[id]? = some d) (hk : d.body = .closure k)
    (hφ : φ id = .initialised)
    (hy : Yields (checkTail k.tail (((k.defining.bind fun type =>
      (c.program.store.resolve type.result).asFunc?).map Prod.snd).getD (.tuple []))) c
      (t', .ok ()) c₁)
    (hc' : c'.program = c₁.program.setBody id (.closure { k with tail := t' })) :
    Inv n lo lo c'.program (Function.update φ id .inferred) := by
  have hinit : InitialisedStage lo c.program d.body := by
    have := h.stage hd
    rwa [hφ] at this
  have hi : k.interface ∈ d.body.interfaces := by
    rw [hk]
    exact .head _
  have hhead₀ := hinit.head _ h.regular.solves_reading
  rw [hk] at hhead₀
  -- the working type reads as a function, so its range is what is expected
  obtain ⟨type, τs, τ, htype, hresult, -, -⟩ := hhead₀.closure_inv
  have hresult : c.program.store.resolve type.result = .func (.tuple τs) τ := by
    rw [h.regular.resolve_eq]
    exact hresult
  have hexpected : ((k.defining.bind fun type =>
      (c.program.store.resolve type.result).asFunc?).map Prod.snd).getD (.tuple []) = τ := by
    rw [htype, Option.bind_some, hresult]
    rfl
  rw [hexpected] at hy
  have hτ : τ.Within lo c.program.store.cells.size := by
    have hfits := hinit.working _ hi type.parts (by rw [Closure.interface, htype]; rfl)
    have := h.regular.resolve_within (hfits type.result (List.mem_append_right _ (.head _)))
    rw [hresult] at this
    exact (Ty.within_func.mp this).2
  obtain ⟨tail, tail', found, p₁, s, htail, rfl, hinfer, hok, hc₁⟩ := yields_checkTail hy
  have hatoms : d.body.atoms = tail.atoms := by rw [hk, DefnBody.atoms, htail]; rfl
  obtain ⟨hstep, hhas⟩ := tail_step (.closure { k with tail := some tail' }) h hd hinit hatoms
    (by
      have := hinit.signatures
      rw [hk] at this
      exact this tail htail)
    hτ hinfer hok
    (fun hbare => by
      rw [hk]
      refine .closure rfl rfl ?_
      rw [htail, Option.map_some, Option.map_some, hbare])
    (by
      rw [hk]
      exact .closure (.refl s k.interface))
  have hprogram : c'.program =
      { p₁.setBody id (.closure { k with tail := some tail' }) with store := s } := by
    rw [hc', hc₁]
    rfl
  rw [hprogram]
  refine h.step hd hstep ⟨?_, ?_, fun θ hθ => ?_, ?_⟩
  · rintro i (_ | ⟨_, ⟨⟩⟩) q hq
    exact hinit.declared _ hi q hq
  · rintro i (_ | ⟨_, ⟨⟩⟩) ts hts
    exact hstep.frame.store.fits (hinit.working _ hi ts hts)
  · have hhead := (hinit.head θ (hstep.frame.store.solves hθ)).mono (hstep.frame.le θ)
    rw [hk] at hhead
    obtain ⟨type', τs', τ', htype', hresult', hparams, hargs⟩ := hhead.closure_inv
    rw [htype] at htype'
    cases htype'
    have hread : type.result.mapVars θ = .func ((Ty.tuple τs).mapVars θ) (τ.mapVars θ) := by
      rw [← (hstep.frame.store.solves hθ).resolve type.result, hresult, Ty.mapVars_func]
    have hτ' : τ' = τ.mapVars θ := by
      have heq := hresult'.symm.trans hread
      injection heq
    exact .closure htype rfl hresult' hparams hargs (hτ' ▸ hhas θ hθ)
  · have := hinit.failed
    rwa [hk] at this

theorem inv_checkTop {c c₁ c' : Checker} {t : TopLevel} {t' : Option Tail}
    (h : Inv n lo lo c.program φ) (hd : c.program.defns[id]? = some d) (ht : d.body = .top t)
    (hφ : φ id = .initialised)
    (hy : Yields (checkTail t.tail (.tuple (t.lhs.filterMap TopName.defining))) c (t', .ok ()) c₁)
    (hc' : c'.program = c₁.program.setBody id (.top { t with tail := t' })) :
    Inv n lo lo c'.program (Function.update φ id .inferred) := by
  have hinit : InitialisedStage lo c.program d.body := by
    have := h.stage hd
    rwa [hφ] at this
  have hhead₀ := hinit.head _ h.regular.solves_reading
  rw [ht] at hhead₀
  obtain ⟨types, htypes⟩ := hhead₀.top_inv
  have hexpected : t.lhs.filterMap TopName.defining = types := by
    have hmap : t.lhs.filterMap TopName.defining =
        (t.lhs.map TopName.defining).filterMap fun type => type := by
      rw [List.filterMap_map]
      rfl
    rw [hmap, htypes, List.filterMap_map]
    exact List.filterMap_some
  rw [hexpected] at hy
  have hfits : c.program.store.Fits lo types := by
    intro type htype
    have hmem : some type ∈ t.lhs.map TopName.defining := by
      rw [htypes]
      exact List.mem_map_of_mem htype
    obtain ⟨l, hl, hdef⟩ := List.mem_map.mp hmem
    refine hinit.working l.interface ?_ [type] ?_ type (.head _)
    · rw [ht]
      exact List.mem_map_of_mem hl
    · rw [TopName.interface, hdef]
      rfl
  obtain ⟨tail, tail', found, p₁, s, htail, rfl, hinfer, hok, hc₁⟩ := yields_checkTail hy
  have hatoms : d.body.atoms = tail.atoms := by rw [ht, DefnBody.atoms, htail]; rfl
  obtain ⟨hstep, hhas⟩ := tail_step (.top { t with tail := some tail' }) h hd hinit hatoms
    (by
      have := hinit.signatures
      rw [ht] at this
      exact this tail htail)
    (Ty.within_tuple.mpr hfits) hinfer hok
    (fun hbare => by
      rw [ht]
      refine .top ?_
      rw [htail, Option.map_some, Option.map_some, hbare])
    (by
      rw [ht]
      exact .top fun index l hl => ⟨l, hl, .refl s l.interface⟩)
  have hprogram : c'.program =
      { p₁.setBody id (.top { t with tail := some tail' }) with store := s } := by
    rw [hc', hc₁]
    rfl
  rw [hprogram]
  have hinterfaces : (DefnBody.top { t with tail := some tail' }).interfaces = d.body.interfaces := by
    rw [ht]
    rfl
  refine h.step hd hstep ⟨?_, ?_, fun θ hθ => ?_, ?_⟩
  · rw [hinterfaces]
    exact hinit.declared
  · rw [hinterfaces]
    exact fun i hi ts hts => hstep.frame.store.fits (hinit.working i hi ts hts)
  · have htail' := hhas θ hθ
    rw [Ty.mapVars_tuple] at htail'
    exact .top htypes rfl htail'
  · have := hinit.failed
    rwa [ht] at this

/-- Inferring the body moves a definition to its second stage. -/
theorem inv_checkBody {c c' : Checker} (h : Inv n lo lo c.program φ) (hφ : φ id = .initialised)
    (hy : Yields (checkBody id) c none c') :
    Inv n lo lo c'.program (Function.update φ id .inferred) := by
  rw [checkBody, yields_bind] at hy
  obtain ⟨d, c₁, hd, hy⟩ := hy
  obtain ⟨hd, rfl⟩ := yields_definition.mp hd
  split at hy
  · rename_i b hb
    split at hy
    · exact nomatch (yields_outcome hy).1
    · rename_i code hcode
      rw [yields_bind] at hy
      obtain ⟨⟨code', r⟩, c₂, hstep, hy⟩ := hy
      have hinfer := (yields_infer.mp hstep).1
      clear hstep
      rw [yields_bind] at hy
      obtain ⟨_, c₃, hset, hy⟩ := hy
      obtain rfl := yields_setBody.mp hset
      split at hy
      · exact nomatch (yields_outcome hy).1
      · rename_i found type htype
        rw [yields_bind] at hy
        obtain ⟨r, c₄, hunify, hy⟩ := hy
        obtain ⟨rfl, rfl⟩ := yields_outcome hy
        obtain ⟨hok, hc₄⟩ := yields_unified.mp (leaves_run.mp (yields_infer.mp hunify).1)
        exact inv_checkBlock h hd hb hcode htype hφ hinfer hc₄ hok
      · rename_i hdef
        have hinit : InitialisedStage lo c₁.program d.body := by
          have := h.stage hd
          rwa [hφ] at this
        have hhead := hinit.head _ h.regular.solves_reading
        rw [hb] at hhead
        obtain ⟨type, τs, htype, -, -⟩ := hhead.block_inv
        rw [htype] at hdef
        cases hdef
  · rename_i k hk
    rw [yields_bind] at hy
    obtain ⟨_, c₂, hstore, hy⟩ := hy
    obtain ⟨rfl, rfl⟩ := yields_store.mp hstore
    rw [yields_bind] at hy
    obtain ⟨⟨t', r⟩, c₃, htail, hy⟩ := hy
    rw [yields_bind] at hy
    obtain ⟨_, c₄, hset, hy⟩ := hy
    obtain rfl := yields_setBody.mp hset
    obtain ⟨rfl, rfl⟩ := yields_outcome hy
    exact inv_checkClosure h hd hk hφ htail rfl
  · rename_i t ht
    rw [yields_bind] at hy
    obtain ⟨⟨t', r⟩, c₃, htail, hy⟩ := hy
    rw [yields_bind] at hy
    obtain ⟨_, c₄, hset, hy⟩ := hy
    obtain rfl := yields_setBody.mp hset
    obtain ⟨rfl, rfl⟩ := yields_outcome hy
    exact inv_checkTop h hd ht hφ htail rfl
  · rename_i e he
    obtain ⟨-, rfl⟩ := yields_pure.mp hy
    refine h.stay fun {d'} hd' => ?_
    rw [hd] at hd'
    cases hd'
    have hinit : InitialisedStage lo c₁.program d.body := by
      have := h.stage hd
      rwa [hφ] at this
    refine ⟨hinit.declared, hinit.working, fun θ _ => ?_, hinit.failed⟩
    rw [he]
    exact .external

end CheckBody

end Typing

end Mil
