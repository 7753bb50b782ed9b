import Mil.Proofs.Typing.Invariant

/-!
The last step on a definition: its working type is quantified over the variables that are left. What
was declared before is the same type up to the order of its parameters, so whoever went by it still
sees an instance.
-/

namespace Mil

namespace Typing

theorem yields_reportAmbiguous {c c' : Checker} {d : Defn} {generics used : List Nat}
    (h : Yields (reportAmbiguous d generics used) c () c') : c'.program = c.program := by
  unfold reportAmbiguous at h
  dsimp only at h
  split at h
  · rw [yields_modify.mp h]
  · rw [(yields_pure.mp h).2]

theorem eq_true_of_filter_none {α : Type} {o : Option α} {f : α → Bool}
    (h : (o.filter fun a => !f a) = none) {a : α} (ha : o = some a) : f a = true := by
  subst ha
  by_contra hf
  rw [Option.filter_some, if_pos (by simpa using hf)] at h
  cases h

section Generalise

variable {n lo : Nat} {p : Program} {φ : DefnId → Phase} {id : DefnId} {d : Defn}

/-- A name that is seen at a type before its working type is quantified is seen at it afterwards. -/
theorem Interface.le_generalise {s : Store} {i i' : Interface} {kinds : List Kind} {ts parts : List Ty}
    (hworking : i.working = some ts) (hdeclared : i'.declared = some (kinds, parts))
    (hinstance : s.IsInstance kinds parts ts) (hclosed : ClosedUnder kinds.length parts)
    (hrename : ∀ q, i.declared = some q →
      kinds.length = q.1.length ∧ ∃ m, Ty.renameList? q.2 parts .empty = some m) : i.Le s i' := by
  intro inst h
  unfold Interface.SeenAs at h ⊢
  rw [hdeclared]
  split at h
  · rename_i kinds₀ parts₀ hd
    obtain ⟨hk, m, hm⟩ := hrename _ hd
    exact h.rename hk hclosed hm
  · rw [hworking] at h
    cases h
    exact hinstance

/-- Quantifying the working type of a definition is a step on it. -/
theorem stepOn_generalise (body : DefnBody) {hi : Nat} (h : Inv n lo hi p φ)
    (hd : p.defns[id]? = some d) (hshape : d.body.SameShape body)
    (hopens : d.body.Opens p.store body) : StepOn lo hi id d body p (p.setBody id body) where
  frame := ⟨.refl h.regular, fun _ _ => rfl,
    working_le hd rfl hopens (.refl _) fun a t ha => by cases a <;> exact ha⟩
  shape := hshape
  env := rfl
  prims := rfl
  defns := rfl
  temps_size := rfl
  temps _ _ := rfl
  sites _ _ := rfl

theorem settled_of_occurs (h : p.store.Regular lo) {t : Ty} (ht : t.Within lo p.store.cells.size)
    {v : Nat} (hv : Ty.Occurs (.var v) (p.store.resolve t)) :
    v < p.store.cells.size ∧ p.store.binding? v = none :=
  ⟨((h.resolve_within ht).var hv).2, h.unbound_of_occurs hv⟩

theorem inv_generalizeBlock {c c' : Checker} {b : Block} {type : BlockType}
    (h : Inv n lo c.program.store.cells.size c.program φ) (hd : c.program.defns[id]? = some d)
    (hb : d.body = .block b) (htype : b.defining = some type) (hφ : φ id = .inferred)
    (hy : Yields (generalizeBlock id d b type) c () c') :
    c'.program.store = c.program.store ∧
      Inv n lo c.program.store.cells.size c'.program (Function.update φ id .generalised) := by
  have hinf : InferredStage lo c.program d.body := by
    have := h.stage hd
    rwa [hφ] at this
  have hi : b.interface ∈ d.body.interfaces := by
    rw [hb]
    exact .head _
  have hworking : b.interface.working = some type.parts := by
    rw [Block.interface, htype]
    rfl
  have hfits := hinf.working _ hi _ hworking
  rw [generalizeBlock, yields_bind] at hy
  obtain ⟨s, c₁, hs, hy⟩ := hy
  obtain ⟨rfl, rfl⟩ := yields_store.mp hs
  dsimp only at hy
  split at hy
  · exact absurd hy not_yields_throw
  · rename_i hfilter
    rw [yields_bind] at hy
    obtain ⟨_, c₂, hset, hy⟩ := hy
    obtain rfl := yields_setBody.mp hset
    rw [yields_bind] at hy
    obtain ⟨q, c₃, hget, hy⟩ := hy
    obtain ⟨rfl, rfl⟩ := yields_get.mp hget
    rw [yields_reportAmbiguous hy]
    have hvars : ∀ t ∈ type.parts, ∀ v, Ty.Occurs (.var v) (c₁.program.store.resolve t) →
        v ∈ type.addVars c₁.program.store [] :=
      fun t ht v hv => BlockType.mem_addVars.mpr (.inr ⟨t, ht, hv⟩)
    have hclosed : ClosedUnder
        (type.generalize c₁.program.store (type.addVars c₁.program.store [])).kinds.length
        (type.generalize c₁.program.store (type.addVars c₁.program.store [])).parts := by
      rw [BlockType.length_kinds_generalize, BlockType.parts_generalize]
      exact Store.closedUnder_generalize h.regular hfits hvars
    have hstep := stepOn_generalise (.block { b with
      declared := some (type.generalize c₁.program.store (type.addVars c₁.program.store []))
      generics := type.addVars c₁.program.store [] }) h hd (by rw [hb]; exact .block rfl rfl) (by
      rw [hb]
      refine .block (Interface.le_generalise hworking rfl
        (Store.isInstance_generalize h.regular hfits (BlockType.length_kinds_generalize ..) hvars)
        hclosed fun q hq => ?_)
      obtain ⟨declared, hdecl, rfl⟩ := Option.map_eq_some_iff.mp hq
      exact BlockType.rename_of_alphaEquiv (eq_true_of_filter_none hfilter hdecl)
        (hinf.declared _ hi _ hq) hclosed)
    refine ⟨rfl, h.step hd hstep ⟨?_, fun θ hθ => ?_, ?_, ?_⟩⟩
    · rintro i (_ | ⟨_, ⟨⟩⟩)
      refine ⟨rfl, fun q hq => ?_⟩
      cases hq
      exact hclosed
    · have hder := (hinf.derivation θ hθ).mono (hstep.frame.le θ)
      rw [hb] at hder
      cases hder with
      | block hdef hbody hdom hparams hcode => exact .block hdef hbody hdom hparams hcode
    · exact ⟨type, htype, fun t ht => (hfits t ht).mono (Nat.zero_le _) (Nat.le_refl _), rfl, rfl⟩
    · intro v hv
      obtain ⟨t, ht, hv⟩ := (BlockType.mem_addVars.mp hv).resolve_left List.not_mem_nil
      exact settled_of_occurs h.regular (hfits t ht) hv

theorem inv_generalizeClosure {c c' : Checker} {k : Closure} {type : AllocType}
    (h : Inv n lo c.program.store.cells.size c.program φ) (hd : c.program.defns[id]? = some d)
    (hk : d.body = .closure k) (htype : k.defining = some type) (hφ : φ id = .inferred)
    (hy : Yields (generalizeClosure id d k type) c () c') :
    c'.program.store = c.program.store ∧
      Inv n lo c.program.store.cells.size c'.program (Function.update φ id .generalised) := by
  have hinf : InferredStage lo c.program d.body := by
    have := h.stage hd
    rwa [hφ] at this
  have hi : k.interface ∈ d.body.interfaces := by
    rw [hk]
    exact .head _
  have hworking : k.interface.working = some type.parts := by
    rw [Closure.interface, htype]
    rfl
  have hfits := hinf.working _ hi _ hworking
  rw [generalizeClosure, yields_bind] at hy
  obtain ⟨s, c₁, hs, hy⟩ := hy
  obtain ⟨rfl, rfl⟩ := yields_store.mp hs
  dsimp only at hy
  split at hy
  · exact absurd hy not_yields_throw
  · rename_i hfilter
    rw [yields_bind] at hy
    obtain ⟨_, c₂, hset, hy⟩ := hy
    obtain rfl := yields_setBody.mp hset
    rw [yields_bind] at hy
    obtain ⟨q, c₃, hget, hy⟩ := hy
    obtain ⟨rfl, rfl⟩ := yields_get.mp hget
    rw [yields_reportAmbiguous hy]
    have hvars : ∀ t ∈ type.parts, ∀ v, Ty.Occurs (.var v) (c₁.program.store.resolve t) →
        v ∈ type.addVars c₁.program.store [] :=
      fun t ht v hv => AllocType.mem_addVars.mpr (.inr ⟨t, ht, hv⟩)
    have hclosed : ClosedUnder
        (type.generalize c₁.program.store (type.addVars c₁.program.store [])).kinds.length
        (type.generalize c₁.program.store (type.addVars c₁.program.store [])).parts := by
      rw [AllocType.length_kinds_generalize, AllocType.parts_generalize]
      exact Store.closedUnder_generalize h.regular hfits hvars
    have hinstance : c₁.program.store.IsInstance
        (type.generalize c₁.program.store (type.addVars c₁.program.store [])).kinds
        (type.generalize c₁.program.store (type.addVars c₁.program.store [])).parts type.parts := by
      rw [AllocType.parts_generalize]
      exact Store.isInstance_generalize h.regular hfits (AllocType.length_kinds_generalize ..) hvars
    have hstep := stepOn_generalise (.closure { k with
      declared := some (type.generalize c₁.program.store (type.addVars c₁.program.store []))
      generics := type.addVars c₁.program.store [] }) h hd (by rw [hk]; exact .closure rfl rfl rfl) (by
      rw [hk]
      refine .closure (Interface.le_generalise hworking rfl hinstance hclosed fun q hq => ?_)
      obtain ⟨declared, hdecl, rfl⟩ := Option.map_eq_some_iff.mp hq
      exact AllocType.rename_of_alphaEquiv (eq_true_of_filter_none hfilter hdecl)
        (hinf.declared _ hi _ hq) hclosed)
    refine ⟨rfl, h.step hd hstep ⟨?_, fun θ hθ => ?_, ?_, ?_⟩⟩
    · rintro i (_ | ⟨_, ⟨⟩⟩)
      refine ⟨rfl, fun q hq => ?_⟩
      cases hq
      exact hclosed
    · have hder := (hinf.derivation θ hθ).mono (hstep.frame.le θ)
      rw [hk] at hder
      cases hder with
      | closure hdef htail hresult hparams hargs hbody =>
          exact .closure hdef htail hresult hparams hargs hbody
    · exact ⟨type, htype, fun t ht => (hfits t ht).mono (Nat.zero_le _) (Nat.le_refl _), rfl, rfl⟩
    · intro v hv
      obtain ⟨t, ht, hv⟩ := (AllocType.mem_addVars.mp hv).resolve_left List.not_mem_nil
      exact settled_of_occurs h.regular (hfits t ht) hv

/-- A name whose working type was quantified. -/
def Quantified (s : Store) (l l' : TopName) : Prop :=
  ∃ type, l.defining = some type ∧
    l' = { l with
      declared := some (Scheme.generalize s type (s.varsOf type)), generics := s.varsOf type } ∧
    ∀ declared, l.declared = some declared →
      declared.alphaEquiv s (Scheme.generalize s type (s.varsOf type)) = true

theorem generalizeNames_spec {s : Store} {ls ls' : List TopName}
    (hdef : ∀ l ∈ ls, l.defining.isSome) (h : generalizeNames d s ls = (ls', none)) :
    List.Forall₂ (Quantified s) ls ls' := by
  induction ls generalizing ls' with
  | nil =>
      cases h
      exact .nil
  | cons l ls ih =>
      obtain ⟨type, htype⟩ := Option.isSome_iff_exists.mp (hdef l (.head _))
      rw [generalizeNames, htype] at h
      dsimp only at h
      split at h
      · cases h
      · rename_i hfilter
        rcases hrest : generalizeNames d s ls with ⟨ls'', r⟩
        rw [hrest] at h
        cases h
        exact .cons ⟨type, htype, by rw [htype], fun _ hdecl => eq_true_of_filter_none hfilter hdecl⟩
          (ih (fun l hl => hdef l (.tail _ hl)) hrest)

theorem inv_generalizeTop {c c' : Checker} {t : TopLevel}
    (h : Inv n lo c.program.store.cells.size c.program φ) (hd : c.program.defns[id]? = some d)
    (ht : d.body = .top t) (hφ : φ id = .inferred)
    (hy : Yields (generalizeTop id d t) c () c') :
    c'.program.store = c.program.store ∧
      Inv n lo c.program.store.cells.size c'.program (Function.update φ id .generalised) := by
  have hinf : InferredStage lo c.program d.body := by
    have := h.stage hd
    rwa [hφ] at this
  have hi : ∀ l ∈ t.lhs, l.interface ∈ d.body.interfaces := fun l hl => by
    rw [ht]
    exact List.mem_map_of_mem hl
  have hdef : ∀ l ∈ t.lhs, l.defining.isSome := by
    have hder := hinf.derivation _ h.regular.solves_reading
    rw [ht] at hder
    cases hder with
    | top htypes htail hbody =>
        intro l hl
        have hmem : l.defining ∈ t.lhs.map TopName.defining := List.mem_map_of_mem hl
        rw [htypes] at hmem
        obtain ⟨type, -, htype⟩ := List.mem_map.mp hmem
        rw [← htype]
        rfl
  have hfits : ∀ l ∈ t.lhs, ∀ type, l.defining = some type → c.program.store.Fits lo [type] := by
    intro l hl type htype
    refine hinf.working _ (hi l hl) _ ?_
    rw [TopName.interface, htype]
    rfl
  rw [generalizeTop, yields_bind] at hy
  obtain ⟨s, c₁, hs, hy⟩ := hy
  obtain ⟨rfl, rfl⟩ := yields_store.mp hs
  split at hy
  · rw [yields_bind] at hy
    obtain ⟨_, c₂, -, hy⟩ := hy
    exact absurd hy not_yields_throw
  · rename_i lhs hnames
    have hall := generalizeNames_spec hdef hnames
    rw [yields_bind] at hy
    obtain ⟨_, c₂, hset, hy⟩ := hy
    obtain rfl := yields_setBody.mp hset
    rw [yields_bind] at hy
    obtain ⟨q, c₃, hget, hy⟩ := hy
    obtain ⟨rfl, rfl⟩ := yields_get.mp hget
    rw [yields_reportAmbiguous hy]
    have hclosed : ∀ {l : TopName} {type : Ty}, l ∈ t.lhs → l.defining = some type →
        ClosedUnder
          (Scheme.generalize c₁.program.store type (c₁.program.store.varsOf type)).kinds.length
          (Scheme.generalize c₁.program.store type (c₁.program.store.varsOf type)).parts := by
      intro l type hl htype
      rw [Scheme.length_kinds_generalize, Scheme.parts_generalize]
      refine Store.closedUnder_generalize h.regular (hfits l hl type htype) fun u hu v hv => ?_
      rw [List.mem_singleton.mp hu] at hv
      exact Store.mem_varsOf.mpr hv
    have hinstance : ∀ {l : TopName} {type : Ty}, l ∈ t.lhs → l.defining = some type →
        c₁.program.store.IsInstance
          (Scheme.generalize c₁.program.store type (c₁.program.store.varsOf type)).kinds
          (Scheme.generalize c₁.program.store type (c₁.program.store.varsOf type)).parts [type] := by
      intro l type hl htype
      refine Store.isInstance_generalize h.regular (hfits l hl type htype)
        (Scheme.length_kinds_generalize ..) fun u hu v hv => ?_
      rw [List.mem_singleton.mp hu] at hv
      exact Store.mem_varsOf.mpr hv
    have hnew : ∀ l' ∈ lhs, ∃ l ∈ t.lhs, Quantified c₁.program.store l l' := fun l' hl' => by
      obtain ⟨n, hn, rfl⟩ := List.getElem_of_mem hl'
      have hn' : n < t.lhs.length := hall.length_eq ▸ hn
      exact ⟨t.lhs[n], List.getElem_mem hn', hall.get hn' hn⟩
    have hstep := stepOn_generalise (.top { t with
      lhs := lhs, generics := (lhs.flatMap TopName.generics).eraseDups }) h hd
      (by rw [ht]; exact .top rfl) (by
      rw [ht]
      refine .top fun index l hl => ?_
      obtain ⟨hlt, hget⟩ := List.getElem?_eq_some_iff.mp hl
      have hlt' : index < lhs.length := hall.length_eq ▸ hlt
      have hq : Quantified c₁.program.store l lhs[index] := hget ▸ hall.get hlt hlt'
      refine ⟨lhs[index], List.getElem?_eq_getElem hlt', ?_⟩
      obtain ⟨type, htype, heq, halpha⟩ := hq
      have hmem := List.mem_of_getElem? hl
      rw [heq]
      refine Interface.le_generalise (by rw [TopName.interface, htype]; rfl) rfl
        (hinstance hmem htype) (hclosed hmem htype) fun q hq => ?_
      obtain ⟨declared, hdecl, rfl⟩ := Option.map_eq_some_iff.mp hq
      exact Scheme.rename_of_alphaEquiv (halpha declared hdecl)
        (hinf.declared _ (hi l hmem) _ hq) (hclosed hmem htype))
    refine ⟨rfl, h.step hd hstep ⟨?_, fun θ hθ => ?_, ⟨rfl, ?_⟩, ?_⟩⟩
    · intro i hi'
      obtain ⟨l', hl', rfl⟩ := List.mem_map.mp hi'
      obtain ⟨l, hl, type, htype, rfl, -⟩ := hnew l' hl'
      refine ⟨rfl, fun q hq => ?_⟩
      cases hq
      exact hclosed hl htype
    · have hder := (hinf.derivation θ hθ).mono (hstep.frame.le θ)
      rw [ht] at hder
      cases hder with
      | top htypes htail hbody =>
          refine .top ?_ htail hbody
          rw [← htypes]
          refine List.ext_getElem (by simp [hall.length_eq]) fun n hn hn' => ?_
          simp only [List.getElem_map]
          rw [List.length_map] at hn hn'
          obtain ⟨type, htype, heq, -⟩ := hall.get hn' hn
          simp only [List.get_eq_getElem] at heq
          rw [heq]
    · intro l' hl'
      obtain ⟨l, hl, type, htype, rfl, -⟩ := hnew l' hl'
      exact ⟨type, htype, fun u hu => (hfits l hl type htype u hu).mono (Nat.zero_le _)
        (Nat.le_refl _), rfl, rfl⟩
    · intro v hv
      obtain ⟨l', hl', hv⟩ := List.mem_flatMap.mp (List.mem_eraseDups.mp hv)
      obtain ⟨l, hl, type, htype, rfl, -⟩ := hnew l' hl'
      exact settled_of_occurs h.regular (hfits l hl type htype type (.head _))
        (Store.mem_varsOf.mp hv)

/-- Quantifying the working type moves a definition to its last stage. -/
theorem inv_generalizeType {c c' : Checker} (h : Inv n lo c.program.store.cells.size c.program φ)
    (hφ : φ id = .inferred) (hy : Yields (generalizeType id) c () c') :
    c'.program.store = c.program.store ∧
      Inv n lo c.program.store.cells.size c'.program (Function.update φ id .generalised) := by
  rw [generalizeType, yields_bind] at hy
  obtain ⟨d, c₁, hd, hy⟩ := hy
  obtain ⟨hd, rfl⟩ := yields_definition.mp hd
  have hinf : InferredStage lo c₁.program d.body := by
    have := h.stage hd
    rwa [hφ] at this
  have hder := hinf.derivation _ h.regular.solves_reading
  have hfailed := hinf.failed
  split at hy
  · rename_i b hb
    rw [hb] at hder hfailed
    cases hder with
    | block htype hbody hdom hparams hcode =>
        rw [show b.failed = false from hfailed, htype] at hy
        exact inv_generalizeBlock h hd hb htype hφ hy
  · rename_i k hk
    rw [hk] at hder hfailed
    cases hder with
    | closure htype htail hresult hparams hargs hbody =>
        rw [show k.failed = false from hfailed, htype] at hy
        exact inv_generalizeClosure h hd hk htype hφ hy
  · rename_i t ht
    rw [ht] at hfailed
    rw [if_neg (by rw [show t.failed = false from hfailed]; simp)] at hy
    exact inv_generalizeTop h hd ht hφ hy
  · rename_i e he
    obtain ⟨-, rfl⟩ := yields_pure.mp hy
    refine ⟨rfl, h.stay fun {d'} hd' => ?_⟩
    rw [hd] at hd'
    cases hd'
    refine ⟨?_, hinf.derivation, by rw [he]; trivial, by rw [he]; exact fun v hv => nomatch hv⟩
    intro i hi
    refine ⟨?_, hinf.declared i hi⟩
    rw [he] at hi
    rw [List.mem_singleton.mp hi]
    rfl

end Generalise

end Typing

end Mil
