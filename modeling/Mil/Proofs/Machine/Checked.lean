import Mil.Proofs.Machine.Soundness
import Mil.Proofs.Typing.WellTyped

/-!
The world of a checked program. Every solution of the store gives a reading of all working types, and
a definition can be used at each of them: the derivations that the check leaves hold for all
solutions, and each instance of a declared type is the working type as some solution reads it.

The check asks nothing of the value that a case looks at when there is only a default. That such a
value is of a data type has to be said in addition.
-/

namespace Mil

/-! ### Constructors -/

namespace Ty

theorem instantiate_nil (t : Ty) : t.instantiate [] = t := subst_var_gen t

theorem apply_injective {t : Ty} {as bs : List Ty} (hlen : as.length = bs.length)
    (h : apply t as = apply t bs) : as = bs := by
  induction as using List.reverseRecOn generalizing bs with
  | nil => exact (List.eq_nil_of_length_eq_zero hlen.symm).symm
  | append_singleton as a ih =>
      cases bs using List.reverseRecOn with
      | nil => simp at hlen
      | append_singleton bs b =>
          rw [apply_concat, apply_concat] at h
          injection h with h hab
          rw [ih (by simpa using hlen) h, hab]

/-- The parameters of a data type are whatever stands in place of them. -/
theorem map_range_instantiate {types : List Ty} {n : Nat} (h : types.length = n) :
    ((List.range n).map .gen).map (instantiate types) = types := by
  refine List.ext_getElem (by simp [h]) fun i _ hi => ?_
  simp only [List.getElem_map, List.getElem_range, instantiate, subst_gen,
    List.getElem?_eq_getElem hi, Option.getD_some]

/-- Is the type one of values that are built by constructors? -/
def isData (t : Ty) : Bool :=
  match t.head? with
  | some .unit => true
  | some (.data _) => true
  | _ => false

theorem isData_of_eq_true {t : Ty} (h : t.isData = true) : t.IsData := by
  unfold isData at h
  split at h
  · rename_i hhead
    exact ⟨_, hhead, .inl rfl⟩
  · rename_i name hhead
    exact ⟨_, hhead, .inr ⟨name, rfl⟩⟩
  · cases h

theorem IsData.mapVars {t : Ty} (h : t.IsData) (θ : Nat → Ty) : (t.mapVars θ).IsData := by
  obtain ⟨c, hc, hdata⟩ := h
  exact ⟨c, head?_subst hc, hdata⟩

end Ty

/-- In a regular environment the type of a value settles the types of its fields. -/
theorem Env.Regular.shaped {E : Env} (h : E.Regular) : E.Shaped where
  isData := by
    rintro k stored result ⟨hk, types, hlen, -, rfl⟩
    obtain ⟨c, hc, hresult⟩ := h _ _ hk
    refine ⟨c, ?_, hc⟩
    rw [hresult]
    exact Ty.head?_subst (Ty.head?_apply (.con c) _)
  settled := by
    rintro k stored stored' result ⟨hk, types, hlen, rfl, hresult⟩ ⟨-, types', hlen', rfl, hresult'⟩
    obtain ⟨c, -, hshape⟩ := h _ _ hk
    have happly : ∀ {types : List Ty}, types.length = k.type.kinds.length →
        k.type.result.instantiate types = Ty.apply (.con c) types := by
      intro types hlen
      rw [hshape, Ty.instantiate, Ty.subst_apply]
      exact congrArg (Ty.apply (.con c)) (Ty.map_range_instantiate hlen)
    rw [hresult, happly hlen, happly hlen'] at hresult'
    rw [Ty.apply_injective (hlen.trans hlen'.symm) hresult']

/-! ### Cases without alternatives -/

/-- Has every case of a body an alternative, or does it look at a value of a data type? -/
def Code.casesOnData (p : Program) : Code → Bool
  | .bind _ _ next => next.casesOnData p
  | .case scrut [] _ => ((p.atomType scrut).map p.store.resolve).any Ty.isData
  | _ => true

/-- Has every case of the program an alternative, or does it look at a value of a data type? -/
def Program.casesOnData (p : Program) : Bool :=
  p.defns.all fun d =>
    match d.body with
    | .block b => b.body.all fun code => code.casesOnData p
    | _ => true

theorem Program.casesOnData_block {p : Program} (h : p.casesOnData = true) {id : DefnId} {d : Defn}
    {b : Block} {code : Code} (hd : p.defns[id]? = some d) (hb : d.body = .block b)
    (hcode : b.body = some code) : code.casesOnData p = true := by
  obtain ⟨hlt, rfl⟩ := Array.getElem?_eq_some_iff.mp hd
  have hall := Array.all_eq_true.mp h id hlt
  rw [hb] at hall
  dsimp only at hall
  rw [hcode] at hall
  exact hall

/-! ### The world -/

/-- Definitions are used at their working types, as the solutions of the store read them. -/
def Program.checkedWorld (p : Program) : Machine.World where
  block id τs τ := ∃ d b type θ, p.defns[id]? = some d ∧ d.body = .block b ∧
    b.defining = some type ∧ p.store.Solves θ ∧ type.dom.mapVars θ = .tuple τs ∧
    type.rng.mapVars θ = τ
  closure id stored τs τ := ∃ d k type θ, p.defns[id]? = some d ∧ d.body = .closure k ∧
    k.defining = some type ∧ p.store.Solves θ ∧ type.stored.map (Ty.mapVars θ) = stored ∧
    type.result.mapVars θ = .func (.tuple τs) τ
  tops id τs := ∃ (d : Defn) (t : TopLevel) (types : List Ty) (θ : Nat → Ty),
    p.defns[id]? = some d ∧ d.body = .top t ∧ t.lhs.map TopName.defining = types.map some ∧
    p.store.Solves θ ∧ types.map (Ty.mapVars θ) = τs
  external id := ∃ d e, p.defns[id]? = some d ∧ d.body = .external e

namespace Typing

open Machine (LocalTypes AtomTyped AtomsTyped CallTyped TailTyped CodeTyped PrimTyped)

section Uses

variable {p : Program} {θ : Nat → Ty} {id : DefnId} {d : Defn}

/-- Each instance of the declared type of a block is a type at which it can be used. -/
theorem Complete.block_instance (h : Complete p) {b : Block} {declared : BlockType}
    {types : List Ty} (hd : p.defns[id]? = some d) (hb : d.body = .block b)
    (hdecl : b.declared = some declared) (hlen : types.length = declared.kinds.length) :
    ∃ type θ', b.defining = some type ∧ p.store.Solves θ' ∧
      type.dom.mapVars θ' = declared.dom.instantiate types ∧
      type.rng.mapVars θ' = declared.rng.instantiate types := by
  have hgen := (h.stage hd).generalised
  rw [hb] at hgen
  obtain ⟨type, htype, hfits, hvars, hdecl'⟩ := hgen
  rw [hdecl] at hdecl'
  cases hdecl'
  rw [BlockType.length_kinds_generalize] at hlen
  obtain ⟨θ', hθ', heq⟩ := Store.exists_solution h.regular hfits
    (hvars ▸ type.nodup_addVars .nil) hlen
    (fun t ht v hv => hvars ▸ BlockType.mem_addVars.mpr (.inr ⟨t, ht, hv⟩))
  simp only [BlockType.parts, List.map_cons, List.map_nil, List.cons.injEq, and_true] at heq
  exact ⟨type, θ', htype, hθ', heq⟩

theorem Complete.block_use (h : Complete p) (hθ : p.store.Solves θ) {inst : BlockType}
    {τs : List Ty} (huse : (p.working θ).block id inst) (hdom : inst.dom.mapVars θ = .tuple τs) :
    p.checkedWorld.block id τs (inst.rng.mapVars θ) := by
  obtain ⟨d, b, hd, hb, hseen⟩ := huse
  obtain ⟨kinds, parts, hdecl, -, hinst⟩ := h.seen hd (by rw [hb]; exact .head _) hseen
  obtain ⟨declared, hdeclared, heq⟩ := Option.map_eq_some_iff.mp hdecl
  cases heq
  obtain ⟨types, hlen, heq⟩ := hinst.solved θ hθ
  obtain ⟨type, θ', htype, hθ', hdom', hrng'⟩ := h.block_instance hd hb hdeclared hlen
  simp only [BlockType.parts, List.map_cons, List.map_nil, List.cons.injEq, and_true] at heq
  exact ⟨d, b, type, θ', hd, hb, htype, hθ', by rw [hdom', ← heq.1, hdom], by rw [hrng', ← heq.2]⟩

theorem map_parts_eq {a a' : AllocType} {f g : Ty → Ty} (h : a.parts.map f = a'.parts.map g) :
    a.stored.map f = a'.stored.map g ∧ f a.result = g a'.result := by
  rw [AllocType.parts, AllocType.parts, List.map_append, List.map_append] at h
  obtain ⟨hstored, hresult⟩ := List.append_inj' h rfl
  exact ⟨hstored, List.head_eq_of_cons_eq hresult⟩

/-- An allocation of a closure gives a function. -/
theorem Complete.closure_use (h : Complete p) (hθ : p.store.Solves θ) {inst : AllocType}
    (huse : (p.working θ).closure id inst) :
    ∃ τs τ, inst.result.mapVars θ = .func (.tuple τs) τ ∧
      p.checkedWorld.closure id (inst.stored.map (Ty.mapVars θ)) τs τ := by
  obtain ⟨d, k, hd, hk, hseen⟩ := huse
  obtain ⟨kinds, parts, hdecl, -, hinst⟩ := h.seen hd (by rw [hk]; exact .head _) hseen
  obtain ⟨declared, hdeclared, heq⟩ := Option.map_eq_some_iff.mp hdecl
  cases heq
  obtain ⟨types, hlen, heq⟩ := hinst.solved θ hθ
  have hgen := (h.stage hd).generalised
  rw [hk] at hgen
  obtain ⟨type, htype, hfits, hvars, hdecl'⟩ := hgen
  rw [hdeclared] at hdecl'
  cases hdecl'
  rw [AllocType.length_kinds_generalize] at hlen
  obtain ⟨θ', hθ', heq'⟩ := Store.exists_solution h.regular hfits
    (hvars ▸ type.nodup_addVars .nil) hlen
    (fun t ht v hv => hvars ▸ AllocType.mem_addVars.mpr (.inr ⟨t, ht, hv⟩))
  rw [AllocType.parts_generalize, ← heq'] at heq
  obtain ⟨hstored, hresult⟩ := map_parts_eq heq
  -- the derivation of the closure says that its working type is one of functions
  have hder := (h.stage hd).derivation θ' hθ'
  rw [hk] at hder
  cases hder with
  | @closure _ type' _ τs τ htype' _ hresult' _ _ _ =>
      rw [htype] at htype'
      cases htype'
      exact ⟨τs, τ, hresult.trans hresult', d, k, type, θ', hd, hk, htype, hθ', hstored.symm,
        hresult'⟩

theorem getElem?_defining {t : TopLevel} {types : List Ty} {index : Nat} {l : TopName}
    (htypes : t.lhs.map TopName.defining = types.map some) (hl : t.lhs[index]? = some l) :
    types[index]? = l.defining := by
  have hget := congrArg (fun xs => (xs[index]?).join) htypes
  simp only [List.getElem?_map, hl, Option.map_some, Option.join_some] at hget
  rw [hget]
  cases types[index]? <;> rfl

theorem Complete.top_use (h : Complete p) (hθ : p.store.Solves θ) {index : Nat} {t : Ty}
    (huse : (p.working θ).top id index t) : p.checkedWorld.external id ∨
      ∃ τs, p.checkedWorld.tops id τs ∧ τs[index]? = some (t.mapVars θ) := by
  obtain ⟨d, i, hd, hi, hseen⟩ := huse
  obtain ⟨kinds, parts, hdecl, -, hinst⟩ :=
    h.seen hd (DefnBody.mem_interfaces_of_valueInterface? hi) hseen
  have hgen := (h.stage hd).generalised
  cases hb : d.body with
  | block b =>
      rw [hb] at hi
      cases hi
  | closure k =>
      rw [hb] at hi
      cases hi
  | external e => exact .inl ⟨d, e, hd, hb⟩
  | top tl =>
      rw [hb] at hi hgen
      obtain ⟨l, hl, rfl⟩ := Option.map_eq_some_iff.mp hi
      obtain ⟨declared, hdeclared, heq⟩ := Option.map_eq_some_iff.mp hdecl
      cases heq
      obtain ⟨types, hlen, heq⟩ := hinst.solved θ hθ
      obtain ⟨type, htype, hfits, hvars, hdecl'⟩ := hgen.2 l (List.mem_of_getElem? hl)
      rw [hdeclared] at hdecl'
      cases hdecl'
      rw [Scheme.length_kinds_generalize] at hlen
      obtain ⟨θ', hθ', heq'⟩ := Store.exists_solution h.regular hfits
        (hvars ▸ Ty.nodup_addVars .nil) hlen (fun u hu v hv => by
          rw [List.mem_singleton.mp hu] at hv
          exact hvars ▸ Store.mem_varsOf.mpr hv)
      rw [Scheme.parts_generalize, ← heq'] at heq
      have hder := (h.stage hd).derivation θ' hθ'
      rw [hb] at hder
      cases hder with
      | @top _ all _ htypes _ _ =>
          refine .inr ⟨all.map (Ty.mapVars θ'), ⟨d, tl, all, θ', hd, hb, htypes, hθ', rfl⟩, ?_⟩
          rw [List.getElem?_map, getElem?_defining htypes hl, htype, Option.map_some]
          exact congrArg some (List.head_eq_of_cons_eq heq).symm

end Uses

/-! ### From derivations to typed bodies -/

section Bodies

variable {p : Program} {θ : Nat → Ty} {L : LocalTypes} {scope : List Temp}

/-- The temporaries in scope are listed with the types that are recorded for them. -/
def Recorded (Γ : Context) (L : LocalTypes) (scope : List Temp) : Prop :=
  ∀ v ∈ scope, ∃ τ, L.lookup v = some τ ∧ AtomHas Γ (.temp v) τ

theorem Recorded.nil (Γ : Context) : Recorded Γ [] [] := fun _ hv => nomatch hv

theorem Recorded.mono {Γ : Context} {scope' : List Temp} (h : Recorded Γ L scope)
    (hs : scope' ⊆ scope) : Recorded Γ L scope' := fun v hv => h v (hs hv)

theorem Recorded.bind {Γ : Context} {vars : List Temp} {τs : List Ty} (h : Recorded Γ L scope)
    (hvars : ArgsHave Γ (vars.map .temp) τs) : Recorded Γ (L.bind vars τs) (vars ++ scope) := by
  induction vars generalizing L scope τs with
  | nil =>
      cases hvars
      exact h
  | cons x vars ih =>
      cases hvars with
      | @cons _ τ _ τs hx hvars =>
          have hstep : Recorded Γ ((x, τ) :: L) (x :: scope) := by
            intro v hv
            rw [List.lookup_cons]
            by_cases hvx : (v == x) = true
            · rw [hvx, eq_of_beq hvx]
              exact ⟨τ, rfl, hx⟩
            · rw [Bool.eq_false_iff.mpr hvx]
              rcases List.mem_cons.mp hv with rfl | hv
              · simp at hvx
              · exact h v hv
          have hsub : x :: vars ++ scope ⊆ vars ++ x :: scope := by
            intro v hv
            simp only [List.mem_append, List.mem_cons] at hv ⊢
            tauto
          have hrest := (ih hstep hvars).mono hsub
          simpa [LocalTypes.bind] using hrest

theorem ArgsHave.length_temps {Γ : Context} {vars : List Temp} {τs : List Ty}
    (h : ArgsHave Γ (vars.map .temp) τs) : vars.length = τs.length :=
  (List.length_map _).symm.trans h.length_eq

theorem AtomHas.unique {Γ : Context} {a : Atom} {τ τ' : Ty} (h : AtomHas Γ a τ)
    (h' : AtomHas Γ a τ') : τ = τ' := by
  obtain ⟨t, ht, rfl, -⟩ := h
  obtain ⟨t', ht', rfl, -⟩ := h'
  rw [ht] at ht'
  cases ht'
  rfl

theorem Complete.atomTyped (h : Complete p) (hθ : p.store.Solves θ)
    (hL : Recorded (p.working θ) L scope) {a : Atom} {τ : Ty} (ha : AtomHas (p.working θ) a τ)
    (hscope : InScope scope [a]) : AtomTyped p.checkedWorld L a τ := by
  cases a with
  | temp v =>
      obtain ⟨τ', hlookup, hhas⟩ := hL v (hscope v (.head _))
      rw [ha.unique hhas]
      exact hlookup
  | lit l =>
      obtain ⟨t, ht, rfl, -⟩ := ha
      cases l with
      | word w =>
          cases ht
          rfl
      | flag b =>
          cases ht
          rfl
  | top id index site =>
      obtain ⟨t, -, rfl, huse⟩ := ha
      exact h.top_use hθ (huse id index site rfl)

theorem Complete.atomsTyped (h : Complete p) (hθ : p.store.Solves θ)
    (hL : Recorded (p.working θ) L scope) {as : List Atom} {τs : List Ty}
    (has : ArgsHave (p.working θ) as τs) (hscope : InScope scope as) :
    AtomsTyped p.checkedWorld L as τs := by
  refine ((List.forall₂_and_left _ _).mpr ⟨fun a ha => ha, has⟩).imp fun a τ hmem => ?_
  refine h.atomTyped hθ hL hmem.2 fun v hv => hscope v ?_
  rw [List.mem_singleton.mp hv]
  exact hmem.1

theorem Complete.callTyped (h : Complete p) (hθ : p.store.Solves θ)
    (hL : Recorded (p.working θ) L scope) {c : BlockCall} {τ : Ty} (hc : CallHas (p.working θ) c τ)
    (hscope : InScope scope c.args) : CallTyped p.checkedWorld L c τ := by
  cases hc with
  | mk huse hdom hargs => exact ⟨_, h.block_use hθ huse hdom, h.atomsTyped hθ hL hargs hscope⟩

theorem kinds_type (op : PrimOp) : op = .halt ∨ op = .loop ∨ op.type.kinds = [] := by
  cases op <;> first | exact .inl rfl | exact .inr (.inl rfl) | exact .inr (.inr rfl)

theorem primTyped {q : Prim} {inst : BlockType} {τs : List Ty} (hq : q.Standard)
    (hθ : p.store.Solves θ) (huse : (p.working θ).prim q inst)
    (hdom : inst.dom.mapVars θ = .tuple τs) : PrimTyped q τs (inst.rng.mapVars θ) := by
  rcases hq with hop | ⟨htype, hpurity⟩
  · exact .inl hop
  rcases kinds_type q.op with hop | hop | hkinds
  · exact .inr (.inl hop)
  · exact .inr (.inr (.inl hop))
  obtain ⟨types, hlen, heq⟩ := huse.2.solved θ hθ
  rw [htype, hkinds] at hlen
  obtain rfl := List.eq_nil_of_length_eq_zero hlen
  simp only [BlockType.parts, List.map_cons, List.map_nil, List.cons.injEq, and_true,
    Ty.instantiate_nil, htype] at heq
  refine .inr (.inr (.inr ⟨hpurity, ?_⟩))
  rw [← hdom, heq.1, heq.2, ← hkinds]

theorem cfunAt {k : Cfun} {inst : AllocType} (hk : p.env.cfun? k.name = some k)
    (hθ : p.store.Solves θ) (huse : (p.working θ).cfun k inst) :
    p.env.CfunAt k (inst.stored.map (Ty.mapVars θ)) (inst.result.mapVars θ) := by
  obtain ⟨types, hlen, heq⟩ := huse.2.solved θ hθ
  obtain ⟨hstored, hresult⟩ := map_parts_eq heq
  exact ⟨hk, types, hlen, hstored, hresult⟩

theorem Complete.tailTyped (h : Complete p) (hθ : p.store.Solves θ)
    (hL : Recorded (p.working θ) L scope) {t : Tail} {τ : Ty} (ht : TailHas (p.working θ) t τ)
    (hf : t.Formed p.env p.prims scope) : TailTyped p.env p.checkedWorld L t τ := by
  obtain ⟨hscope, hnamed⟩ := hf
  cases ht with
  | ret hargs => exact .ret (h.atomsTyped hθ hL hargs hscope)
  | call hcall => exact .call (h.callTyped hθ hL hcall hscope)
  | prim huse hdom hargs =>
      exact .prim (primTyped hnamed.1 hθ huse hdom) (h.atomsTyped hθ hL hargs hscope)
  | alloc huse hargs =>
      obtain ⟨τs, τ, hresult, hclosure⟩ := h.closure_use hθ huse
      rw [show (p.working θ).read = Ty.mapVars θ from rfl, hresult]
      exact .alloc hclosure (h.atomsTyped hθ hL hargs hscope)
  | data huse hargs => exact .data (cfunAt hnamed hθ huse) (h.atomsTyped hθ hL hargs hscope)
  | enter hfn hargs =>
      refine .enter (h.atomTyped hθ hL hfn fun v hv => hscope v ?_)
        (h.atomsTyped hθ hL hargs fun v hv => hscope v (.tail _ hv))
      rw [List.mem_singleton.mp hv]
      exact .head _
  | sel huse hfield hget harg =>
      refine .sel (cfunAt hnamed hθ huse) ?_ (h.atomTyped hθ hL harg hscope)
      rw [List.getElem?_map, hget]
      rfl

/-- A case with an alternative looks at a value of a data type, since a constructor builds it. -/
theorem isData_scrut (h : Complete p) (hθ : p.store.Solves θ) {scrut : Atom}
    {alts : List (Cfun × BlockCall)} {default : Option BlockCall} {σ : Ty}
    (hscrut : AtomHas (p.working θ) scrut σ)
    (halts : ∀ alt ∈ alts, ∃ inst, (p.working θ).cfun alt.1 inst ∧ inst.result.mapVars θ = σ)
    (hnamed : ∀ alt ∈ alts, p.env.cfun? alt.1.name = some alt.1)
    (hcases : (Code.case scrut alts default).casesOnData p = true) : σ.IsData := by
  cases alts with
  | cons alt alts =>
      obtain ⟨inst, huse, rfl⟩ := halts alt (.head _)
      exact h.layout.env.shaped.isData (cfunAt (hnamed alt (.head _)) hθ huse)
  | nil =>
      obtain ⟨t, ht, rfl, -⟩ := hscrut
      have ht : p.atomType scrut = some t := ht
      rw [Code.casesOnData, ht] at hcases
      have hdata := (Ty.isData_of_eq_true hcases).mapVars θ
      rw [hθ.resolve] at hdata
      exact hdata

theorem Complete.codeTyped (h : Complete p) (hθ : p.store.Solves θ)
    (hL : Recorded (p.working θ) L scope) {c : Code} {τ : Ty} (hc : CodeHas (p.working θ) c τ)
    (hf : c.Formed p.env p.prims scope) (hcases : c.casesOnData p = true) :
    CodeTyped p.env p.checkedWorld L c τ := by
  induction c generalizing L scope with
  | bind vars tail next ih =>
      cases hc with
      | bind htail hvars hnext =>
          exact .bind (h.tailTyped hθ hL htail hf.1) hvars.length_temps
            (ih (hL.bind hvars) hnext hf.2 hcases)
  | done tail =>
      cases hc with
      | done htail => exact .done (h.tailTyped hθ hL htail hf)
  | branch cond t f =>
      cases hc with
      | branch hcond ht hfalse =>
          have hatoms : (Code.branch cond t f).atoms = [cond] ++ t.args ++ f.args := rfl
          rw [Code.Formed, hatoms] at hf
          refine .branch (h.atomTyped hθ hL hcond fun v hv => hf v ?_)
            (h.callTyped hθ hL ht fun v hv => hf v ?_)
            (h.callTyped hθ hL hfalse fun v hv => hf v (List.mem_append_right _ hv))
          · exact List.mem_append_left _ (List.mem_append_left _ hv)
          · exact List.mem_append_left _ (List.mem_append_right _ hv)
  | case scrut alts default =>
      cases hc with
      | case hscrut halts hdefault =>
          obtain ⟨hscope, hnamed⟩ := hf
          have hatoms : (Code.case scrut alts default).atoms = [scrut] ++
              (alts.flatMap (fun alt => alt.2.args) ++ default.toList.flatMap BlockCall.args) := by
            simp [Code.atoms, Code.calls, List.flatMap_map]
          rw [hatoms] at hscope
          refine .case (h.atomTyped hθ hL hscrut fun v hv => hscope v (List.mem_append_left _ hv))
            (isData_scrut h hθ hscrut (fun alt ha => (halts alt ha).1) hnamed hcases)
            (fun alt ha => ?_) fun c hc => ?_
          · refine h.callTyped hθ hL (halts alt ha).2 fun v hv => hscope v ?_
            exact List.mem_append_right _ (List.mem_append_left _
              (List.mem_flatMap.mpr ⟨alt, ha, hv⟩))
          · refine h.callTyped hθ hL (hdefault c hc) fun v hv => hscope v ?_
            rw [hc]
            exact List.mem_append_right _ (List.mem_append_right _ (by simpa using hv))

end Bodies

/-- Every body of a checked program bears out its working type, however the store is solved. -/
theorem Complete.coherent {p : Program} (h : Complete p) (hcases : p.casesOnData = true) :
    p.checkedWorld.Coherent p where
  block := by
    rintro id τs τ ⟨d, b, type, θ, hd, hb, htype, hθ, hdom, rfl⟩
    have hder := (h.stage hd).derivation θ hθ
    have hformed := h.layout.formed hd
    rw [hb] at hder hformed
    cases hder with
    | @block _ type' code τs' htype' hbody hdom' hparams hcode =>
        rw [htype] at htype'
        cases htype'
        obtain rfl : τs' = τs := by
          have := hdom'.symm.trans hdom
          injection this
        refine ⟨d, b, code, hd, hb, hbody, hparams.length_temps, h.codeTyped hθ ?_ hcode
          (hformed code hbody) (Program.casesOnData_block hcases hd hb hbody)⟩
        have := (Recorded.nil (p.working θ)).bind hparams
        rwa [List.append_nil] at this
  closure := by
    rintro id stored τs τ ⟨d, k, type, θ, hd, hk, htype, hθ, rfl, hresult⟩
    have hder := (h.stage hd).derivation θ hθ
    have hformed := h.layout.formed hd
    rw [hk] at hder hformed
    cases hder with
    | @closure _ type' tail τs' τ' htype' htail hresult' hparams hargs hbody =>
        rw [htype] at htype'
        cases htype'
        have heq := hresult'.symm.trans hresult
        simp only [Ty.func, Ty.ap.injEq, Ty.tuple.injEq, true_and] at heq
        obtain ⟨rfl, rfl⟩ := heq
        refine ⟨d, k, tail, hd, hk, htail, hparams.length_temps, hargs.length_temps, h.tailTyped hθ
          (((Recorded.nil (p.working θ)).bind hparams).bind hargs |>.mono ?_) hbody
          (hformed tail htail)⟩
        intro v hv
        simp only [List.mem_append, List.not_mem_nil, or_false] at hv ⊢
        exact hv.symm
  tops := by
    rintro id τs ⟨d, t, types, θ, hd, ht, htypes, hθ, rfl⟩
    have hder := (h.stage hd).derivation θ hθ
    have hformed := h.layout.formed hd
    rw [ht] at hder hformed
    cases hder with
    | @top _ types' tail htypes' htail hbody =>
        obtain rfl : types = types' :=
          List.map_injective_iff.mpr (Option.some_injective _) (htypes.symm.trans htypes')
        exact ⟨d, t, tail, hd, ht, htail, h.tailTyped hθ (Recorded.nil _) hbody (hformed tail htail)⟩
  external := by
    rintro id ⟨d, e, hd, he⟩
    have hformed := h.layout.formed hd
    rw [he] at hformed
    exact ⟨d, e, hd, he, hformed⟩

end Typing

end Mil
