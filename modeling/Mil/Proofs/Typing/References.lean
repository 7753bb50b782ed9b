import Mil.Proofs.Program.Linked
import Mil.Proofs.Typing.Derivation

/-!
References in derivations. A body refers to definitions in calls, allocations and operands, each time
at a recorded type. A derivation asks for these uses and no others, so it is one already where only
they are permitted, and every definition that the body refers to is permitted at some type.
-/

namespace Mil

theorem mem_getD_map {α β : Type} {o : Option α} {f : α → List β} {b : β} :
    b ∈ (o.map f).getD [] ↔ ∃ a, o = some a ∧ b ∈ f a := by
  cases o <;> simp

/-- A reference to a definition, with the type that is recorded at it. -/
inductive Use
  | block (id : DefnId) (inst : BlockType)
  | closure (id : DefnId) (inst : AllocType)
  | value (id : DefnId) (index : Nat) (type : Ty)

namespace Use

/-- The definition that is referred to. -/
def target : Use → DefnId
  | .block id _ => id
  | .closure id _ => id
  | .value id _ _ => id

/-- The types at which it is used. -/
def parts : Use → List Ty
  | .block _ inst => inst.parts
  | .closure _ inst => inst.parts
  | .value _ _ t => [t]

end Use

namespace Program

/-- The reference that an operand is. -/
def atomUses (p : Program) : Atom → List Use
  | .top id index site => ((p.sites[site]?).join.map (.value id index)).toList
  | _ => []

/-- The references of a tail. -/
def tailUses (p : Program) (t : Tail) : List Use :=
  t.atoms.flatMap p.atomUses ++
    match t with
    | .call c => (c.inst.map (.block c.block)).toList
    | .alloc k _ inst => (inst.map (.closure k)).toList
    | _ => []

/-- The references of a body. -/
def codeUses (p : Program) : Code → List Use
  | .bind _ tail next => p.tailUses tail ++ p.codeUses next
  | .done tail => p.tailUses tail
  | .branch cond t f => p.atomUses cond ++ (p.tailUses (.call t) ++ p.tailUses (.call f))
  | .case scrut alts default =>
    p.atomUses scrut ++ (Code.case scrut alts default).calls.flatMap fun c => p.tailUses (.call c)

/-- The references of a definition. -/
def uses (p : Program) : DefnBody → List Use
  | .block b => (b.body.map p.codeUses).getD []
  | .closure k => (k.tail.map p.tailUses).getD []
  | .top t => (t.tail.map p.tailUses).getD []
  | .external _ => []

/-- The references of the definition at a position. -/
def usesOf (p : Program) (id : DefnId) : List Use :=
  ((p.defns[id]?).map fun d => p.uses d.body).getD []

section Targets

variable {p : Program} {u : Use}

theorem target_of_mem_atomUses {a : Atom} (hu : u ∈ p.atomUses a) : a.defn? = some u.target := by
  cases a with
  | temp t => cases hu
  | lit l => cases hu
  | top id index site =>
      obtain ⟨t, -, rfl⟩ := Option.map_eq_some_iff.mp (Option.mem_toList.mp hu)
      rfl

theorem target_mem_of_mem_tailUses {t : Tail} (hu : u ∈ p.tailUses t) : u.target ∈ t.refs := by
  rcases List.mem_append.mp hu with hu | hu
  · obtain ⟨a, ha, hu⟩ := List.mem_flatMap.mp hu
    exact List.mem_append_left _ (List.mem_filterMap.mpr ⟨a, ha, target_of_mem_atomUses hu⟩)
  · refine List.mem_append_right _ ?_
    cases t with
    | call c =>
        obtain ⟨inst, -, rfl⟩ := Option.map_eq_some_iff.mp (Option.mem_toList.mp hu)
        exact .head _
    | alloc k args inst =>
        obtain ⟨inst, -, rfl⟩ := Option.map_eq_some_iff.mp (Option.mem_toList.mp hu)
        exact .head _
    | _ => cases hu

theorem target_mem_of_mem_codeUses {c : Code} (hu : u ∈ p.codeUses c) : u.target ∈ c.refs := by
  induction c with
  | bind vars tail next ih =>
      rcases List.mem_append.mp hu with hu | hu
      · exact List.mem_append_left _ (target_mem_of_mem_tailUses hu)
      · exact List.mem_append_right _ (ih hu)
  | done tail => exact target_mem_of_mem_tailUses hu
  | branch cond t f =>
      rw [Code.refs, List.append_assoc]
      rcases List.mem_append.mp hu with hu | hu
      · exact List.mem_append_left _ (Option.mem_toList.mpr (target_of_mem_atomUses hu))
      · refine List.mem_append_right _ ?_
        rcases List.mem_append.mp hu with hu | hu
        · exact List.mem_append_left _ (target_mem_of_mem_tailUses hu)
        · exact List.mem_append_right _ (target_mem_of_mem_tailUses hu)
  | case scrut alts default =>
      rcases List.mem_append.mp hu with hu | hu
      · exact List.mem_append_left _ (Option.mem_toList.mpr (target_of_mem_atomUses hu))
      · obtain ⟨c, hc, hu⟩ := List.mem_flatMap.mp hu
        exact List.mem_append_right _
          (List.mem_flatMap.mpr ⟨c, hc, target_mem_of_mem_tailUses hu⟩)

/-- What a definition uses it refers to. -/
theorem target_mem_of_mem_uses {b : DefnBody} (hu : u ∈ p.uses b) : u.target ∈ b.refs := by
  cases b with
  | block b =>
      obtain ⟨c, hc, hu⟩ := mem_getD_map.mp hu
      exact mem_getD_map.mpr ⟨c, hc, target_mem_of_mem_codeUses hu⟩
  | closure k =>
      obtain ⟨t, ht, hu⟩ := mem_getD_map.mp hu
      exact mem_getD_map.mpr ⟨t, ht, target_mem_of_mem_tailUses hu⟩
  | top t =>
      obtain ⟨t, ht, hu⟩ := mem_getD_map.mp hu
      exact mem_getD_map.mpr ⟨t, ht, target_mem_of_mem_tailUses hu⟩
  | external e => cases hu

theorem target_mem_dependencies {id : DefnId} (hu : u ∈ p.usesOf id) :
    u.target ∈ p.dependencies id := by
  obtain ⟨d, hd, hu⟩ := mem_getD_map.mp hu
  exact mem_getD_map.mpr ⟨d, hd, List.mem_eraseDups.mpr (target_mem_of_mem_uses hu)⟩

end Targets

end Program

namespace Typing

/-! ### Permitted definitions -/

/-- The context permits uses of some definitions only. -/
structure Context.Within (Γ : Context) (P : DefnId → Prop) : Prop where
  block : ∀ {id : DefnId} {inst : BlockType}, Γ.block id inst → P id
  closure : ∀ {id : DefnId} {inst : AllocType}, Γ.closure id inst → P id
  top : ∀ {id : DefnId} {index : Nat} {t : Ty}, Γ.top id index t → P id

section Within

variable {Γ : Context} {P : DefnId → Prop} (hΓ : Γ.Within P)

include hΓ

theorem AtomHas.defn_within {a : Atom} {τ : Ty} (h : AtomHas Γ a τ) {r : DefnId}
    (hr : a.defn? = some r) : P r := by
  obtain ⟨t, -, -, huse⟩ := h
  cases a with
  | temp t => cases hr
  | lit l => cases hr
  | top id index site =>
      obtain rfl : id = r := Option.some.inj hr
      exact hΓ.top (huse id index site rfl)

theorem ArgsHave.defn_within {as : List Atom} {τs : List Ty} (h : ArgsHave Γ as τs) {r : DefnId}
    (hr : r ∈ as.filterMap Atom.defn?) : P r := by
  obtain ⟨a, ha, har⟩ := List.mem_filterMap.mp hr
  induction h with
  | nil => cases ha
  | cons hhead _ ih =>
      rcases List.mem_cons.mp ha with rfl | ha
      · exact hhead.defn_within hΓ har
      · exact ih (List.mem_filterMap.mpr ⟨a, ha, har⟩) ha

theorem CallHas.refs_within {c : BlockCall} {τ : Ty} (h : CallHas Γ c τ) {r : DefnId}
    (hr : r ∈ (Tail.call c).refs) : P r := by
  cases h with
  | mk huse hdom hargs =>
      rcases List.mem_append.mp hr with hr | hr
      · exact hargs.defn_within hΓ hr
      · obtain rfl := List.mem_singleton.mp hr
        exact hΓ.block huse

theorem TailHas.refs_within {t : Tail} {τ : Ty} (h : TailHas Γ t τ) {r : DefnId}
    (hr : r ∈ t.refs) : P r := by
  cases h with
  | call hcall => exact hcall.refs_within hΓ hr
  | ret hargs =>
      rcases List.mem_append.mp hr with hr | hr
      · exact hargs.defn_within hΓ hr
      · cases hr
  | prim huse hdom hargs =>
      rcases List.mem_append.mp hr with hr | hr
      · exact hargs.defn_within hΓ hr
      · cases hr
  | alloc huse hargs =>
      rcases List.mem_append.mp hr with hr | hr
      · exact hargs.defn_within hΓ hr
      · obtain rfl := List.mem_singleton.mp hr
        exact hΓ.closure huse
  | data huse hargs =>
      rcases List.mem_append.mp hr with hr | hr
      · exact hargs.defn_within hΓ hr
      · cases hr
  | enter hfn hargs =>
      rcases List.mem_append.mp hr with hr | hr
      · exact ArgsHave.defn_within hΓ (.cons hfn hargs) hr
      · cases hr
  | sel huse hfield ht harg =>
      rcases List.mem_append.mp hr with hr | hr
      · exact ArgsHave.defn_within hΓ (.cons harg .nil) hr
      · cases hr

theorem CodeHas.refs_within {c : Code} {τ : Ty} (h : CodeHas Γ c τ) {r : DefnId}
    (hr : r ∈ c.refs) : P r := by
  induction h with
  | bind htail hvars _ ih =>
      rcases List.mem_append.mp hr with hr | hr
      · exact htail.refs_within hΓ hr
      · exact ih hr
  | done htail => exact htail.refs_within hΓ hr
  | branch hcond ht hf =>
      rcases List.mem_append.mp hr with hr | hr
      · rcases List.mem_append.mp hr with hr | hr
        · exact hcond.defn_within hΓ (Option.mem_toList.mp hr)
        · exact ht.refs_within hΓ hr
      · exact hf.refs_within hΓ hr
  | case hscrut halts hdefault =>
      rcases List.mem_append.mp hr with hr | hr
      · exact hscrut.defn_within hΓ (Option.mem_toList.mp hr)
      · obtain ⟨c, hc, hr⟩ := List.mem_flatMap.mp hr
        rcases List.mem_append.mp hc with hc | hc
        · obtain ⟨alt, halt, rfl⟩ := List.mem_map.mp hc
          exact (halts alt halt).2.refs_within hΓ hr
        · exact (hdefault c (Option.mem_toList.mp hc)).refs_within hΓ hr

/-- The definitions that a definition refers to are permitted. -/
theorem DefnHas.refs_within {b : DefnBody} (h : DefnHas Γ b) (himpl : ∀ e, b = .external e →
    e.impl = none) {r : DefnId} (hr : r ∈ b.refs) : P r := by
  cases h with
  | block htype hbody hdom hparams hcode =>
      rw [DefnBody.refs, hbody] at hr
      exact hcode.refs_within hΓ hr
  | closure htype htail hresult hparams hargs hbody =>
      rw [DefnBody.refs, htail] at hr
      exact hbody.refs_within hΓ hr
  | top htypes htail hbody =>
      rw [DefnBody.refs, htail] at hr
      exact hbody.refs_within hΓ hr
  | external =>
      rw [DefnBody.refs, himpl _ rfl] at hr
      cases hr

end Within

section Calls

variable {Γ : Context} {c : BlockCall} {τ : Ty}

theorem CallHas.block (h : CallHas Γ c τ) : ∃ inst, Γ.block c.block inst := by
  cases h with
  | mk huse hdom hargs => exact ⟨_, huse⟩

theorem TailHas.block_of_call {t : Tail} (h : TailHas Γ t τ) (hc : c ∈ t.call?.toList) :
    ∃ inst, Γ.block c.block inst := by
  cases h with
  | call hcall =>
      obtain rfl := List.mem_singleton.mp hc
      exact hcall.block
  | _ => cases hc

theorem CodeHas.block_of_call {code : Code} (h : CodeHas Γ code τ) (hc : c ∈ code.allCalls) :
    ∃ inst, Γ.block c.block inst := by
  induction h with
  | bind htail hvars _ ih =>
      rcases List.mem_append.mp hc with hc | hc
      · exact htail.block_of_call hc
      · exact ih hc
  | done htail => exact htail.block_of_call hc
  | branch hcond ht hf =>
      rcases List.mem_cons.mp hc with rfl | hc
      · exact ht.block
      · obtain rfl := List.mem_singleton.mp hc
        exact hf.block
  | case hscrut halts hdefault =>
      rcases List.mem_append.mp hc with hc | hc
      · obtain ⟨alt, halt, rfl⟩ := List.mem_map.mp hc
        exact (halts alt halt).2.block
      · exact (hdefault c (Option.mem_toList.mp hc)).block

/-- What a definition calls is permitted as a block. -/
theorem DefnHas.block_of_call {b : DefnBody} (h : DefnHas Γ b) (hc : c ∈ b.calls) :
    ∃ inst, Γ.block c.block inst := by
  cases h with
  | block htype hbody hdom hparams hcode =>
      rw [DefnBody.calls, hbody] at hc
      exact hcode.block_of_call hc
  | closure htype htail hresult hparams hargs hbody =>
      rw [DefnBody.calls, htail] at hc
      exact hbody.block_of_call hc
  | top htypes htail hbody =>
      rw [DefnBody.calls, htail] at hc
      exact hbody.block_of_call hc
  | external => cases hc

end Calls

/-! ### Permitted uses -/

/-- The context with the given uses only. -/
def Context.only (Γ : Context) (us : List Use) : Context :=
  { Γ with
    block := fun id inst => Γ.block id inst ∧ .block id inst ∈ us
    closure := fun id inst => Γ.closure id inst ∧ .closure id inst ∈ us
    top := fun id index t => Γ.top id index t ∧ .value id index t ∈ us }

theorem Context.only_le (Γ : Context) {us us' : List Use} (h : us ⊆ us') :
    (Γ.only us).Le (Γ.only us') :=
  ⟨fun _ _ ha => ha, rfl, fun _ _ hu => ⟨hu.1, h hu.2⟩, fun _ _ hu => hu,
    fun _ _ hu => ⟨hu.1, h hu.2⟩, fun _ _ hu => hu, fun _ _ _ hu => ⟨hu.1, h hu.2⟩⟩

section Only

variable {Γ : Context} {p : Program} (hΓ : ∀ a t, Γ.atom a = some t → p.atomType a = some t)

include hΓ

theorem AtomHas.only {a : Atom} {τ : Ty} (h : AtomHas Γ a τ) :
    AtomHas (Γ.only (p.atomUses a)) a τ := by
  obtain ⟨t, ht, hread, huse⟩ := h
  refine ⟨t, ht, hread, ?_⟩
  rintro id index site rfl
  have hsite : (p.sites[site]?).join = some t := hΓ _ t ht
  refine ⟨huse id index site rfl, ?_⟩
  rw [Program.atomUses, hsite]
  exact .head _

theorem ArgsHave.only {as : List Atom} {τs : List Ty} (h : ArgsHave Γ as τs) :
    ArgsHave (Γ.only (as.flatMap p.atomUses)) as τs := by
  induction h with
  | nil => exact .nil
  | cons ha _ ih =>
      rw [List.flatMap_cons]
      exact .cons ((ha.only hΓ).mono (Γ.only_le (List.subset_append_left _ _)))
        (ArgsHave.mono (Γ.only_le (List.subset_append_right _ _)) ih)

/-- Temporaries are no references. -/
theorem ArgsHave.temps_only {vars : List Temp} {τs : List Ty} {us : List Use}
    (h : ArgsHave Γ (vars.map .temp) τs) : ArgsHave (Γ.only us) (vars.map .temp) τs := by
  refine (h.only hΓ).mono (Γ.only_le fun u hu => ?_)
  obtain ⟨a, ha, hu⟩ := List.mem_flatMap.mp hu
  obtain ⟨v, -, rfl⟩ := List.mem_map.mp ha
  cases hu

theorem CallHas.only {c : BlockCall} {τ : Ty} (h : CallHas Γ c τ) :
    CallHas (Γ.only (p.tailUses (.call c))) c τ := by
  cases h with
  | mk huse hdom hargs =>
      refine .mk (Γ := Γ.only _) ⟨huse, List.mem_append_right _ (.head _)⟩ hdom ?_
      exact (hargs.only hΓ).mono (Γ.only_le (List.subset_append_left _ _))

theorem TailHas.only {t : Tail} {τ : Ty} (h : TailHas Γ t τ) :
    TailHas (Γ.only (p.tailUses t)) t τ := by
  have hatoms {as : List Atom} {τs : List Ty} {us : List Use} (hargs : ArgsHave Γ as τs) :
      ArgsHave (Γ.only (as.flatMap p.atomUses ++ us)) as τs :=
    (hargs.only hΓ).mono (Γ.only_le (List.subset_append_left _ _))
  cases h with
  | ret hargs => exact .ret (hatoms hargs)
  | call hcall => exact .call (hcall.only hΓ)
  | prim huse hdom hargs => exact .prim (Γ := Γ.only _) huse hdom (hatoms hargs)
  | alloc huse hargs =>
      exact .alloc (Γ := Γ.only _) ⟨huse, List.mem_append_right _ (.head _)⟩ (hatoms hargs)
  | data huse hargs => exact .data (Γ := Γ.only _) huse (hatoms hargs)
  | enter hfn hargs =>
      cases hatoms (.cons hfn hargs) with
      | cons hfn hargs => exact .enter hfn hargs
  | sel huse hfield ht harg =>
      cases hatoms (.cons harg .nil) with
      | cons harg _ => exact .sel (Γ := Γ.only _) huse hfield ht harg

theorem CodeHas.only {c : Code} {τ : Ty} (h : CodeHas Γ c τ) :
    CodeHas (Γ.only (p.codeUses c)) c τ := by
  induction h with
  | bind htail hvars _ ih =>
      exact .bind ((htail.only hΓ).mono (Γ.only_le (List.subset_append_left _ _)))
        (hvars.temps_only hΓ) (ih.mono (Γ.only_le (List.subset_append_right _ _)))
  | done htail => exact .done (htail.only hΓ)
  | branch hcond ht hf =>
      refine .branch ((hcond.only hΓ).mono (Γ.only_le (List.subset_append_left _ _)))
        ((ht.only hΓ).mono (Γ.only_le fun u hu => ?_))
        ((hf.only hΓ).mono (Γ.only_le fun u hu => ?_))
      · exact List.mem_append_right _ (List.mem_append_left _ hu)
      · exact List.mem_append_right _ (List.mem_append_right _ hu)
  | @case scrut alts default _ _ hscrut halts hdefault =>
      have hcalls {c : BlockCall} (hc : c ∈ (Code.case scrut alts default).calls) :
          p.tailUses (.call c) ⊆ p.codeUses (.case scrut alts default) :=
        fun u hu => List.mem_append_right _ (List.mem_flatMap.mpr ⟨c, hc, hu⟩)
      refine .case (Γ := Γ.only _)
        ((hscrut.only hΓ).mono (Γ.only_le (List.subset_append_left _ _)))
        (fun alt halt => ⟨(halts alt halt).1, ?_⟩) fun c hc => ?_
      · exact ((halts alt halt).2.only hΓ).mono (Γ.only_le
          (hcalls (List.mem_append_left _ (List.mem_map_of_mem halt))))
      · exact ((hdefault c hc).only hΓ).mono (Γ.only_le
          (hcalls (List.mem_append_right _ (Option.mem_toList.mpr hc))))

/-- A derivation asks for the uses of the definition only. -/
theorem DefnHas.only {b : DefnBody} (h : DefnHas Γ b) : DefnHas (Γ.only (p.uses b)) b := by
  cases h with
  | block htype hbody hdom hparams hcode =>
      refine .block (Γ := Γ.only _) htype hbody hdom (hparams.temps_only hΓ) ?_
      rw [Program.uses, hbody]
      exact hcode.only hΓ
  | closure htype htail hresult hparams hargs hbody =>
      refine .closure (Γ := Γ.only _) htype htail hresult (hparams.temps_only hΓ)
        (hargs.temps_only hΓ) ?_
      rw [Program.uses, htail]
      exact hbody.only hΓ
  | top htypes htail hbody =>
      refine .top (Γ := Γ.only _) htypes htail ?_
      rw [Program.uses, htail]
      exact hbody.only hΓ
  | external => exact .external

end Only

end Typing

end Mil
