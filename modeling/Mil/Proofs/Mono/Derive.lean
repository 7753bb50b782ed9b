import Mil.Proofs.Mono.Grant

/-!
Derivations of copies. A body that has a derivation at a reading is copied without a problem, and the
copy has the derivation at the types that the reading gives. So requests are met one after another,
and every finished copy is well typed.
-/

namespace Mil

/-- New temporaries are added at the end. -/
theorem TempTypes.freshAll_eq_append (temps : TempTypes) (ts : List (Option Ty)) :
    (temps.freshAll ts).2 = temps ++ ts.toArray := by
  induction ts generalizing temps with
  | nil => simp [freshAll]
  | cons t ts ih =>
      simp only [freshAll, fresh, ih]
      simp

theorem TempTypes.typeOf_freshAll {temps : TempTypes} {ts : List (Option Ty)} {t : Temp} {τ : Ty}
    (h : temps.typeOf t = some τ) : (temps.freshAll ts).2.typeOf t = some τ := by
  have hlt : t < temps.size := by
    by_contra hge
    rw [typeOf, Array.getElem?_eq_none (Nat.not_lt.mp hge)] at h
    cases h
  rw [freshAll_eq_append, typeOf, Array.getElem?_append_left hlt]
  exact h

/-- Each new temporary has its type. -/
theorem TempTypes.forall₂_freshAll (temps : TempTypes) (ts : List (Option Ty)) :
    List.Forall₂ (fun v τ => (temps.freshAll ts).2.typeOf v = τ) (temps.freshAll ts).1 ts := by
  refine List.forall₂_iff_get.mpr ⟨?_, fun n hn hn' => ?_⟩
  · rw [(temps.freshAll_spec ts).2, List.length_range']
  · simp only [(temps.freshAll_spec ts).2, List.get_eq_getElem, List.getElem_range', Nat.one_mul]
    rw [freshAll_eq_append, typeOf, Array.getElem?_append_right (by omega)]
    simp [hn']

/-- A function of what a list was mapped to. -/
theorem map_of_map_eq {α β γ : Type} {f : α → β} {as : List α} {bs : List β} (g : β → γ)
    (h : as.map f = bs) : (as.map fun a => g (f a)) = bs.map g := by
  rw [← h, List.map_map]
  rfl

namespace Mono

open Typing (Context AtomHas ArgsHave CallHas TailHas CodeHas DefnHas Complete)

/-! ### Types of copies -/

section Closed

variable {p : Program} {s : State}

theorem closed_of_atomHas {a : Atom} {τ : Ty} (h : AtomHas (s.context p) a τ) : τ.Closed 0 := by
  obtain ⟨t, ht, rfl, -⟩ := h
  exact (Ty.isGround_iff_closed t).mp (Option.filter_eq_some_iff.mp ht).2

theorem closed_of_argsHave {args : List Atom} {τs : List Ty}
    (h : ArgsHave (s.context p) args τs) : ∀ τ ∈ τs, τ.Closed 0 := by
  induction h with
  | nil => exact fun _ h => (nomatch h)
  | cons ha _ ih =>
      intro τ hτ
      rcases List.mem_cons.mp hτ with rfl | hτ
      · exact closed_of_atomHas ha
      · exact ih τ hτ

/-- A copy gives results of closed types. -/
theorem closed_of_tailHas {t : Tail} {τ : Ty} (h : TailHas (s.context p) t τ) : τ.Closed 0 := by
  cases h with
  | ret hargs => exact Ty.closed_tuple.mpr (closed_of_argsHave hargs)
  | call hcall =>
      cases hcall with
      | mk huse _ _ => exact huse.1.closed _ (.tail _ (.head _))
  | prim huse _ _ => exact huse.2.closed _ (.tail _ (.head _))
  | alloc huse _ =>
      refine Ty.closed_tuple.mpr fun t ht => ?_
      rw [List.mem_singleton.mp ht]
      exact huse.1.closed _ (List.mem_append_right _ (.head _))
  | data huse _ =>
      refine Ty.closed_tuple.mpr fun t ht => ?_
      rw [List.mem_singleton.mp ht]
      exact huse.1.closed _ (List.mem_append_right _ (.head _))
  | enter hfn _ => exact (Ty.closed_ap.mp (closed_of_atomHas hfn)).2
  | sel huse _ ht _ =>
      refine Ty.closed_tuple.mpr fun t ht' => ?_
      rw [List.mem_singleton.mp ht']
      exact huse.1.closed _ (List.mem_append_left _ (List.mem_of_getElem? ht))

end Closed

/-- New temporaries have the types of those that they stand for, as the reading gives them, and
there is one for every temporary in scope. -/
structure Renames.Typed (p : Program) (s : State) (θ : Nat → Ty) (env : Renames)
    (scope : List Temp) : Prop where
  typed : ∀ {t u : Temp} {τ : Ty}, (t, u) ∈ env → p.temps.typeOf t = some τ →
    s.program.temps.typeOf u = some (τ.mapVars θ) ∧ (τ.mapVars θ).Closed 0
  covers : ∀ t ∈ scope, ∃ u, env.lookup t = some u

section Renames

variable {p : Program} {s s' : State} {θ : Nat → Ty} {env : Renames} {scope : List Temp}

theorem Renames.Typed.widen (h : env.Typed p s θ scope) (hw : Widens s s') :
    env.Typed p s' θ scope :=
  ⟨fun hmem hτ => ⟨hw.temps (h.typed hmem hτ).1, (h.typed hmem hτ).2⟩, h.covers⟩

theorem Renames.typed_nil : Renames.Typed p s θ [] [] :=
  ⟨fun hmem => (nomatch hmem), fun _ ht => (nomatch ht)⟩

/-- The types that are recorded for temporaries, as the reading gives them. -/
def TempsAt (p : Program) (θ : Nat → Ty) (vars : List Temp) (τs : List Ty) : Prop :=
  List.Forall₂ (fun v τ => ∃ t, p.temps.typeOf v = some t ∧ t.mapVars θ = τ) vars τs

theorem tempsAt_of_argsHave {Good : DefnId → (Nat → Ty) → Prop} {vars : List Temp} {τs : List Ty}
    (h : ArgsHave (workingAt p Good θ) (vars.map .temp) τs) : TempsAt p θ vars τs := by
  refine (List.forall₂_map_left_iff.mp h).imp fun v τ hv => ?_
  obtain ⟨t, ht, hread, -⟩ := hv
  exact ⟨t, ht, hread⟩

theorem argsHave_of_typeOf {vs : List Temp} {τs : List Ty}
    (h : List.Forall₂ (fun u τ => s.program.temps.typeOf u = some τ) vs τs)
    (hclosed : ∀ τ ∈ τs, τ.Closed 0) : ArgsHave (s.context p) (vs.map .temp) τs := by
  induction h with
  | nil => exact .nil
  | @cons u τ _ _ hu _ ih =>
      refine .cons ⟨τ, ?_, rfl, fun _ _ _ heq => (nomatch heq)⟩
        (ih fun σ hσ => hclosed σ (.tail _ hσ))
      exact Option.filter_eq_some_iff.mpr
        ⟨hu, (Ty.isGround_iff_closed τ).mpr (hclosed τ (.head _))⟩

theorem Renames.Typed.extend (h : env.Typed p s θ scope) {vars vs : List Temp} {τs : List Ty}
    (hvars : TempsAt p θ vars τs)
    (hvs : List.Forall₂ (fun u τ => s.program.temps.typeOf u = some τ) vs τs)
    (hclosed : ∀ τ ∈ τs, τ.Closed 0) : (env.extend vars vs).Typed p s θ (vars ++ scope) := by
  refine ⟨fun {t u τ} hmem hτ => ?_, fun t ht => ?_⟩
  · rcases List.mem_append.mp hmem with hmem | hmem
    · obtain ⟨n, hn⟩ := List.mem_iff_getElem?.mp (List.mem_reverse.mp hmem)
      obtain ⟨ht, hu⟩ := List.getElem?_zip_eq_some.mp hn
      obtain ⟨hlt, rfl⟩ := List.getElem?_eq_some_iff.mp ht
      obtain ⟨hlt', rfl⟩ := List.getElem?_eq_some_iff.mp hu
      have hlt'' : n < τs.length := hvars.length_eq ▸ hlt
      obtain ⟨t, ht, hread⟩ := hvars.get hlt hlt''
      obtain rfl : t = τ := Option.some.inj (ht.symm.trans hτ)
      rw [hread]
      exact ⟨hvs.get hlt' hlt'', hclosed _ (List.getElem_mem hlt'')⟩
    · exact h.typed hmem hτ
  · rw [← Option.isSome_iff_exists, Renames.extend, List.lookup_append, Option.isSome_or,
      Bool.or_eq_true]
    rcases List.mem_append.mp ht with ht | ht
    · left
      obtain ⟨n, hlt, rfl⟩ := List.mem_iff_getElem.mp ht
      have hlt' : n < vs.length := hvs.length_eq ▸ hvars.length_eq ▸ hlt
      have hmem : (vars[n], vs[n]) ∈ (vars.zip vs).reverse :=
        List.mem_reverse.mpr (List.mem_iff_getElem?.mpr ⟨n, List.getElem?_zip_eq_some.mpr
          ⟨List.getElem?_eq_getElem hlt, List.getElem?_eq_getElem hlt'⟩⟩)
      by_contra hnone
      have hne := List.lookup_eq_none_iff.mp (Option.not_isSome_iff_eq_none.mp hnone) _ hmem
      simp at hne
    · exact .inr (Option.isSome_iff_exists.mpr (h.covers t ht))

end Renames

/-! ### Bodies -/

section Bodies

variable {p : Program} {Good : DefnId → (Nat → Ty) → Prop} {extra : List Pending} {s₀ : State}
  {sub : TySubst} {env : Renames} {scope : List Temp}

theorem meets_typeAt (h : Complete p) (sub : TySubst) (t : Ty) :
    Meets p Good extra s₀ (typeAt sub t) fun _ u => u = t.mapVars (valuation p.store sub) := by
  refine .of_same fun s _ _ htyped => ⟨_, yields_bind.mpr ⟨_, s, rfl, rfl⟩, ?_⟩
  rw [htyped.store]
  exact ground_applySubst h.regular sub t

theorem meets_blockTypeAt (h : Complete p) (b : BlockType) :
    Meets p Good extra s₀ (blockTypeAt sub (some b)) fun _ inst =>
      inst = b.mapTypes (Ty.mapVars (valuation p.store sub)) := by
  refine (meets_typeAt h sub b.dom).bind fun dom _ _ hdom => ?_
  refine (meets_typeAt h sub b.rng).bind fun rng _ _ hrng => .pure fun _ _ => ?_
  rw [hdom, hrng]
  rfl

theorem meets_types (h : Complete p) (ts : List Ty) :
    Meets p Good extra s₀ (ts.mapM (typeAt sub)) fun _ us =>
      us = ts.map (Ty.mapVars (valuation p.store sub)) := by
  have hmap : Meets p Good extra s₀ (ts.mapM (typeAt sub)) fun _ us =>
      List.Forall₂ (fun t u => u = t.mapVars (valuation p.store sub)) ts us :=
    .mapM (fun _ hu => hu) fun t _ _ _ => meets_typeAt h sub t
  refine hmap.imp fun _ us hus => ?_
  clear hmap
  induction hus with
  | nil => rfl
  | cons hu _ ih => rw [List.map_cons, hu, ih]

theorem meets_allocTypeAt (h : Complete p) (a : AllocType) :
    Meets p Good extra s₀ (allocTypeAt sub (some a)) fun _ inst =>
      inst = a.mapTypes (Ty.mapVars (valuation p.store sub)) := by
  refine (meets_types h a.stored).bind fun stored _ _ hstored => ?_
  refine (meets_typeAt h sub a.result).bind fun result _ _ hresult => .pure fun _ _ => ?_
  rw [hstored, hresult]
  rfl

/-- The type that is recorded for a temporary is still recorded. -/
theorem meets_recorded (h : Complete p) {v : Temp} {t : Ty} (hv : p.temps.typeOf v = some t) :
    Meets p Good extra s₀ (do ((← get).program.temps.typeOf v).mapM (typeAt sub)) fun _ type =>
      ∃ t, p.temps.typeOf v = some t ∧ type = some (t.mapVars (valuation p.store sub)) := by
  intro s hs ht htyped
  obtain ⟨u, s', hyields, hsteps, ht', htyped', rfl⟩ := meets_typeAt h sub t s hs ht htyped
  refine ⟨_, s', yields_bind.mpr ⟨s, s, rfl, ?_⟩, hsteps, ht', htyped', t, hv, rfl⟩
  rw [show s.program.temps.typeOf v = some t from htyped.start.temps hv]
  show Yields (typeAt sub t >>= fun u => pure (some u)) s _ s'
  exact yields_bind.mpr ⟨_, s', hyields, rfl⟩

theorem eq_of_tempsAt {θ : Nat → Ty} {vars : List Temp} {τs : List Ty} {types : List (Option Ty)}
    (hvars : TempsAt p θ vars τs)
    (htypes : List.Forall₂ (fun v type => ∃ t, p.temps.typeOf v = some t ∧
      type = some (t.mapVars θ)) vars types) : types = τs.map some := by
  induction hvars generalizing types with
  | nil =>
      cases htypes
      rfl
  | cons hv _ ih =>
      cases htypes with
      | cons htype hrest =>
          obtain ⟨t, ht, hread⟩ := hv
          obtain ⟨t', ht', rfl⟩ := htype
          obtain rfl : t = t' := Option.some.inj (ht.symm.trans ht')
          rw [List.map_cons, hread, ih hrest]

/-- New temporaries are made at the types that are recorded for the old ones. -/
theorem meets_temps (h : Complete p) {vars : List Temp} {τs : List Ty}
    (hvars : TempsAt p (valuation p.store sub) vars τs) (hclosed : ∀ τ ∈ τs, τ.Closed 0)
    (henv : env.Typed p s₀ (valuation p.store sub) scope) :
    Meets p Good extra s₀ (temps sub env vars) fun s r =>
      r.2.Typed p s (valuation p.store sub) (vars ++ scope) ∧
      ArgsHave (s.context p) (r.1.map .temp) τs := by
  have htypes : Meets p Good extra s₀ (vars.mapM fun v => do
      ((← get).program.temps.typeOf v).mapM (typeAt sub)) fun _ types => types = τs.map some := by
    refine (Meets.mapM (C := fun _ v type => ∃ t, p.temps.typeOf v = some t ∧
      type = some (t.mapVars (valuation p.store sub))) (fun {_ _ _ _} _ hC => hC)
      fun v hv _ _ => ?_).imp fun _ types htypes => ?_
    · obtain ⟨n, hlt, rfl⟩ := List.mem_iff_getElem.mp hv
      obtain ⟨t, ht, -⟩ := hvars.get hlt (hvars.length_eq ▸ hlt)
      exact meets_recorded h ht
    · exact eq_of_tempsAt hvars htypes
  refine htypes.bind fun types s₁ hs₁ htypes => ?_
  intro s hs ht htyped
  let s' : State := { s with program := (s.program.freshTemps types).2 }
  let vs := (s.program.freshTemps types).1
  have hyields : Yields (do
      let st ← get
      set { st with program := (st.program.freshTemps types).2 }
      let ws := (st.program.freshTemps types).1
      return (ws, (vars.zip ws).reverse ++ env) : MonoM (List Temp × Renames)) s
      (vs, env.extend vars vs) s' := rfl
  have hwidens : Widens s s' :=
    ⟨rfl, TempTypes.typeOf_freshAll, fun hx => hx, fun _ hx => hx, fun {_ d} hd => ⟨d, hd, .refl _⟩⟩
  obtain ⟨hsteps, htyped'⟩ := htyped.record hwidens rfl rfl rfl rfl htyped.prims
  have hvs : List.Forall₂ (fun u τ => s'.program.temps.typeOf u = some τ) vs τs := by
    have hnew := s.program.temps.forall₂_freshAll types
    exact List.forall₂_map_right_iff.mp (htypes ▸ hnew)
  refine ⟨_, s', hyields, hsteps, ht.congr rfl rfl rfl rfl rfl, htyped', ?_, ?_⟩
  · exact (henv.widen ((hs₁.trans hs).trans hsteps).widens).extend hvars hvs hclosed
  · exact argsHave_of_typeOf hvs hclosed

theorem meets_atom (h : Complete p) (hsub : ClosedSubst sub) {a : Atom} {τ : Ty}
    (ha : AtomHas (workingAt p Good (valuation p.store sub)) a τ)
    (hscope : ∀ t, a = .temp t → t ∈ scope)
    (henv : env.Typed p s₀ (valuation p.store sub) scope) :
    Meets p Good extra s₀ (atom sub env a) fun s a' => AtomHas (s.context p) a' τ := by
  have hθ := assigns_valuation h.regular hsub
  obtain ⟨t, ht, rfl, huse⟩ := ha
  cases a with
  | temp v =>
      obtain ⟨u, hu⟩ := henv.covers v (hscope v rfl)
      have hread : atom sub env (.temp v) = pure (.temp u) := by
        rw [atom, hu]
      rw [hread]
      refine .pure fun s hs => ⟨_, ?_, rfl, fun _ _ _ heq => (nomatch heq)⟩
      obtain ⟨htype, hclosed⟩ := (henv.widen hs.widens).typed (mem_of_lookup hu) ht
      exact Option.filter_eq_some_iff.mpr ⟨htype, (Ty.isGround_iff_closed _).mpr hclosed⟩
  | lit l =>
      have hclosed : t.Closed 0 := by
        cases l <;> cases ht <;> exact Ty.closed_con 0 _
      refine .pure fun s _ => ⟨t, ?_, (hclosed.mapVars _).symm, fun _ _ _ heq => (nomatch heq)⟩
      refine Option.filter_eq_some_iff.mpr ⟨?_, (Ty.isGround_iff_closed t).mpr hclosed⟩
      cases l <;> exact ht
  | top id index site =>
      intro s hs htracks htyped
      obtain ⟨inst, s', htypeAt, hsteps', htracks', htyped', rfl⟩ :=
        meets_typeAt h sub t s hs htracks htyped
      obtain ⟨⟨id', index'⟩, s₁, htopRef, hsteps₁, htracks₁, htyped₁, htop⟩ :=
        meets_topRef h hθ (huse id index site rfl) s' (hs.trans hsteps') htracks' htyped'
      dsimp only at htop
      let s₂ : State := { s₁ with
        program := (s₁.program.freshSite (some (t.mapVars (valuation p.store sub)))).2 }
      have hwidens : Widens s₁ s₂ := by
        refine ⟨rfl, fun ht => ht, fun {x τ} hx => ?_, fun _ hx => hx, fun {_ d} hd => ⟨d, hd, .refl _⟩⟩
        have hsite := getElem?_push_of_some (Option.join_eq_some_iff.mp hx)
          (some (t.mapVars (valuation p.store sub)))
        exact Option.join_eq_some_iff.mpr hsite
      obtain ⟨hsteps₂, htyped₂⟩ := htyped₁.record hwidens rfl rfl rfl rfl htyped₁.prims
      refine ⟨.top id' index' s₁.program.sites.size, s₂, yields_bind.mpr ⟨s, s, rfl, ?_⟩,
        hsteps'.trans (hsteps₁.trans hsteps₂), htracks₁.congr rfl rfl rfl rfl rfl, htyped₂, ?_⟩
      · rw [show (s.program.sites[site]?).join = some t from htyped.start.sites ht]
        refine yields_bind.mpr ⟨some (t.mapVars (valuation p.store sub)), s', ?_, ?_⟩
        · show Yields (typeAt sub t >>= fun u => pure (some u)) s _ s'
          exact yields_bind.mpr ⟨_, s', htypeAt, rfl⟩
        · exact yields_bind.mpr ⟨(id', index'), s₁, htopRef, rfl⟩
      · refine ⟨t.mapVars (valuation p.store sub), ?_, rfl, ?_⟩
        · refine Option.filter_eq_some_iff.mpr
            ⟨?_, (Ty.isGround_iff_closed _).mpr htop.1⟩
          show ((s₁.program.sites.push _)[s₁.program.sites.size]?).join = _
          rw [Array.getElem?_push_size]
          rfl
        · intro _ _ _ heq
          cases heq
          exact hwidens.context.top _ _ _ htop

theorem meets_atoms (h : Complete p) (hsub : ClosedSubst sub) {as : List Atom} {τs : List Ty}
    (has : ArgsHave (workingAt p Good (valuation p.store sub)) as τs)
    (hscope : InScope scope as)
    (henv : env.Typed p s₀ (valuation p.store sub) scope) :
    Meets p Good extra s₀ (as.mapM (atom sub env)) fun s as' => ArgsHave (s.context p) as' τs := by
  induction has generalizing s₀ with
  | nil =>
      rw [List.mapM_nil]
      exact .pure fun _ _ => .nil
  | cons ha _ ih =>
      rw [List.mapM_cons]
      refine (meets_atom h hsub ha (fun t ht => hscope t (ht ▸ .head _)) henv).bind
        fun a' s₁ hs₁ ha' => ?_
      refine (ih (fun t ht => hscope t (.tail _ ht)) (henv.widen hs₁.widens)).bind
        fun as' s₂ hs₂ has' => ?_
      exact .pure fun s hs => .cons (ha'.mono (hs₂.trans hs).widens.context)
        (has'.mono hs.widens.context)

theorem meets_call (h : Complete p) (hsub : ClosedSubst sub) {c : BlockCall} {τ : Ty}
    (hc : CallHas (workingAt p Good (valuation p.store sub)) c τ) (hscope : InScope scope c.args)
    (henv : env.Typed p s₀ (valuation p.store sub) scope) :
    Meets p Good extra s₀ (call sub env c) fun s c' => CallHas (s.context p) c' τ := by
  have hθ := assigns_valuation h.regular hsub
  cases hc with
  | mk huse hdom hargs =>
      refine (meets_blockTypeAt h _).bind fun inst s₁ hs₁ hinst => ?_
      subst hinst
      refine (meets_block h hθ huse).bind fun j s₂ hs₂ hblock => ?_
      refine (meets_atoms h hsub hargs hscope (henv.widen (hs₁.trans hs₂).widens)).bind
        fun args s₃ hs₃ hargs' => .pure fun s hs => ?_
      exact .mk ((hs₃.trans hs).widens.context.block _ _ hblock) hdom
        (hargs'.mono hs.widens.context)

/-- A constructor is used at closed types. -/
theorem cfun_reading {θ : Nat → Ty} {s : State} (hθ : Assigns p.store θ) {k : Cfun}
    {inst : AllocType} (huse : (workingAt p Good θ).cfun k inst) :
    (s.context p).cfun k (inst.mapTypes (Ty.mapVars θ)) := by
  obtain ⟨-, hinst⟩ : ClosedUnder k.type.kinds.length k.type.parts ∧
    p.store.IsInstance k.type.kinds k.type.parts inst.parts := huse
  refine ⟨final_alloc hinst.fits hθ, ?_⟩
  rw [AllocType.parts_mapTypes]
  exact isInstance_reading hinst hθ

theorem meets_tail (h : Complete p) (hsub : ClosedSubst sub) {t : Tail} {τ : Ty}
    (ht : TailHas (workingAt p Good (valuation p.store sub)) t τ)
    (hformed : t.Formed p.env p.prims scope)
    (henv : env.Typed p s₀ (valuation p.store sub) scope) :
    Meets p Good extra s₀ (tail sub env t) fun s t' => TailHas (s.context p) t' τ := by
  have hθ := assigns_valuation h.regular hsub
  have hscope := hformed.scope
  cases ht with
  | ret hargs =>
      exact (meets_atoms h hsub hargs hscope henv).bind fun args _ _ hargs' =>
        .pure fun s hs => .ret (hargs'.mono hs.widens.context)
  | call hcall =>
      exact (meets_call h hsub hcall hscope henv).bind fun c _ _ hcall' =>
        .pure fun s hs => .call (hcall'.mono hs.widens.context)
  | prim huse hdom hargs =>
      refine (meets_blockTypeAt h _).bind fun inst s₁ hs₁ hinst => ?_
      subst hinst
      refine (meets_prim hθ hformed.named.2 huse).bind fun g s₂ hs₂ hprim => ?_
      refine (meets_atoms h hsub hargs hscope (henv.widen (hs₁.trans hs₂).widens)).bind
        fun args s₃ hs₃ hargs' => .pure fun s hs => ?_
      exact .prim hprim hdom (hargs'.mono hs.widens.context)
  | alloc huse hargs =>
      refine (meets_allocTypeAt h _).bind fun inst s₁ hs₁ hinst => ?_
      subst hinst
      refine (meets_closure h hθ huse).bind fun j s₂ hs₂ hclosure => ?_
      refine (meets_atoms h hsub hargs hscope (henv.widen (hs₁.trans hs₂).widens)).bind
        fun args s₃ hs₃ hargs' => .pure fun s hs => ?_
      refine .alloc ((hs₃.trans hs).widens.context.closure _ _ hclosure) ?_
      exact (List.map_id (List.map (Ty.mapVars _) _)).symm ▸ hargs'.mono hs.widens.context
  | data huse hargs =>
      refine (meets_atoms h hsub hargs hscope henv).bind fun args s₁ hs₁ hargs' => ?_
      refine (meets_allocTypeAt h _).bind fun inst s₂ hs₂ hinst => .pure fun s hs => ?_
      subst hinst
      refine .data (cfun_reading hθ huse) ?_
      exact (List.map_id (List.map (Ty.mapVars _) _)).symm ▸
        hargs'.mono (hs₂.trans hs).widens.context
  | enter hfn hargs =>
      refine (meets_atom h hsub hfn (fun t ht => hscope t (ht ▸ .head _)) henv).bind
        fun fn s₁ hs₁ hfn' => ?_
      refine (meets_atoms h hsub hargs (fun t ht => hscope t (.tail _ ht))
        (henv.widen hs₁.widens)).bind fun args s₂ hs₂ hargs' => .pure fun s hs => ?_
      exact .enter (hfn'.mono (hs₂.trans hs).widens.context) (hargs'.mono hs.widens.context)
  | sel huse hfield hstored harg =>
      refine (meets_atom h hsub harg (fun t ht => hscope t (ht ▸ .head _)) henv).bind
        fun arg s₁ hs₁ harg' => ?_
      refine (meets_allocTypeAt h _).bind fun inst s₂ hs₂ hinst => .pure fun s hs => ?_
      subst hinst
      refine .sel (cfun_reading hθ huse) hfield ?_ (harg'.mono (hs₂.trans hs).widens.context)
      exact (List.getElem?_map ..).trans (congrArg (Option.map _) hstored)

/-- A body is copied with its derivation. -/
theorem meets_code (h : Complete p) (hsub : ClosedSubst sub) {c : Code} {τ : Ty}
    (hc : CodeHas (workingAt p Good (valuation p.store sub)) c τ)
    (hformed : c.Formed p.env p.prims scope)
    (henv : env.Typed p s₀ (valuation p.store sub) scope) :
    Meets p Good extra s₀ (code sub env c) fun s c' => CodeHas (s.context p) c' τ := by
  have hθ := assigns_valuation h.regular hsub
  induction hc generalizing env scope s₀ with
  | bind htail hvars _ ih =>
      rw [code]
      refine (meets_tail h hsub htail hformed.1 henv).bind fun t' s₁ hs₁ htail' => ?_
      have hclosed := Ty.closed_tuple.mp (closed_of_tailHas htail')
      refine (meets_temps h (tempsAt_of_argsHave hvars) hclosed (henv.widen hs₁.widens)).bind
        fun r s₂ hs₂ hr => ?_
      obtain ⟨vs, env'⟩ := r
      refine (ih hformed.2 hr.1).bind fun next' s₃ hs₃ hnext => .pure fun s hs => ?_
      exact .bind (htail'.mono ((hs₂.trans hs₃).trans hs).widens.context)
        (hr.2.mono (hs₃.trans hs).widens.context) (hnext.mono hs.widens.context)
  | done htail =>
      rw [code]
      exact (meets_tail h hsub htail hformed henv).bind fun t' s₁ _ htail' =>
        .pure fun s hs => .done (htail'.mono hs.widens.context)
  | @branch cond t f τ hcond ht hf =>
      rw [code]
      have hscope : InScope scope (cond :: t.args ++ f.args) := hformed
      refine (meets_atom h hsub hcond (fun v hv => hscope v ?_) henv).bind fun cond' s₁ hs₁ hcond' => ?_
      · exact hv ▸ .head _
      refine (meets_call h hsub ht (fun v hv => hscope v ?_) (henv.widen hs₁.widens)).bind
        fun t' s₂ hs₂ ht' => ?_
      · exact .tail _ (List.mem_append_left _ hv)
      refine (meets_call h hsub hf (fun v hv => hscope v ?_)
        (henv.widen (hs₁.trans hs₂).widens)).bind fun f' s₃ hs₃ hf' => .pure fun s hs => ?_
      · exact List.mem_append_right _ hv
      exact .branch (hcond'.mono ((hs₂.trans hs₃).trans hs).widens.context)
        (ht'.mono (hs₃.trans hs).widens.context) (hf'.mono hs.widens.context)
  | @case scrut alts default σ τ hscrut halts hdefault =>
      rw [code]
      have hscope := hformed.1
      have hcalls {c : BlockCall} (hc : c ∈ (Code.case scrut alts default).calls) :
          InScope scope c.args := fun v hv =>
        hscope v (.tail _ (List.mem_flatMap.mpr ⟨c, hc, hv⟩))
      have hmap : Meets p Good extra s₀ (alts.mapM fun a => return (a.1, ← call sub env a.2))
          fun s alts' => List.Forall₂ (fun _ alt => (∃ inst, (s.context p).cfun alt.1 inst ∧
            inst.result = σ) ∧ CallHas (s.context p) alt.2 τ) alts alts' := by
        refine .mapM (fun hs hC => ⟨hC.1, hC.2.mono hs.widens.context⟩) fun alt halt s₁ hs₁ => ?_
        obtain ⟨⟨inst, huse, hresult⟩, hcall⟩ := halts alt halt
        refine (meets_call h hsub hcall (hcalls (List.mem_append_left _ (List.mem_map_of_mem halt)))
          (henv.widen hs₁.widens)).bind fun c' s₂ hs₂ hcall' => .pure fun s hs => ?_
        exact ⟨⟨_, cfun_reading hθ huse, hresult⟩, hcall'.mono hs.widens.context⟩
      refine hmap.bind fun alts' s₁ hs₁ halts' => ?_
      refine (meets_atom h hsub hscrut (fun v hv => hscope v (hv ▸ .head _))
        (henv.widen hs₁.widens)).bind fun scrut' s₂ hs₂ hscrut' => ?_
      refine (Meets.optionMapM (C := fun s _ c' => CallHas (s.context p) c' τ)
        (fun hs hC => hC.mono hs.widens.context) fun c hc => meets_call h hsub (hdefault c hc)
          (hcalls (List.mem_append_right _ (Option.mem_toList.mpr hc)))
          (henv.widen (hs₁.trans hs₂).widens)).bind fun default' s₃ hs₃ hdefault' =>
        .pure fun s hs => ?_
      refine .case (hscrut'.mono (hs₃.trans hs).widens.context) (fun alt halt => ?_) fun c hc => ?_
      · obtain ⟨n, hlt, rfl⟩ := List.mem_iff_getElem.mp halt
        obtain ⟨hcfun, hcall⟩ := halts'.get (halts'.length_eq ▸ hlt) hlt
        exact ⟨hcfun, hcall.mono ((hs₂.trans hs₃).trans hs).widens.context⟩
      · subst hc
        cases hdefault' with
        | some hcall => exact hcall.mono hs.widens.context

end Bodies

/-! ### Definitions -/

section Definitions

variable {p : Program} {Good : DefnId → (Nat → Ty) → Prop} {s : State} {q : Pending} {d d' : Defn}

/-- The declared type of a finished block is the one it was asked for. -/
theorem meets_blockOwn (h : Complete p) {extra : List Pending} {s₀ : State}
    {declared present : Option BlockType} {type : BlockType} (hfinal : type.Final)
    (hpresent : present = some type) (hown : q.source = q.clone → declared = some type) :
    Meets p Good extra s₀ (ownType q present (blockTypeAt q.subst declared)) fun _ r =>
      r = some type := by
  unfold ownType
  split
  · rename_i heq
    rw [hown heq]
    refine (meets_blockTypeAt h type).bind fun inst _ _ hinst => .pure fun _ _ => ?_
    rw [hinst]
    refine congrArg some (BlockType.eq_of_parts hfinal.kinds.symm ?_)
    exact (List.map_congr_left fun t ht => (hfinal.closed t ht).mapVars _).trans (List.map_id' _)
  · exact .pure fun _ _ => hpresent

/-- What is known when a request is taken up. -/
structure Due (p : Program) (Good : DefnId → (Nat → Ty) → Prop) (s : State) (q : Pending)
    (d d' : Defn) : Prop where
  tracks : Tracks p [q] s
  typed : Typed p Good [q] s
  origin : p.defns[q.source]? = some d
  source : s.program.defns[q.source]? = some d
  clone : s.program.defns[q.clone]? = some d'
  subst : ClosedSubst q.subst
  head : HeadAt (valuation p.store q.subst) d.body d'.body
  derivation : DefnHas (workingAt p Good (valuation p.store q.subst)) d.body

/-- A definition that is used as it is, is its own copy. -/
theorem Due.eq_of_own (h : Due p Good s q d d') (heq : q.source = q.clone) : d = d' := by
  have hclone := h.clone
  rw [← heq, h.source] at hclone
  exact Option.some.inj hclone

/-- The finished definition is put in its place. -/
theorem Due.finish (h : Due p Good s q d d') {s₁ : State} (body : DefnBody) (hsteps : Steps p s s₁)
    (htyped : Typed p Good [q] s₁) (hsame : SameHead d'.body body) (hfinished : Finished body)
    (hhas : DefnHas (s₁.context p) body) :
    ∃ s', Yields (setBody q.clone body) s₁ () s' ∧ Steps p s s' ∧ Typed p Good [] s' := by
  obtain ⟨d₁, hd₁, hsame₁⟩ := hsteps.widens.heads h.clone
  obtain ⟨hsteps', htyped'⟩ := htyped.meet hd₁ (hsame₁.symm.trans hsame) hfinished hhas
  exact ⟨_, rfl, hsteps.trans hsteps', htyped'⟩

theorem fill_block (h : Complete p) (hp : Prepared p) (hdue : Due p Good s q d d') {o : Block}
    (hbody : d.body = .block o) :
    ∃ s', Yields (fill q) s () s' ∧ Steps p s s' ∧ Typed p Good [] s' := by
  have hθ := assigns_valuation h.regular hdue.subst
  have hformed := hp.formed hdue.origin
  have hhead := hdue.head
  have hhas := hdue.derivation
  obtain ⟨type, hworking, -, hq⟩ := quantifies_block h hdue.origin hbody
  have hfinal := final_block hq.fits hθ
  rw [hbody] at hhead hhas hformed
  generalize hbody' : d'.body = body' at hhead
  cases hhead with
  | @block _ c _ hworking' hdeclared =>
  obtain rfl : type = _ := Option.some.inj (hworking.symm.trans hworking')
  cases hhas with
  | @block _ _ code τs hworking' hcode hdom hparams hhas =>
  obtain rfl : type = _ := Option.some.inj (hworking.symm.trans hworking')
  generalize htype :
    type.mapTypes (Ty.mapVars (valuation p.store q.subst)) = asked at hfinal hdeclared
  have hdom : asked.dom = .tuple τs := htype ▸ hdom
  have hrng : CodeHas (workingAt p Good (valuation p.store q.subst)) code asked.rng := htype ▸ hhas
  have hclosed : ∀ τ ∈ τs, τ.Closed 0 := by
    refine Ty.closed_tuple.mp ?_
    rw [← hdom]
    exact hfinal.closed _ (.head _)
  obtain ⟨⟨params, env⟩, s₁, htemps, hs₁, ht₁, htyped₁, henv, hparams'⟩ :=
    meets_temps h (tempsAt_of_argsHave hparams) hclosed Renames.typed_nil s (.refl p s) hdue.tracks
      hdue.typed
  rw [List.append_nil] at henv
  obtain ⟨code', s₂, hcodeAt, hs₂, ht₂, htyped₂, hcode'⟩ :=
    meets_code h hdue.subst hrng (hformed code hcode) henv s₁ (.refl p s₁) ht₁ htyped₁
  have hown (heq : q.source = q.clone) : o.declared = some asked := by
    rw [← hdue.eq_of_own heq, hbody] at hbody'
    cases hbody'
    exact hdeclared
  obtain ⟨declared, s₃, hownAt, hs₃, ht₃, htyped₃, rfl⟩ :=
    meets_blockOwn h hfinal hdeclared hown s₂ (.refl p s₂) ht₂ htyped₂
  obtain ⟨s₄, hset, hs₄, htyped₄⟩ := hdue.finish (.block { c with
      params, body := some code', declared := some asked, defining := some asked, generics := [] })
    (hs₁.trans (hs₂.trans hs₃)) htyped₃ (hbody' ▸ .block hdeclared.symm) ⟨rfl, rfl⟩
    (.block rfl rfl hdom (hparams'.mono (hs₂.trans hs₃).widens.context)
      (hcode'.mono hs₃.widens.context))
  refine ⟨s₄, ?_, hs₄, htyped₄⟩
  refine yields_bind.mpr ⟨d, s, definition_yields hdue.source, ?_⟩
  refine yields_bind.mpr ⟨d', s, definition_yields hdue.clone, ?_⟩
  rw [hbody, hbody']
  refine yields_bind.mpr ⟨_, s₁, htemps, ?_⟩
  dsimp only
  rw [hcode]
  exact yields_bind.mpr ⟨code', s₂, hcodeAt, yields_bind.mpr ⟨_, s₃, hownAt, hset⟩⟩

/-- The declared type of a finished closure is the one it was asked for. -/
theorem meets_allocOwn (h : Complete p) {extra : List Pending} {s₀ : State}
    {declared present : Option AllocType} {type : AllocType} (hfinal : type.Final)
    (hpresent : present = some type) (hown : q.source = q.clone → declared = some type) :
    Meets p Good extra s₀ (ownType q present (allocTypeAt q.subst declared)) fun _ r =>
      r = some type := by
  unfold ownType
  split
  · rename_i heq
    rw [hown heq]
    refine (meets_allocTypeAt h type).bind fun inst _ _ hinst => .pure fun _ _ => ?_
    rw [hinst]
    refine congrArg some (AllocType.eq_of_parts hfinal.kinds.symm ?_)
    rw [AllocType.parts_mapTypes]
    exact (List.map_congr_left fun t ht => (hfinal.closed t ht).mapVars _).trans (List.map_id' _)
  · exact .pure fun _ _ => hpresent

theorem fill_closure (h : Complete p) (hp : Prepared p) (hdue : Due p Good s q d d') {o : Closure}
    (hbody : d.body = .closure o) :
    ∃ s', Yields (fill q) s () s' ∧ Steps p s s' ∧ Typed p Good [] s' := by
  have hθ := assigns_valuation h.regular hdue.subst
  have hformed := hp.formed hdue.origin
  have hhead := hdue.head
  have hhas := hdue.derivation
  obtain ⟨type, hworking, -, hq⟩ := quantifies_closure h hdue.origin hbody
  have hfinal := final_alloc hq.fits hθ
  rw [hbody] at hhead hhas hformed
  generalize hbody' : d'.body = body' at hhead
  cases hhead with
  | @closure _ c _ hworking' hdeclared =>
  obtain rfl : type = _ := Option.some.inj (hworking.symm.trans hworking')
  cases hhas with
  | @closure _ _ t τs τ hworking' htail hresult hparams hargs hhas =>
  obtain rfl : type = _ := Option.some.inj (hworking.symm.trans hworking')
  generalize htype :
    type.mapTypes (Ty.mapVars (valuation p.store q.subst)) = asked at hfinal hdeclared
  have hresult : asked.result = .func (.tuple τs) τ := htype ▸ hresult
  have hparams : ArgsHave (workingAt p Good (valuation p.store q.subst)) (o.params.map .temp)
      asked.stored := htype ▸ hparams
  have hstored : ∀ τ ∈ asked.stored, τ.Closed 0 :=
    fun τ hτ => hfinal.closed τ (List.mem_append_left _ hτ)
  have hclosed : ∀ τ ∈ τs, τ.Closed 0 := by
    have hfunc := hfinal.closed _ (List.mem_append_right _ (.head _))
    rw [hresult] at hfunc
    exact Ty.closed_tuple.mp (Ty.closed_ap.mp (Ty.closed_ap.mp hfunc).1).2
  obtain ⟨⟨params, env⟩, s₁, htemps, hs₁, ht₁, htyped₁, henv, hparams'⟩ :=
    meets_temps h (tempsAt_of_argsHave hparams) hstored Renames.typed_nil s (.refl p s) hdue.tracks
      hdue.typed
  obtain ⟨⟨args, env'⟩, s₂, htemps', hs₂, ht₂, htyped₂, henv', hargs'⟩ :=
    meets_temps h (tempsAt_of_argsHave hargs) hclosed henv s₁ (.refl p s₁) ht₁ htyped₁
  have hscope : o.params ++ o.args ⊆ o.args ++ (o.params ++ []) := by
    intro v hv
    simpa [or_comm] using hv
  obtain ⟨t', s₃, htailAt, hs₃, ht₃, htyped₃, htail'⟩ :=
    meets_tail h hdue.subst hhas ⟨(hformed t htail).scope.mono hscope, (hformed t htail).named⟩
      henv' s₂ (.refl p s₂) ht₂ htyped₂
  have hown (heq : q.source = q.clone) : o.declared = some asked := by
    rw [← hdue.eq_of_own heq, hbody] at hbody'
    cases hbody'
    exact hdeclared
  obtain ⟨declared, s₄, hownAt, hs₄, ht₄, htyped₄, rfl⟩ :=
    meets_allocOwn h hfinal hdeclared hown s₃ (.refl p s₃) ht₃ htyped₃
  obtain ⟨s₅, hset, hs₅, htyped₅⟩ := hdue.finish (.closure { c with
      params, args, tail := some t', declared := some asked, defining := some asked, generics := [] })
    (hs₁.trans (hs₂.trans (hs₃.trans hs₄))) htyped₄ (hbody' ▸ .closure hdeclared.symm) ⟨rfl, rfl⟩
    (.closure rfl rfl hresult
      ((List.map_id asked.stored).symm ▸
        hparams'.mono ((hs₂.trans hs₃).trans hs₄).widens.context)
      (hargs'.mono (hs₃.trans hs₄).widens.context) (htail'.mono hs₄.widens.context))
  refine ⟨s₅, ?_, hs₅, htyped₅⟩
  refine yields_bind.mpr ⟨d, s, definition_yields hdue.source, ?_⟩
  refine yields_bind.mpr ⟨d', s, definition_yields hdue.clone, ?_⟩
  rw [hbody, hbody']
  refine yields_bind.mpr ⟨_, s₁, htemps, yields_bind.mpr ⟨_, s₂, htemps', ?_⟩⟩
  dsimp only
  rw [htail]
  exact yields_bind.mpr ⟨t', s₃, htailAt, yields_bind.mpr ⟨_, s₄, hownAt, hset⟩⟩

/-- A name of a finished definition has the declared type of the name that it stands for. -/
structure Named (l l' : TopName) : Prop where
  declared : l'.declared = l.declared
  generics : l'.generics = []
  defining : l'.defining = l'.declared.map Scheme.type

theorem declared_of_named {names names' : List TopName} (h : List.Forall₂ Named names names') :
    names'.map TopName.declared = names.map TopName.declared ∧
      ∀ l ∈ names', l.generics = [] ∧ l.defining = l.declared.map Scheme.type := by
  induction h with
  | nil => exact ⟨rfl, fun _ hl => (nomatch hl)⟩
  | cons hname _ ih =>
      refine ⟨by rw [List.map_cons, List.map_cons, hname.declared, ih.1], fun l hl => ?_⟩
      rcases List.mem_cons.mp hl with rfl | hl
      · exact ⟨hname.generics, hname.defining⟩
      · exact ih.2 l hl

/-- The names of a finished top-level definition have the types they were asked for. -/
theorem meets_names (h : Complete p) {extra : List Pending} {s₀ : State} {names : List TopName}
    (hown : q.source = q.clone → ∀ l ∈ names, l.declared =
      l.defining.map fun t => .mono (t.mapVars (valuation p.store q.subst))) :
    Meets p Good extra s₀ (names.mapM fun l => do
      let own ← l.defining.mapM (typeAt q.subst)
      let declared := if q.source = q.clone then own.map .mono else l.declared
      return { l with declared, defining := declared.map Scheme.type, generics := [] })
      fun _ names' => List.Forall₂ Named names names' := by
  refine .mapM (fun _ hC => hC) fun l hl s₁ _ => ?_
  have hmap : Meets p Good extra s₁ (l.defining.mapM (typeAt q.subst)) fun _ own =>
      Option.Rel (fun t u => u = t.mapVars (valuation p.store q.subst)) l.defining own :=
    .optionMapM (fun _ hu => hu) fun t _ => meets_typeAt h q.subst t
  refine hmap.bind fun own _ _ hrel => .pure fun _ _ => ⟨?_, rfl, rfl⟩
  dsimp only
  split
  · rename_i heq
    rw [hown heq l hl]
    generalize l.defining = o at hrel
    cases hrel with
    | none => rfl
    | some hu => rw [hu]; rfl
  · rfl

theorem fill_top (h : Complete p) (hp : Prepared p) (hdue : Due p Good s q d d') {o : TopLevel}
    (hbody : d.body = .top o) :
    ∃ s', Yields (fill q) s () s' ∧ Steps p s s' ∧ Typed p Good [] s' := by
  have hformed := hp.formed hdue.origin
  have hhead := hdue.head
  have hhas := hdue.derivation
  rw [hbody] at hhead hhas hformed
  generalize hbody' : d'.body = body' at hhead
  cases hhead with
  | @top _ c types hworking hdeclared =>
  cases hhas with
  | @top _ types' t hworking' htail hhas =>
  obtain rfl : types = types' := by
    exact List.map_injective_iff.mpr (Option.some_injective Ty) (hworking.symm.trans hworking')
  obtain ⟨t', s₁, htailAt, hs₁, ht₁, htyped₁, htail'⟩ :=
    meets_tail h hdue.subst hhas (hformed t htail) Renames.typed_nil s (.refl p s) hdue.tracks
      hdue.typed
  have hown (heq : q.source = q.clone) : ∀ l ∈ c.lhs, l.declared =
      l.defining.map fun t => .mono (t.mapVars (valuation p.store q.subst)) := by
    rw [← hdue.eq_of_own heq, hbody] at hbody'
    cases hbody'
    refine List.map_inj_left.mp (hdeclared.trans ?_)
    exact ((map_of_map_eq (Option.map _) hworking).trans List.map_map).symm
  obtain ⟨lhs, s₂, hnamesAt, hs₂, ht₂, htyped₂, hnames⟩ :=
    meets_names h hown s₁ (.refl p s₁) ht₁ htyped₁
  obtain ⟨hsame, hfinished⟩ := declared_of_named hnames
  have htypes : lhs.map TopName.defining =
      (types.map (Ty.mapVars (valuation p.store q.subst))).map some := by
    rw [List.map_congr_left fun l hl => (hfinished l hl).2,
      map_of_map_eq (Option.map Scheme.type) (hsame.trans hdeclared), List.map_map, List.map_map]
    rfl
  obtain ⟨s₃, hset, hs₃, htyped₃⟩ := hdue.finish
    (.top { c with lhs, tail := some t', generics := [] }) (hs₁.trans hs₂) htyped₂
    (hbody' ▸ .top hsame) ⟨rfl, hfinished⟩
    (.top htypes rfl ((List.map_id (types.map _)).symm ▸ htail'.mono hs₂.widens.context))
  refine ⟨s₃, ?_, hs₃, htyped₃⟩
  refine yields_bind.mpr ⟨d, s, definition_yields hdue.source, ?_⟩
  refine yields_bind.mpr ⟨d', s, definition_yields hdue.clone, ?_⟩
  rw [hbody, hbody']
  dsimp only
  rw [htail]
  exact yields_bind.mpr ⟨t', s₁, htailAt, yields_bind.mpr ⟨lhs, s₂, hnamesAt, hset⟩⟩

/-- Every request is met, and the definition that meets it is finished. -/
theorem fill_meets (h : Complete p) (hp : Prepared p) (hfollowed : Followed p Good)
    (ht : Tracks p [q] s) (htyped : Typed p Good [q] s) :
    ∃ s', Yields (fill q) s () s' ∧ Steps p s s' ∧ Tracks p [] s' ∧ Typed p Good [] s' := by
  obtain ⟨d, d', hd, hd', hsub, hgood, hhead⟩ := htyped.requests (.head _)
  obtain ⟨d₀, hd₀, hsource⟩ := ht.request_source (.head _)
  obtain rfl : d₀ = d := Option.some.inj (hd₀.symm.trans hd)
  have hdue : Due p Good s q d₀ d' := ⟨ht, htyped, hd, hsource, hd', hsub, hhead,
    hfollowed hd (assigns_valuation h.regular hsub) hgood⟩
  obtain ⟨s', hyields, hsteps, htyped'⟩ :
      ∃ s', Yields (fill q) s () s' ∧ Steps p s s' ∧ Typed p Good [] s' := by
    cases hb : d₀.body with
    | block o => exact fill_block h hp hdue hb
    | closure o => exact fill_closure h hp hdue hb
    | top o => exact fill_top h hp hdue hb
    | external e =>
        rw [hb] at hhead
        cases hhead
  exact ⟨s', hyields, hsteps, (fill_spec hp ht hyields).2, htyped'⟩

end Definitions

/-! ### Runs -/

section Runs

variable {p : Program} {Good : DefnId → (Nat → Ty) → Prop} {s s' : State}

theorem yields_unique {α : Type} {x : MonoM α} {a b : α} {s₁ s₂ : State} (h : Yields x s a s₁)
    (h' : Yields x s b s₂) : s₁ = s₂ := by
  unfold Yields at h h'
  rw [h] at h'
  cases h'
  rfl

/-- A run keeps true what specialisation keeps true of types. -/
theorem run_typed (h : Complete p) (hp : Prepared p) (hfollowed : Followed p Good) {fuel : Nat}
    (ht : Tracks p [] s) (htyped : Typed p Good [] s) (hy : Yields (run fuel) s () s') :
    Typed p Good [] s' := by
  induction fuel generalizing s with
  | zero =>
      rw [run, yields_bind] at hy
      obtain ⟨q, s₁, hget, hy⟩ := hy
      obtain ⟨rfl, rfl⟩ := yields_get.mp hget
      split at hy
      · exact absurd hy not_yields_throw
      · obtain ⟨-, rfl⟩ := yields_pure.mp hy
        exact htyped
  | succ fuel ih =>
      rw [run, yields_bind] at hy
      obtain ⟨q, s₁, hget, hy⟩ := hy
      obtain ⟨rfl, rfl⟩ := yields_get.mp hget
      split at hy
      · obtain ⟨-, rfl⟩ := yields_pure.mp hy
        exact htyped
      · rename_i q queue hqueue
        rw [yields_bind] at hy
        obtain ⟨_, s₂, hset, hy⟩ := hy
        obtain rfl := yields_set.mp hset
        rw [yields_bind] at hy
        obtain ⟨_, s₃, hfill, hy⟩ := hy
        obtain ⟨s₄, hyields, -, ht₄, htyped₄⟩ :=
          fill_meets h hp hfollowed (ht.pop hqueue) (htyped.pop hqueue)
        obtain rfl := yields_unique hfill hyields
        exact ih ht₄ htyped₄ hy

/-- A definition that can be an entrypoint. -/
def CanEnter (p : Program) (id : DefnId) : Prop :=
  ∃ d, p.defns[id]? = some d ∧ d.body.isPolymorphic = false ∧ hasCode p id = true

theorem checkEntry_yields {id : DefnId} (ht : Tracks p [] s) (htyped : Typed p Good [] s)
    (hid : CanEnter p id) : Yields (checkEntry id) s () s := by
  obtain ⟨d₀, hd₀, hmono, hcode⟩ := hid
  obtain ⟨d, hd, hsame⟩ := htyped.start.heads hd₀
  have hmono' : ¬ d.body.isPolymorphic = true := by
    rw [← (ht.polymorphic hd₀ hd).1, hmono]
    exact Bool.false_ne_true
  refine yields_bind.mpr ⟨d, s, definition_yields hd, ?_⟩
  generalize hb : d.body = body at hsame hmono'
  cases body with
  | external e =>
      generalize hb₀ : d₀.body = body₀ at hsame
      cases hsame
      rw [hasCode, hd₀, Option.map_some, hb₀] at hcode
      cases hcode
  | block b =>
      dsimp only
      rw [if_neg hmono']
      rfl
  | closure k =>
      dsimp only
      rw [if_neg hmono']
      rfl
  | top t =>
      dsimp only
      rw [if_neg hmono']
      rfl

/-- What was accepted as an entrypoint can be one. -/
theorem canEnter_of_checkEntry {id : DefnId} (hy : Yields (checkEntry id) (.start p) () s) :
    CanEnter p id := by
  rw [checkEntry, yields_bind] at hy
  obtain ⟨d, s₁, hdefn, hy⟩ := hy
  obtain ⟨hd, rfl⟩ := yields_definition hdefn
  split at hy
  · exact absurd hy not_yields_throw
  · rename_i hne
    split at hy
    · exact absurd hy not_yields_throw
    · rename_i hmono
      refine ⟨d, hd, Bool.eq_false_iff.mpr hmono, ?_⟩
      rw [hasCode, show p.defns[id]? = some d from hd, Option.map_some]
      split
      · rename_i e he
        exact absurd (Option.some.inj he) (hne e)
      · rfl

/-- Entrypoints are asked for. -/
theorem entries_typed (h : Complete p) {ids : List DefnId} (hids : ∀ id ∈ ids, CanEnter p id)
    (hgood : ∀ id ∈ ids, Good id (valuation p.store [])) (ht : Tracks p [] s)
    (htyped : Typed p Good [] s) : ∃ s', Yields (ids.forM fun id => do let _ ← entry id) s () s' ∧
      Steps p s s' ∧ Tracks p [] s' ∧ Typed p Good [] s' ∧ ∀ id ∈ ids, s'.Asked id := by
  induction ids generalizing s with
  | nil => exact ⟨s, rfl, .refl p s, ht, htyped, fun _ hid => (nomatch hid)⟩
  | cons id ids ih =>
      obtain ⟨d, hd, hmono, hcode⟩ := hids id (.head _)
      obtain ⟨j, s₁, hyields, hs₁, ht₁, htyped₁, -, hasked⟩ :=
        meets_mono h hd hmono hcode (hgood id (.head _)) s (.refl p s) ht htyped
      obtain ⟨s₂, hrest, hs₂, ht₂, htyped₂, hall⟩ := ih (fun i hi => hids i (.tail _ hi))
        (fun i hi => hgood i (.tail _ hi)) ht₁ htyped₁
      refine ⟨s₂, yields_bind.mpr ⟨(), s₁, yields_bind.mpr ⟨j, s₁, ?_, rfl⟩, hrest⟩, hs₁.trans hs₂,
        ht₂, htyped₂, fun i hi => ?_⟩
      · exact yields_bind.mpr ⟨(), s, checkEntry_yields ht htyped (hids id (.head _)), hyields⟩
      · rcases List.mem_cons.mp hi with rfl | hi
        · exact hs₂.widens.asked hasked
        · exact hall i hi

end Runs

end Mono

end Mil
