import Mil.Proofs.Mono.Request

/-!
Filling in copies. Each part of a body is copied as it should be, whatever is asked for on the way,
because what has come to serve goes on to serve. So every request that is met leaves a copy of its
source, and when the queue is empty every definition that was asked for has one.
-/

namespace Mil.Mono

/-- From any state that has grown out of `s₀`, the step keeps true what specialisation keeps true,
and what it gives is as it should be in the state that it leaves. -/
def Keeps {α : Type} (p : Program) (extra : List Pending) (s₀ : State) (x : MonoM α)
    (Q : State → α → Prop) : Prop :=
  ∀ s a s', Grows s₀ s → Tracks p extra s → Yields x s a s' →
    Grows s s' ∧ Tracks p extra s' ∧ Q s' a

section Keeps

variable {α β : Type} {p : Program} {extra : List Pending} {s₀ : State} {x : MonoM α}
  {Q : State → α → Prop} {R : State → β → Prop}

theorem Keeps.bind {f : α → MonoM β} (hx : Keeps p extra s₀ x Q)
    (hf : ∀ a s₁, Grows s₀ s₁ → Q s₁ a → Keeps p extra s₁ (f a) R) :
    Keeps p extra s₀ (x >>= f) R := by
  intro s b s' hg ht hy
  obtain ⟨a, s₁, hxa, hfb⟩ := yields_bind.mp hy
  obtain ⟨hg₁, ht₁, hQ⟩ := hx s a s₁ hg ht hxa
  obtain ⟨hg₂, ht₂, hR⟩ := hf a s₁ (hg.trans hg₁) hQ s₁ b s' (.refl _) ht₁ hfb
  exact ⟨hg₁.trans hg₂, ht₂, hR⟩

theorem Keeps.pure {a : α} (h : ∀ s, Grows s₀ s → Q s a) :
    Keeps p extra s₀ (Pure.pure a) Q := by
  intro s b s' hg ht hy
  obtain ⟨rfl, rfl⟩ := yields_pure.mp hy
  exact ⟨.refl _, ht, h s hg⟩

theorem Keeps.broken {d : Defect} : Keeps p extra s₀ (broken d) Q :=
  fun _ _ _ _ _ hy => absurd hy not_yields_broken

theorem Keeps.imp (hx : Keeps p extra s₀ x Q) {Q' : State → α → Prop}
    (h : ∀ s a, Q s a → Q' s a) : Keeps p extra s₀ x Q' := by
  intro s a s' hg ht hy
  obtain ⟨hg', ht', hQ⟩ := hx s a s' hg ht hy
  exact ⟨hg', ht', h s' a hQ⟩

theorem Keeps.mono {s₁ : State} (hx : Keeps p extra s₀ x Q) (hg : Grows s₀ s₁) :
    Keeps p extra s₁ x Q :=
  fun s a s' hg' ht hy => hx s a s' (hg.trans hg') ht hy

/-- A step that only looks at the state. -/
theorem Keeps.of_same (h : ∀ {s a s'}, Yields x s a s' → s' = s) :
    Keeps p extra s₀ x fun _ _ => True := by
  intro s a s' _ ht hy
  obtain rfl := h hy
  exact ⟨.refl _, ht, trivial⟩

theorem keeps_get : Keeps p extra s₀ get fun _ _ => True :=
  .of_same fun hy => (yields_get.mp hy).2

/-- The same step for every element of a list. -/
theorem Keeps.mapM {f : α → MonoM β} {C : State → α → β → Prop} {as : List α}
    (hC : ∀ {s s' a b}, Grows s s' → C s a b → C s' a b)
    (hf : ∀ a ∈ as, Keeps p extra s₀ (f a) fun s b => C s a b) :
    Keeps p extra s₀ (as.mapM f) fun s bs => List.Forall₂ (C s) as bs := by
  induction as generalizing s₀ with
  | nil =>
      rw [List.mapM_nil]
      exact .pure fun _ _ => .nil
  | cons a as ih =>
      rw [List.mapM_cons]
      refine (hf a (.head _)).bind fun b s₁ hg hb => ?_
      refine (ih fun a' ha' => (hf a' (.tail _ ha')).mono hg).bind fun bs s₂ hg' hbs => ?_
      refine .pure fun s hg'' => .cons (hC (hg'.trans hg'') hb) ?_
      exact hbs.imp fun _ _ h => hC hg'' h

/-- The same step for the element of an option. -/
theorem Keeps.optionMapM {f : α → MonoM β} {C : State → α → β → Prop} {o : Option α}
    (hC : ∀ {s s' a b}, Grows s s' → C s a b → C s' a b)
    (hf : ∀ a, o = some a → Keeps p extra s₀ (f a) fun s b => C s a b) :
    Keeps p extra s₀ (o.mapM f) fun s r => Option.Rel (C s) o r := by
  cases o with
  | none => exact .pure fun _ _ => .none
  | some a =>
      have hmap : (some a).mapM f = f a >>= fun b => Pure.pure (some b) := rfl
      rw [hmap]
      refine (hf a rfl).bind fun b s₁ _ hb => ?_
      exact .pure fun s hg => .some (hC hg hb)

end Keeps

/-! ### Types and temporaries -/

section Types

variable {p : Program} {extra : List Pending} {s₀ : State} {sub : TySubst}

theorem keeps_typeAt (t : Ty) : Keeps p extra s₀ (typeAt sub t) fun _ _ => True := by
  unfold typeAt
  refine (Keeps.of_same fun hy => (yields_store hy).2).bind fun _ s₁ _ _ => ?_
  exact .pure fun _ _ => trivial

theorem keeps_blockTypeAt (b : Option BlockType) :
    Keeps p extra s₀ (blockTypeAt sub b) fun _ _ => True := by
  unfold blockTypeAt
  split
  · exact .broken
  · exact (keeps_typeAt _).bind fun _ _ _ _ => (keeps_typeAt _).bind fun _ _ _ _ =>
      .pure fun _ _ => trivial

theorem keeps_allocTypeAt (a : Option AllocType) :
    Keeps p extra s₀ (allocTypeAt sub a) fun _ _ => True := by
  unfold allocTypeAt
  split
  · exact .broken
  · refine (Keeps.mapM (C := fun _ _ _ => True) (fun _ _ => trivial)
      fun t _ => keeps_typeAt t).bind fun _ _ _ _ => ?_
    exact (keeps_typeAt _).bind fun _ _ _ _ => .pure fun _ _ => trivial

/-- All temporaries that stand for others are below a bound. -/
def Renames.Below (env : Renames) (n : Nat) : Prop := ∀ u ∈ env.map Prod.snd, u < n

theorem Renames.Below.mono {env : Renames} {n m : Nat} (h : env.Below n) (hle : n ≤ m) :
    env.Below m := fun u hu => Nat.lt_of_lt_of_le (h u hu) hle

theorem Renames.below_nil (n : Nat) : Renames.Below [] n := fun _ hu => nomatch hu

theorem Renames.Below.extend {env : Renames} {n : Nat} {vars vs : List Temp} (h : env.Below n)
    (hvs : ∀ u ∈ vs, u < n) : (env.extend vars vs).Below n := by
  intro u hu
  rw [Renames.extend, List.map_append, List.mem_append, List.map_reverse, List.mem_reverse] at hu
  rcases hu with hu | hu
  · obtain ⟨⟨x, y⟩, hxy, rfl⟩ := List.mem_map.mp hu
    exact hvs y (List.of_mem_zip hxy).2
  · exact h u hu

/-- New temporaries come after all that there are. -/
theorem keeps_temps {env : Renames} (henv : env.Below s₀.program.temps.size) (vars : List Temp) :
    Keeps p extra s₀ (temps sub env vars) fun s r => r.2 = env.extend vars r.1 ∧
      r.1.length = vars.length ∧ env.Fresh r.1 ∧ r.2.Below s.program.temps.size := by
  unfold temps
  have htypes : Keeps p extra s₀ (vars.mapM fun v => do
      ((← get).program.temps.typeOf v).mapM (typeAt sub)) fun _ types =>
      types.length = vars.length := by
    refine (Keeps.mapM (C := fun _ _ _ => True) (fun _ _ => trivial) fun v _ => ?_).imp
      fun _ _ h => h.length_eq.symm
    refine keeps_get.bind fun q s₁ _ _ => ?_
    exact (Keeps.optionMapM (C := fun _ _ _ => True) (fun _ _ => trivial)
      fun t _ => keeps_typeAt t).imp fun _ _ _ => trivial
  refine htypes.bind fun types s₁ hg hlen => ?_
  intro s r s' hg' ht hy
  rw [yields_bind] at hy
  obtain ⟨q, s₂, hget, hy⟩ := hy
  obtain ⟨rfl, rfl⟩ := yields_get.mp hget
  dsimp only [Program.freshTemps] at hy
  rw [yields_bind] at hy
  obtain ⟨_, s₃, hset, hy⟩ := hy
  obtain rfl := yields_set.mp hset
  obtain ⟨rfl, rfl⟩ := yields_pure.mp hy
  obtain ⟨hsize, hvars⟩ := s₂.program.temps.freshAll_spec types
  have hle : s₀.program.temps.size ≤ s₂.program.temps.size := (hg.trans hg').temps
  have hgrow : s₂.program.temps.size ≤ (s₂.program.temps.freshAll types).2.size := by
    rw [hsize]
    exact Nat.le_add_right _ _
  refine ⟨⟨hgrow, fun x hx => hx⟩, ht.congr rfl rfl rfl rfl rfl, rfl, ?_, ⟨?_, ?_⟩, ?_⟩
  · rw [hvars, List.length_range', hlen]
  · rw [hvars]
    exact List.nodup_range'
  · intro u hu hmem
    rw [hvars, List.mem_range'_1] at hu
    exact Nat.not_lt.mpr (Nat.le_trans hle hu.1) (henv u hmem)
  · refine (henv.mono (Nat.le_trans hle hgrow)).extend fun u hu => ?_
    rw [hvars, List.mem_range'_1, ← hsize] at hu
    exact hu.2

end Types

/-! ### Bodies -/

/-- Bodies are formed and refer to definitions that there are, and no definition is replaced. -/
structure Prepared (p : Program) : Prop where
  formed : ∀ {i : DefnId} {d : Defn}, p.defns[i]? = some d → d.body.Formed p.env p.prims
  refs : ∀ {i : DefnId} {d : Defn}, p.defns[i]? = some d → ∀ r ∈ d.body.refs, r < p.defns.size
  whole : ∀ {i : DefnId} {d : Defn}, p.defns[i]? = some d → d.replacedBy = none

section Bodies

variable {p : Program} {extra : List Pending} {s₀ : State} {sub : TySubst} {env : Renames}

theorem keeps_atom {a : Atom} (ha : ∀ r, a.defn? = some r → r < p.defns.size) :
    Keeps p extra s₀ (atom sub env a) fun s a' => AtomCopy p (s.Serves p) env a a' := by
  unfold atom
  split
  · split
    · rename_i hlookup
      exact .pure fun _ _ => .temp hlookup
    · exact .broken
  · exact .pure fun _ _ => .lit _
  · rename_i id index site
    refine keeps_get.bind fun q s₁ _ _ => ?_
    refine (Keeps.optionMapM (C := fun _ _ _ => True) (fun _ _ => trivial)
      fun t _ => keeps_typeAt t).bind fun inst s₂ _ _ => ?_
    intro s a' s' hg ht hy
    rw [yields_bind] at hy
    obtain ⟨⟨id', index'⟩, s₃, href, hy⟩ := hy
    obtain ⟨hg', ht', hserves, hindex⟩ := topRef_spec ht (ha id rfl) href
    dsimp only at hy
    rw [yields_bind] at hy
    obtain ⟨st, s₄, hget, hy⟩ := hy
    obtain ⟨rfl, rfl⟩ := yields_get.mp hget
    dsimp only [Program.freshSite] at hy
    rw [yields_bind] at hy
    obtain ⟨_, s₅, hset, hy⟩ := hy
    obtain rfl := yields_set.mp hset
    obtain ⟨rfl, rfl⟩ := yields_pure.mp hy
    exact ⟨⟨hg'.temps, hg'.clones⟩, ht'.congr rfl rfl rfl rfl rfl, .top hserves hindex⟩

theorem keeps_atoms {as : List Atom} (has : ∀ r ∈ as.filterMap Atom.defn?, r < p.defns.size) :
    Keeps p extra s₀ (as.mapM (atom sub env)) fun s as' => AtomsCopy p (s.Serves p) env as as' :=
  .mapM (fun hg ha => ha.mono hg.serves) fun a ha =>
    keeps_atom fun r hr => has r (List.mem_filterMap.mpr ⟨a, ha, hr⟩)

theorem keeps_call {c : BlockCall} (hc : ∀ r ∈ (Tail.call c).refs, r < p.defns.size) :
    Keeps p extra s₀ (call sub env c) fun s c' => CallCopy p (s.Serves p) env c c' := by
  unfold call
  refine (keeps_blockTypeAt _).bind fun inst s₁ _ _ => ?_
  have hblock : Keeps p extra s₁ (block c.block inst) fun s j => s.Serves p c.block j :=
    fun s j s' _ ht hy => block_spec ht (hc _ (List.mem_append_right _ (.head _))) hy
  refine hblock.bind fun target s₂ _ hserves => ?_
  refine (keeps_atoms fun r hr => hc r (List.mem_append_left _ hr)).bind fun args s₃ hg hargs => ?_
  exact .pure fun s hg' => ⟨(hg.trans hg').serves _ _ hserves, hargs.mono hg'.serves⟩

theorem keeps_tail {t : Tail} {scope : List Temp} (ht : t.Formed p.env p.prims scope)
    (hrefs : ∀ r ∈ t.refs, r < p.defns.size) :
    Keeps p extra s₀ (tail sub env t) fun s t' => TailCopy p (s.Serves p) env t t' := by
  have hatoms (r : DefnId) (hr : r ∈ t.atoms.filterMap Atom.defn?) : r < p.defns.size :=
    hrefs r (List.mem_append_left _ hr)
  cases t with
  | ret args =>
      exact (keeps_atoms hatoms).bind fun args' s₁ _ hargs =>
        .pure fun s hg => .ret (hargs.mono hg.serves)
  | call c =>
      exact (keeps_call hrefs).bind fun c' s₁ _ hcall =>
        .pure fun s hg => .call (hcall.mono hg.serves)
  | prim q args inst =>
      refine (keeps_blockTypeAt _).bind fun inst' s₁ _ _ => ?_
      have hprim : Keeps p extra s₁ (prim q inst') fun _ q' => PrimCopy q q' :=
        fun s q' s' _ htracks hy => prim_spec htracks ht.named.2 hy
      exact hprim.bind fun q' s₂ _ hq => (keeps_atoms hatoms).bind fun args' s₃ _ hargs =>
        .pure fun s hg => .prim hq (hargs.mono hg.serves)
  | alloc k args inst =>
      refine (keeps_allocTypeAt _).bind fun inst' s₁ _ _ => ?_
      have hclosure : Keeps p extra s₁ (closure k inst') fun s j => s.Serves p k j :=
        fun s j s' _ htracks hy =>
          closure_spec htracks (hrefs k (List.mem_append_right _ (.head _))) hy
      exact hclosure.bind fun l s₂ _ hserves => (keeps_atoms hatoms).bind fun args' s₃ hg hargs =>
        .pure fun s hg' => .alloc ((hg.trans hg').serves _ _ hserves) (hargs.mono hg'.serves)
  | data k args inst =>
      exact (keeps_atoms hatoms).bind fun args' s₁ _ hargs => (keeps_allocTypeAt _).bind
        fun inst' s₂ hg _ => .pure fun s hg' => .data (hargs.mono (hg.trans hg').serves)
  | enter fn args =>
      refine (keeps_atom fun r hr => hatoms r (List.mem_filterMap.mpr ⟨fn, .head _, hr⟩)).bind
        fun fn' s₁ _ hfn => ?_
      refine (keeps_atoms fun r hr => hatoms r ?_).bind fun args' s₂ hg hargs => ?_
      · obtain ⟨a, ha, har⟩ := List.mem_filterMap.mp hr
        exact List.mem_filterMap.mpr ⟨a, .tail _ ha, har⟩
      · exact .pure fun s hg' => .enter (hfn.mono (hg.trans hg').serves) (hargs.mono hg'.serves)
  | sel k field arg inst =>
      refine (keeps_atom fun r hr => hatoms r (List.mem_filterMap.mpr ⟨arg, .head _, hr⟩)).bind
        fun arg' s₁ _ harg => ?_
      exact (keeps_allocTypeAt _).bind fun inst' s₂ hg _ =>
        .pure fun s hg' => .sel (harg.mono (hg.trans hg').serves)

theorem keeps_code {c : Code} {scope : List Temp} (hc : c.Formed p.env p.prims scope)
    (hrefs : ∀ r ∈ c.refs, r < p.defns.size) (henv : env.Below s₀.program.temps.size) :
    Keeps p extra s₀ (code sub env c) fun s c' => CodeCopy p (s.Serves p) env c c' := by
  induction c generalizing env scope s₀ with
  | bind vars t next ih =>
      rw [code]
      refine (keeps_tail hc.1 fun r hr => hrefs r (List.mem_append_left _ hr)).bind
        fun t' s₁ hg htail => ?_
      refine (keeps_temps (henv.mono hg.temps) vars).bind fun r s₂ hg₂ hr => ?_
      obtain ⟨vs, env'⟩ := r
      dsimp only at hr ⊢
      obtain ⟨rfl, hlen, hfresh, hbelow⟩ := hr
      refine (ih hc.2 (fun r hr => hrefs r (List.mem_append_right _ hr)) hbelow).bind
        fun next' s₃ hg₃ hnext => ?_
      exact .pure fun s hg' => .bind (htail.mono ((hg₂.trans hg₃).trans hg').serves) hlen hfresh
        (hnext.mono hg'.serves)
  | done t =>
      rw [code]
      exact (keeps_tail hc hrefs).bind fun t' s₁ _ htail =>
        .pure fun s hg => .done (htail.mono hg.serves)
  | branch cond t f =>
      rw [code]
      refine (keeps_atom fun r hr => hrefs r ?_).bind fun cond' s₁ _ hcond => ?_
      · exact List.mem_append_left _ (List.mem_append_left _ (Option.mem_toList.mpr hr))
      refine (keeps_call fun r hr => hrefs r ?_).bind fun t' s₂ hg₂ ht => ?_
      · exact List.mem_append_left _ (List.mem_append_right _ hr)
      refine (keeps_call fun r hr => hrefs r ?_).bind fun f' s₃ hg₃ hf => ?_
      · exact List.mem_append_right _ hr
      exact .pure fun s hg => .branch (hcond.mono ((hg₂.trans hg₃).trans hg).serves)
        (ht.mono (hg₃.trans hg).serves) (hf.mono hg.serves)
  | case scrut alts default =>
      rw [code]
      have hcalls {c : BlockCall} (hmem : c ∈ (Code.case scrut alts default).calls) (r : DefnId)
          (hr : r ∈ (Tail.call c).refs) : r < p.defns.size :=
        hrefs r (List.mem_append_right _ (List.mem_flatMap.mpr ⟨c, hmem, hr⟩))
      have halts : Keeps p extra s₀ (alts.mapM fun a => return (a.1, ← call sub env a.2))
          fun s alts' => List.Forall₂
            (fun a a' => a'.1 = a.1 ∧ CallCopy p (s.Serves p) env a.2 a'.2) alts alts' := by
        refine .mapM (fun hg h => ⟨h.1, h.2.mono hg.serves⟩) fun a ha => ?_
        refine (keeps_call (hcalls (List.mem_append_left _ (List.mem_map_of_mem ha)))).bind
          fun c' s₁ _ hc' => ?_
        exact .pure fun s hg => ⟨rfl, hc'.mono hg.serves⟩
      refine halts.bind fun alts' s₁ _ halts => ?_
      refine (keeps_atom fun r hr => hrefs r ?_).bind fun scrut' s₂ hg₂ hscrut => ?_
      · exact List.mem_append_left _ (Option.mem_toList.mpr hr)
      refine (Keeps.optionMapM (fun hg h => h.mono hg.serves) fun c hc => keeps_call
        (hcalls (List.mem_append_right _ (Option.mem_toList.mpr hc)))).bind
          fun default' s₃ hg₃ hdefault => ?_
      refine .pure fun s hg => .case (hscrut.mono (hg₃.trans hg).serves)
        (halts.imp fun a a' h => ⟨h.1, h.2.mono ((hg₂.trans hg₃).trans hg).serves⟩) ?_
      cases hdefault with
      | none => exact .none
      | some hcall => exact .some (hcall.mono hg.serves)

theorem keeps_presentTail {t : Option Tail} {scope : List Temp}
    (ht : ∀ tail, t = some tail → tail.Formed p.env p.prims scope)
    (hrefs : ∀ r ∈ (t.map Tail.refs).getD [], r < p.defns.size) :
    Keeps p extra s₀ (presentTail sub env t) fun s t' =>
      ∃ tail, t = some tail ∧ TailCopy p (s.Serves p) env tail t' := by
  unfold presentTail
  split
  · exact (keeps_tail (ht _ rfl) hrefs).imp fun s t' h => ⟨_, rfl, h⟩
  · exact .broken

theorem keeps_ownType {α : Type} {q : Pending} {present : Option α} {own : MonoM α}
    (hown : Keeps p extra s₀ own fun _ _ => True) :
    Keeps p extra s₀ (ownType q present own) fun _ _ => True := by
  unfold ownType
  split
  · have hmap : some <$> own = own >>= fun a => pure (some a) := rfl
    rw [hmap]
    exact hown.bind fun _ _ _ _ => .pure fun _ _ => trivial
  · exact .pure fun _ _ => trivial

end Bodies

/-! ### Whole programs -/

section Programs

variable {p : Program} {s s' : State}

/-- The names of a top-level definition are typed without any request. -/
theorem keeps_names {extra : List Pending} {s₀ : State} {f : TopName → Option Ty → TopName}
    {sub : TySubst} (lhs : List TopName) :
    Keeps p extra s₀ (lhs.mapM fun l => do
      let own ← l.defining.mapM (typeAt sub)
      return f l own) fun _ _ => True := by
  refine (Keeps.mapM (C := fun _ _ _ => True) (fun _ _ => trivial) fun l _ => ?_).imp
    fun _ _ _ => trivial
  refine (Keeps.optionMapM (C := fun _ _ _ => True) (fun _ _ => trivial)
    fun t _ => keeps_typeAt t).bind fun _ _ _ _ => ?_
  exact .pure fun _ _ => trivial

theorem setBody_spec {q : Pending} {d : Defn} {body : DefnBody} (h : Tracks p [q] s)
    (hd : p.defns[q.source]? = some d) (hbody : BodyCopy p (s.Serves p) d.body body)
    (hy : Yields (setBody q.clone body) s () s') : Grows s s' ∧ Tracks p [] s' := by
  obtain rfl := yields_modify.mp hy
  exact ⟨⟨Nat.le_refl _, fun _ hx => hx⟩, h.meet hd hbody⟩

/-- Filling in a copy meets its request. -/
theorem fill_spec (hp : Prepared p) {q : Pending} (h : Tracks p [q] s)
    (hy : Yields (fill q) s () s') : Grows s s' ∧ Tracks p [] s' := by
  obtain ⟨d, hd, hsource⟩ := h.request_source (.head _)
  have hformed := hp.formed hd
  have hrefs := hp.refs hd
  rw [fill, yields_bind] at hy
  obtain ⟨d₁, s₁, hdefn, hy⟩ := hy
  obtain ⟨hd₁, rfl⟩ := yields_definition hdefn
  rw [hsource] at hd₁
  cases hd₁
  rw [yields_bind] at hy
  obtain ⟨d₂, s₂, hdefn', hy⟩ := hy
  obtain ⟨-, rfl⟩ := yields_definition hdefn'
  split at hy
  · rename_i o c hbody hbody'
    rw [hbody] at hformed hrefs
    rw [yields_bind] at hy
    obtain ⟨⟨params, env⟩, s₃, htemps, hy⟩ := hy
    obtain ⟨hg₃, ht₃, henv, hlen, hfresh, hbelow⟩ :=
      keeps_temps (Renames.below_nil _) o.params _ _ _ (.refl _) h htemps
    dsimp only at henv hlen hfresh hbelow hy
    subst henv
    split at hy
    · exact absurd hy not_yields_broken
    · rename_i body hsome
      rw [DefnBody.refs, hsome] at hrefs
      rw [yields_bind] at hy
      obtain ⟨body', s₄, hcode, hy⟩ := hy
      obtain ⟨hg₄, ht₄, hcode⟩ := keeps_code (hformed body hsome) hrefs hbelow _ _ _ (.refl _) ht₃ hcode
      rw [yields_bind] at hy
      obtain ⟨declared, s₅, hown, hy⟩ := hy
      obtain ⟨hg₅, ht₅, -⟩ :=
        keeps_ownType (keeps_blockTypeAt _) _ _ _ (.refl _) ht₄ hown
      refine (setBody_spec ht₅ hd ?_ hy).imp_left fun hg => hg₃.trans (hg₄.trans (hg₅.trans hg))
      rw [hbody]
      exact .block hsome rfl hlen hfresh (hcode.mono hg₅.serves) rfl
  · rename_i o c hbody hbody'
    rw [hbody] at hformed hrefs
    rw [yields_bind] at hy
    obtain ⟨⟨params, env⟩, s₃, htemps, hy⟩ := hy
    obtain ⟨hg₃, ht₃, henv, hlen, hfresh, hbelow⟩ :=
      keeps_temps (Renames.below_nil _) o.params _ _ _ (.refl _) h htemps
    dsimp only at henv hlen hfresh hbelow hy
    subst henv
    rw [yields_bind] at hy
    obtain ⟨⟨args, env⟩, s₄, htemps', hy⟩ := hy
    obtain ⟨hg₄, ht₄, henv, hlen', hfresh', -⟩ :=
      keeps_temps hbelow o.args _ _ _ (.refl _) ht₃ htemps'
    dsimp only at henv hlen' hfresh' hy
    subst henv
    rw [yields_bind] at hy
    obtain ⟨t', s₅, htail, hy⟩ := hy
    obtain ⟨hg₅, ht₅, tail, hsome, htail⟩ :=
      keeps_presentTail hformed hrefs _ _ _ (.refl _) ht₄ htail
    rw [yields_bind] at hy
    obtain ⟨declared, s₆, hown, hy⟩ := hy
    obtain ⟨hg₆, ht₆, -⟩ := keeps_ownType (keeps_allocTypeAt _) _ _ _ (.refl _) ht₅ hown
    refine (setBody_spec ht₆ hd ?_ hy).imp_left
      fun hg => hg₃.trans (hg₄.trans (hg₅.trans (hg₆.trans hg)))
    rw [hbody]
    exact .closure hsome rfl hlen hlen' hfresh hfresh' (htail.mono hg₆.serves) rfl
  · rename_i o c hbody hbody'
    rw [hbody] at hformed hrefs
    rw [yields_bind] at hy
    obtain ⟨t', s₃, htail, hy⟩ := hy
    obtain ⟨hg₃, ht₃, tail, hsome, htail⟩ :=
      keeps_presentTail hformed hrefs _ _ _ (.refl _) h htail
    rw [yields_bind] at hy
    obtain ⟨lhs, s₄, hlhs, hy⟩ := hy
    obtain ⟨hg₄, ht₄, -⟩ := keeps_names c.lhs _ _ _ (.refl _) ht₃ hlhs
    refine (setBody_spec ht₄ hd ?_ hy).imp_left fun hg => hg₃.trans (hg₄.trans hg)
    rw [hbody]
    exact .top hsome rfl (htail.mono hg₄.serves) rfl
  · rw [yields_bind] at hy
    obtain ⟨d₃, s₃, -, hy⟩ := hy
    exact absurd hy not_yields_broken

theorem run_spec (hp : Prepared p) {fuel : Nat} (h : Tracks p [] s) (hy : Yields (run fuel) s () s') :
    Grows s s' ∧ Tracks p [] s' ∧ s'.queue = [] := by
  induction fuel generalizing s with
  | zero =>
      rw [run, yields_bind] at hy
      obtain ⟨q, s₁, hget, hy⟩ := hy
      obtain ⟨rfl, rfl⟩ := yields_get.mp hget
      split at hy
      · exact absurd hy not_yields_throw
      · rename_i hempty
        obtain ⟨-, rfl⟩ := yields_pure.mp hy
        exact ⟨.refl _, h, by simpa using hempty⟩
  | succ fuel ih =>
      rw [run, yields_bind] at hy
      obtain ⟨q, s₁, hget, hy⟩ := hy
      obtain ⟨rfl, rfl⟩ := yields_get.mp hget
      split at hy
      · rename_i hempty
        obtain ⟨-, rfl⟩ := yields_pure.mp hy
        exact ⟨.refl _, h, hempty⟩
      · rename_i q queue hqueue
        rw [yields_bind] at hy
        obtain ⟨_, s₂, hset, hy⟩ := hy
        obtain rfl := yields_set.mp hset
        rw [yields_bind] at hy
        obtain ⟨_, s₃, hfill, hy⟩ := hy
        obtain ⟨hg, ht⟩ := fill_spec hp (h.pop hqueue) hfill
        obtain ⟨hg', ht', hempty⟩ := ih ht hy
        refine ⟨⟨?_, ?_⟩, ht', hempty⟩
        · exact Nat.le_trans hg.temps hg'.temps
        · exact fun x hx => hg'.clones x (hg.clones x hx)

theorem checkEntry_spec {id : DefnId} (hy : Yields (checkEntry id) s () s') :
    s' = s ∧ ∃ d, s.program.defns[id]? = some d ∧ d.body.isPolymorphic = false := by
  rw [checkEntry, yields_bind] at hy
  obtain ⟨d, s₁, hdefn, hy⟩ := hy
  obtain ⟨hd, rfl⟩ := yields_definition hdefn
  split at hy
  · exact absurd hy not_yields_throw
  · split at hy
    · exact absurd hy not_yields_throw
    · rename_i hmono
      obtain ⟨-, rfl⟩ := yields_pure.mp hy
      exact ⟨rfl, d, hd, Bool.eq_false_iff.mpr hmono⟩

theorem checkEntries_spec {ids : List DefnId} (hy : Yields (ids.forM checkEntry) s () s') :
    s' = s ∧ ∀ id ∈ ids, id < s.program.defns.size := by
  induction ids with
  | nil =>
      obtain ⟨-, rfl⟩ := yields_pure.mp hy
      exact ⟨rfl, fun _ hid => nomatch hid⟩
  | cons id ids ih =>
      have hsteps : Yields (checkEntry id >>= fun _ => ids.forM checkEntry) s () s' := hy
      obtain ⟨_, s₁, hcheck, hrest⟩ := yields_bind.mp hsteps
      obtain ⟨rfl, d, hd, -⟩ := checkEntry_spec hcheck
      obtain ⟨rfl, hids⟩ := ih hrest
      refine ⟨rfl, fun id' hid' => ?_⟩
      rcases List.mem_cons.mp hid' with rfl | hid'
      · exact (Array.getElem?_eq_some_iff.mp hd).1
      · exact hids id' hid'

theorem entry_spec {id j : DefnId} (h : Tracks p [] s) (hid : id < p.defns.size)
    (hy : Yields (entry id) s j s') : Grows s s' ∧ Tracks p [] s' ∧ s'.Serves p id id := by
  rw [entry, yields_bind] at hy
  obtain ⟨_, s₁, hcheck, hy⟩ := hy
  obtain ⟨rfl, d, hd, hmono⟩ := checkEntry_spec hcheck
  obtain ⟨hg, ht, hserves⟩ := mono_spec h hd hid hmono hy
  have hd₀ := Array.getElem?_eq_getElem hid
  have hmono₀ := (h.polymorphic hd₀ hd).1.trans hmono
  obtain rfl := ht.eq_of_serves hserves hd₀ hmono₀
  exact ⟨hg, ht, hserves⟩

theorem entries_spec {ids : List DefnId} (h : Tracks p [] s)
    (hids : ∀ id ∈ ids, id < p.defns.size)
    (hy : Yields (ids.forM fun id => do let _ ← entry id) s () s') :
    Grows s s' ∧ Tracks p [] s' ∧ ∀ id ∈ ids, s'.Serves p id id := by
  induction ids generalizing s with
  | nil =>
      obtain ⟨-, rfl⟩ := yields_pure.mp hy
      exact ⟨.refl _, h, fun _ hid => nomatch hid⟩
  | cons id ids ih =>
      have hsteps : Yields ((do let _ ← entry id) >>= fun _ =>
        ids.forM fun id => do let _ ← entry id) s () s' := hy
      obtain ⟨_, s₁, hfirst, hrest⟩ := yields_bind.mp hsteps
      obtain ⟨j, s₂, hentry, hfirst⟩ := yields_bind.mp hfirst
      obtain ⟨-, rfl⟩ := yields_pure.mp hfirst
      obtain ⟨hg, ht, hserves⟩ := entry_spec h (hids id (.head _)) hentry
      obtain ⟨hg', ht', hall⟩ := ih ht (fun id' hid' => hids id' (.tail _ hid')) hrest
      refine ⟨hg.trans hg', ht', fun id' hid' => ?_⟩
      rcases List.mem_cons.mp hid' with rfl | hid'
      · exact hg'.serves _ _ hserves
      · exact hall id' hid'

/-- Specialisation ends with a copy of everything that was asked for, the entrypoints among it. -/
theorem program_spec (hp : Prepared p) (hy : Yields program (.start p) () s) :
    Tracks p [] s ∧ s.queue = [] ∧ ∀ id ∈ p.entries, s.Serves p id id := by
  rw [program, yields_bind] at hy
  obtain ⟨q, s₁, hget, hy⟩ := hy
  obtain ⟨rfl, rfl⟩ := yields_get.mp hget
  rw [yields_bind] at hy
  obtain ⟨_, s₂, hcheck, hy⟩ := hy
  obtain ⟨rfl, hentries⟩ := checkEntries_spec hcheck
  rw [yields_bind] at hy
  obtain ⟨_, s₃, hasked, hy⟩ := hy
  obtain ⟨-, ht, hserves⟩ := entries_spec (tracks_start hp.whole) hentries hasked
  obtain ⟨hg, ht', hqueue⟩ := run_spec hp ht hy
  exact ⟨ht', hqueue, fun id hid => hg.serves id id (hserves id hid)⟩

end Programs

end Mil.Mono
