import Mil.Proofs.Rep.State

/-!
How a change of representation fails. It goes over the definitions twice: externals get their
implementations first, and then bodies are changed. A failure can only come from an external, so when
there is one no body has been changed yet; but externals before it have their implementations already,
and the definitions that were made for these are there.

What holds of a step however it ends is said by rules, one set for each round: how the program may
change, and why the step may stop.
-/

namespace Mil

/-- The definition itself, or an external that has got an implementation. -/
def Defn.Resolved (d d' : Defn) : Prop :=
  d' = d ∨
    ∃ e impl, d.body = .external e ∧ d' = { d with body := .external { e with impl := some impl } }

/-- The second program has what the first has, but for implementations of externals, and maybe
more. -/
structure Program.Resolves (p p' : Program) : Prop where
  env : p'.env = p.env
  entries : p'.entries = p.entries
  names : p'.names = p.names
  store : p'.store = p.store
  temps : p.temps.toList <+: p'.temps.toList
  sites : p.sites.toList <+: p'.sites.toList
  defns : ∀ {id : DefnId} {d : Defn}, p.defns[id]? = some d →
    ∃ d', p'.defns[id]? = some d' ∧ d.Resolved d'

section Resolves

variable {p p' p'' : Program}

theorem Defn.Resolved.trans {d d' d'' : Defn} (h : d.Resolved d') (h' : d'.Resolved d'') :
    d.Resolved d'' := by
  rcases h with rfl | ⟨e, impl, he, rfl⟩
  · exact h'
  · rcases h' with rfl | ⟨e', impl', he', rfl⟩
    · exact .inr ⟨e, impl, he, rfl⟩
    · cases he'
      exact .inr ⟨e, impl', he, rfl⟩

theorem Program.Resolves.refl (p : Program) : p.Resolves p :=
  ⟨rfl, rfl, rfl, rfl, List.prefix_refl _, List.prefix_refl _, fun hd => ⟨_, hd, .inl rfl⟩⟩

theorem Program.Resolves.trans (h : p.Resolves p') (h' : p'.Resolves p'') : p.Resolves p'' where
  env := h'.env.trans h.env
  entries := h'.entries.trans h.entries
  names := h'.names.trans h.names
  store := h'.store.trans h.store
  temps := h.temps.trans h'.temps
  sites := h.sites.trans h'.sites
  defns hd := by
    obtain ⟨d', hd', hres⟩ := h.defns hd
    obtain ⟨d'', hd'', hres'⟩ := h'.defns hd'
    exact ⟨d'', hd'', hres.trans hres'⟩

theorem Program.resolves_add (p : Program) (d : Defn) : p.Resolves (p.add d).2 where
  __ := Resolves.refl p
  defns {id d'} hd := by
    refine ⟨d', ?_, .inl rfl⟩
    obtain ⟨hlt, rfl⟩ := Array.getElem?_eq_some_iff.mp hd
    exact Array.getElem?_push_lt hlt

theorem TempTypes.prefix_freshAll (temps : TempTypes) (ts : List (Option Ty)) :
    temps.toList <+: (temps.freshAll ts).2.toList := by
  induction ts generalizing temps with
  | nil => exact List.prefix_refl _
  | cons t ts ih =>
      refine List.IsPrefix.trans ?_ (ih (temps.push t))
      rw [Array.toList_push]
      exact List.prefix_append _ _

theorem Program.resolves_freshTemps (p : Program) (ts : List (Option Ty)) :
    p.Resolves (p.freshTemps ts).2 where
  __ := Resolves.refl p
  temps := p.temps.prefix_freshAll ts

/-- An external gets an implementation. -/
theorem Program.resolves_setBody {id : DefnId} {d : Defn} {e : External} (hd : p.defns[id]? = some d)
    (he : d.body = .external e) (impl : DefnId) :
    p.Resolves (p.setBody id (.external { e with impl := some impl })) where
  __ := Resolves.refl p
  defns {i d'} hd' := by
    rw [Program.getElem?_setBody]
    split
    · rename_i hid
      subst hid
      cases hd.symm.trans hd'
      rw [hd]
      exact ⟨_, rfl, .inr ⟨e, impl, he, rfl⟩⟩
    · exact ⟨d', hd', .inl rfl⟩

/-- An external is still one, but for its implementation. -/
theorem Defn.Resolved.external {d d' : Defn} {e : External} (h : d.Resolved d')
    (he : d.body = .external e) : ∃ impl, d'.body = .external { e with impl } := by
  rcases h with rfl | ⟨e', impl, he', rfl⟩
  · exact ⟨e.impl, he⟩
  · cases he.symm.trans he'
    exact ⟨some impl, rfl⟩

end Resolves

/-- There is an external that can be reached at the position. -/
def Program.ExternalAt (p : Program) (pos : Position) : Prop :=
  ∃ id ∈ p.reachable, ∃ d e, p.defns[id]? = some d ∧ d.body = .external e ∧ d.pos = pos

namespace Rep

/-! ### Rules for steps -/

/-- How a step may change the program, and why it may stop. Temporaries and definitions may be added,
and broken invariants may be met. -/
structure Rules where
  keeps : Program → Program → Prop
  stops : Stop → Prop
  refl : ∀ p, keeps p p
  trans : ∀ {p p' p''}, keeps p p' → keeps p' p'' → keeps p p''
  temps : ∀ p ts, keeps p (p.freshTemps ts).2
  add : ∀ p d, keeps p (p.add d).2
  defect : ∀ d, stops (.defect d)

/-- However the step ends, it keeps to the rules. -/
def Rules.Obeyed {α : Type} (R : Rules) (x : TransM α) (s : State) : Prop :=
  R.keeps s.program (x s).2.program ∧ ∀ e, (x s).1 = .error e → R.stops e

/-- The rules of the first round over the program: nothing that is there changes but implementations
of externals, and a failure is at an external. -/
def resolving (p : Program) : Rules where
  keeps := Program.Resolves
  stops e := ∀ f, e = .failure f → f.kind = .structural ∧ p.ExternalAt f.pos
  refl := .refl
  trans := .trans
  temps := Program.resolves_freshTemps
  add := Program.resolves_add
  defect _ := nofun

/-- The rules of the second round: bodies change, and there are no failures. -/
def rewriting : Rules where
  keeps _ _ := True
  stops e := ∀ f, e ≠ .failure f
  refl _ := trivial
  trans _ _ := trivial
  temps _ _ := trivial
  add _ _ := trivial
  defect _ := nofun

section Obeyed

variable {α β : Type} {R : Rules} {x : TransM α} {s : State}

theorem obeyed_pure (a : α) : R.Obeyed (pure a) s := ⟨R.refl s.program, nofun⟩

theorem Rules.Obeyed.bind {f : α → TransM β} (hx : R.Obeyed x s)
    (hf : ∀ a s', R.keeps s.program s'.program → R.Obeyed (f a) s') : R.Obeyed (x >>= f) s := by
  have hbind : (x >>= f) s = ExceptT.bindCont f (x s).1 (x s).2 := rfl
  obtain ⟨hkeeps, hstops⟩ := hx
  rw [Rules.Obeyed, hbind]
  rcases hxs : x s with ⟨e | a, s₁⟩
  · rw [hxs] at hkeeps hstops
    exact ⟨hkeeps, fun e' h => hstops e' (congrArg _ (Except.error.inj h))⟩
  · rw [hxs] at hkeeps
    obtain ⟨hkeeps', hstops'⟩ := hf a s₁ hkeeps
    exact ⟨R.trans hkeeps hkeeps', hstops'⟩

theorem Rules.Obeyed.map (hx : R.Obeyed x s) (f : α → β) : R.Obeyed (f <$> x) s := by
  rw [map_eq_pure_bind]
  exact hx.bind fun _ _ _ => obeyed_pure _

theorem obeyed_throw {e : Stop} (he : R.stops e) : R.Obeyed (throw e : TransM α) s :=
  ⟨R.refl s.program, fun _ h => Except.error.inj h ▸ he⟩

theorem obeyed_throw_bind {e : Stop} {f : α → TransM β} (he : R.stops e) :
    R.Obeyed ((throw e : TransM α) >>= f) s :=
  ⟨R.refl s.program, fun _ h => Except.error.inj h ▸ he⟩

theorem obeyed_broken (d : Defect) : R.Obeyed (broken d : TransM α) s := obeyed_throw (R.defect d)

theorem obeyed_get_bind {f : State → TransM β} (hf : R.Obeyed (f s) s) : R.Obeyed (get >>= f) s := hf

/-- A change that leaves the program alone. -/
theorem obeyed_modify {f : State → State} (hf : (f s).program = s.program) :
    R.Obeyed (modify f : TransM Unit) s := by
  refine ⟨?_, nofun⟩
  have hprogram : ((modify f : TransM Unit) s).2.program = s.program := hf
  rw [hprogram]
  exact R.refl s.program

theorem obeyed_onProgram {f : Program → α × Program} (hf : R.keeps s.program (f s.program).2) :
    R.Obeyed (onProgram f) s := ⟨hf, nofun⟩

theorem obeyed_mapM {f : α → TransM β} {as : List α}
    (hf : ∀ a ∈ as, ∀ s', R.keeps s.program s'.program → R.Obeyed (f a) s') :
    R.Obeyed (as.mapM f) s := by
  induction as generalizing s with
  | nil =>
      rw [List.mapM_nil]
      exact obeyed_pure _
  | cons a as ih =>
      rw [List.mapM_cons]
      refine (hf a (.head _) s (R.refl _)).bind fun _ s₁ hs₁ => ?_
      refine Rules.Obeyed.bind (ih fun a' ha' s' hs' => ?_) fun _ _ _ => obeyed_pure _
      exact hf a' (.tail _ ha') s' (R.trans hs₁ hs')

theorem obeyed_forM {f : α → TransM Unit} {as : List α}
    (hf : ∀ a ∈ as, ∀ s', R.keeps s.program s'.program → R.Obeyed (f a) s') :
    R.Obeyed (as.forM f) s := by
  induction as generalizing s with
  | nil => exact obeyed_pure _
  | cons a as ih =>
      refine Rules.Obeyed.bind (hf a (.head _) s (R.refl _)) fun _ s₁ hs₁ => ?_
      exact ih fun a' ha' s' hs' => hf a' (.tail _ ha') s' (R.trans hs₁ hs')

end Obeyed

/-! ### What both rounds use -/

section Shared

variable {R : Rules} {s : State}

theorem obeyed_store : R.Obeyed store s := obeyed_get_bind (obeyed_pure _)

theorem obeyed_onTypes {α : Type} (x : RepM α) : R.Obeyed (onTypes x) s := by
  refine obeyed_get_bind ?_
  cases x.run s.table with
  | error e => exact obeyed_broken e
  | ok r => exact ⟨R.refl s.program, nofun⟩

theorem obeyed_repsOf (t : Ty) : R.Obeyed (repsOf t) s :=
  obeyed_store.bind fun _ _ _ => obeyed_onTypes _

theorem obeyed_repsOfAll (ts : List Ty) : R.Obeyed (repsOfAll ts) s :=
  obeyed_store.bind fun _ _ _ => obeyed_onTypes _

theorem obeyed_blockTypeOf (b : BlockType) : R.Obeyed (blockTypeOf b) s :=
  obeyed_store.bind fun _ _ _ => obeyed_onTypes _

theorem obeyed_allocTypeOf (a : AllocType) : R.Obeyed (allocTypeOf a) s :=
  obeyed_store.bind fun _ _ _ => obeyed_onTypes _

theorem obeyed_freshTemps (types : List Ty) : R.Obeyed (freshTemps types) s :=
  obeyed_onProgram (R.temps _ _)

theorem obeyed_freshTemp (t : Option Ty) : R.Obeyed (onProgram (·.freshTemp t)) s :=
  obeyed_onProgram (R.temps _ [t])

theorem obeyed_add (d : Defn) : R.Obeyed (add d) s := obeyed_onProgram (R.add _ d)

theorem obeyed_addBuiltin (name : String) (body : DefnBody) : R.Obeyed (addBuiltin name body) s :=
  obeyed_add _

theorem obeyed_primBinding (q : Prim) (args : List Atom) : R.Obeyed (primBinding q args) s := by
  unfold primBinding
  refine obeyed_store.bind fun _ _ _ => ?_
  split
  · exact (obeyed_freshTemp _).bind fun _ _ _ => obeyed_pure _
  · exact obeyed_broken _

end Shared

/-! ### Implementations -/

section Implementations

variable {R : Rules} {s : State}

theorem obeyed_addFunction (name : String) (fun_ : Ty) (k : Closure) :
    R.Obeyed (addFunction name fun_ k) s :=
  (obeyed_addBuiltin _ _).bind fun _ _ _ => obeyed_add _

theorem obeyed_literal {d : Defn} (hd : ∀ m, R.stops (.failure ⟨d.pos, .structural, m⟩))
    (e : External) (v n : Nat) : R.Obeyed (literal d e v n) s := by
  unfold literal
  dsimp only
  split
  · exact obeyed_throw_bind (hd _)
  refine obeyed_get_bind <| (obeyed_repsOf _).bind fun _ _ _ => ?_
  split
  · exact (obeyed_freshTemps _).bind fun _ _ _ => obeyed_addFunction _ _ _
  · exact obeyed_add _

theorem obeyed_notWords (xs : List Temp) : R.Obeyed (notWords xs) s := by
  induction xs generalizing s with
  | nil => exact obeyed_pure _
  | cons x xs ih =>
      unfold notWords
      exact (obeyed_primBinding _ _).bind fun _ _ _ => ih.bind fun _ _ _ => obeyed_pure _

theorem obeyed_nextCarry (carry : Option Temp) (x : Temp) : R.Obeyed (nextCarry carry x) s := by
  unfold nextCarry
  refine (obeyed_primBinding _ _).bind fun _ _ _ => ?_
  dsimp only
  split
  · exact obeyed_pure _
  · exact (obeyed_primBinding _ _).bind fun _ _ _ => obeyed_pure _

theorem obeyed_negateWord (carry : Option Temp) (x : Temp) : R.Obeyed (negateWord carry x) s := by
  unfold negateWord
  split
  · exact (obeyed_primBinding _ _).bind fun _ _ _ => obeyed_pure _
  · exact (obeyed_primBinding _ _).bind fun _ _ _ => (obeyed_primBinding _ _).bind fun _ _ _ =>
      (obeyed_primBinding _ _).bind fun _ _ _ => obeyed_pure _

theorem obeyed_negateWords (carry : Option Temp) (xs : List Temp) :
    R.Obeyed (negateWords carry xs) s := by
  induction xs generalizing carry s with
  | nil =>
      unfold negateWords
      exact obeyed_pure _
  | cons x xs ih =>
      cases xs with
      | nil =>
          unfold negateWords
          exact (obeyed_negateWord _ _).bind fun _ _ _ => obeyed_pure _
      | cons x' xs =>
          unfold negateWords
          exact (obeyed_negateWord _ _).bind fun _ _ _ => (obeyed_nextCarry _ _).bind fun _ _ _ =>
            (ih _).bind fun _ _ _ => obeyed_pure _

theorem obeyed_maskLast (mask : Option Word) (out : List Atom) :
    R.Obeyed (maskLast mask out) s := by
  unfold maskLast
  split
  · exact (obeyed_primBinding _ _).bind fun _ _ _ => obeyed_pure _
  · exact obeyed_pure _

theorem obeyed_bitFunction (name : String) (w : Nat)
    {compute : List Temp → TransM (List Atom × List Binding)}
    (hcompute : ∀ xs s, R.Obeyed (compute xs) s) : R.Obeyed (bitFunction name w compute) s := by
  unfold bitFunction
  refine obeyed_get_bind <| (obeyed_freshTemps _).bind fun params s₁ _ => ?_
  refine (hcompute params s₁).bind fun _ _ _ => (obeyed_maskLast _ _).bind fun _ _ _ => ?_
  exact (obeyed_addBuiltin _ _).bind fun _ _ _ => (obeyed_freshTemps _).bind fun _ _ _ =>
    obeyed_addFunction _ _ _

theorem obeyed_implement {d : Defn} (hd : ∀ m, R.stops (.failure ⟨d.pos, .structural, m⟩))
    (e : External) : R.Obeyed (implement d e) s := by
  unfold implement
  refine obeyed_store.bind fun _ _ _ => ?_
  split
  · split
    · exact (obeyed_literal hd _ _ _).map some
    · exact obeyed_pure none
  · split
    · exact (obeyed_bitFunction _ _ fun xs _ => obeyed_notWords xs).map some
    · exact obeyed_pure none
  · split
    · exact (obeyed_bitFunction _ _ fun xs _ => obeyed_negateWords none xs).map some
    · exact obeyed_pure none
  · exact obeyed_pure none

theorem obeyed_generate {d : Defn} (hd : ∀ m, R.stops (.failure ⟨d.pos, .structural, m⟩))
    (e : External) : R.Obeyed (generate d e) s := by
  unfold generate
  refine obeyed_store.bind fun _ _ _ => obeyed_get_bind ?_
  dsimp only
  split
  · exact obeyed_pure _
  refine (obeyed_implement hd e).bind fun impl _ _ => ?_
  split
  · exact (obeyed_modify rfl).bind fun _ _ _ => obeyed_pure _
  · exact obeyed_pure _

theorem obeyed_checkImpl {d : Defn} (hd : ∀ m, R.stops (.failure ⟨d.pos, .structural, m⟩))
    (e : External) (impl : DefnId) (want : List Ty) : R.Obeyed (checkImpl d e impl want) s := by
  have hcheck (fits : Bool) (m : String) (s : State) : R.Obeyed
      (if !fits then throw (.failure ⟨d.pos, .structural, m⟩) else pure () : TransM Unit) s := by
    split
    · exact obeyed_throw (hd m)
    · exact obeyed_pure ()
  unfold checkImpl
  exact obeyed_get_bind (hcheck _ _ _)

end Implementations

/-! ### The first round -/

section Resolving

variable {p : Program} {s : State}

/-- An external that can be reached is one all along, at its position. -/
theorem externalAt_of_resolves (hp : p.Resolves s.program) {id : DefnId} (hid : id ∈ p.reachable)
    {d : Defn} {e : External} (hd : s.program.defns[id]? = some d) (he : d.body = .external e) :
    p.ExternalAt d.pos := by
  have hlt := Program.lt_of_reachable hid
  have hd₀ := Array.getElem?_eq_getElem hlt
  obtain ⟨d', hd', hres⟩ := hp.defns hd₀
  cases hd.symm.trans hd'
  rcases hres with rfl | ⟨e₀, impl, he₀, rfl⟩
  · exact ⟨id, hid, _, e, hd₀, he, rfl⟩
  · exact ⟨id, hid, _, e₀, hd₀, he₀, rfl⟩

theorem obeyed_header (hp : p.Resolves s.program) {id : DefnId} (hid : id ∈ p.reachable) :
    (resolving p).Obeyed (header id) s := by
  unfold header
  refine obeyed_get_bind ?_
  dsimp only
  cases hd : s.program.defns[id]? with
  | none => exact obeyed_broken _
  | some d =>
  dsimp only
  cases hbody : d.body with
  | block b => exact obeyed_pure _
  | closure k => exact obeyed_pure _
  | top t => exact (obeyed_mapM fun _ _ _ _ => obeyed_repsOf _).bind fun _ _ _ => obeyed_modify rfl
  | external e =>
      have hat := externalAt_of_resolves hp hid hd hbody
      have hfail (m : String) : (resolving p).stops (.failure ⟨d.pos, .structural, m⟩) := by
        rintro _ ⟨⟩
        exact ⟨rfl, hat⟩
      refine (obeyed_repsOf _).bind fun types s₁ hs₁ => (obeyed_modify rfl).bind fun _ s₂ hs₂ => ?_
      refine (obeyed_generate hfail e).bind fun impl s₃ hs₃ => ?_
      cases impl with
      | none => exact obeyed_pure _
      | some impl =>
      refine (obeyed_checkImpl hfail e impl types).bind fun _ s₄ hs₄ => obeyed_onProgram ?_
      -- the body that is put back was read before the implementation was made
      have hs := ((hs₁.trans hs₂).trans hs₃).trans hs₄
      obtain ⟨d', hd', hres⟩ := hs.defns hd
      obtain ⟨_, he'⟩ := hres.external hbody
      exact Program.resolves_setBody hd' he' impl

theorem obeyed_headers {ids : List DefnId} (hids : ids ⊆ s.program.reachable) :
    (resolving s.program).Obeyed (ids.forM header) s :=
  obeyed_forM fun _ hid _ hs => obeyed_header hs (hids hid)

end Resolving

/-! ### The second round -/

section Rewriting

variable {s : State}

theorem rewriting_wordPrim (q : Prim) : rewriting.Obeyed (wordPrim q) s := by
  unfold wordPrim
  refine obeyed_get_bind ?_
  split
  · exact obeyed_pure _
  refine (obeyed_blockTypeOf _).bind fun _ _ _ => obeyed_store.bind fun _ _ _ => ?_
  dsimp only
  split
  · exact (obeyed_pure _).bind fun _ _ _ => (obeyed_modify rfl).bind fun _ _ _ => obeyed_pure _
  · exact (obeyed_onProgram trivial).bind fun _ _ _ =>
      (obeyed_modify rfl).bind fun _ _ _ => obeyed_pure _

theorem rewriting_loadBlock : rewriting.Obeyed loadBlock s := by
  unfold loadBlock
  refine (rewriting_wordPrim _).bind fun _ _ _ => (obeyed_freshTemp _).bind fun _ _ _ => ?_
  exact (obeyed_primBinding _ _).bind fun _ _ _ => (obeyed_primBinding _ _).bind fun _ _ _ =>
    (obeyed_primBinding _ _).bind fun _ _ _ => obeyed_pure _

theorem rewriting_storeBlock : rewriting.Obeyed storeBlock s := by
  unfold storeBlock
  refine (rewriting_wordPrim _).bind fun _ _ _ => (obeyed_freshTemp _).bind fun _ _ _ => ?_
  refine (obeyed_freshTemp _).bind fun _ _ _ => (obeyed_freshTemp _).bind fun _ _ _ => ?_
  exact (obeyed_primBinding _ _).bind fun _ _ _ => obeyed_pure _

theorem rewriting_wideAccess (op : PrimOp) : rewriting.Obeyed (wideAccess op) s := by
  have hblock {x : TransM Block} {type : BlockType} {s : State} (hx : rewriting.Obeyed x s) :
      rewriting.Obeyed (do
        let b ← x
        let id ← addBuiltin op.name (.block b)
        modify fun s => { s with wide := (op, id) :: s.wide }
        return some (id, type)) s :=
    hx.bind fun _ _ _ => (obeyed_addBuiltin _ _).bind fun _ _ _ =>
      (obeyed_modify rfl).bind fun _ _ _ => obeyed_pure _
  unfold wideAccess
  split
  · exact obeyed_pure _
  refine obeyed_get_bind ?_
  split
  · exact obeyed_pure _
  dsimp only
  split
  · exact obeyed_throw_bind (rewriting.defect _)
  split
  · exact obeyed_pure _
  · split
    · exact hblock rewriting_loadBlock
    · exact hblock rewriting_storeBlock

theorem rewriting_bindTemps (env : Carriers) (vars : List Temp) :
    rewriting.Obeyed (bindTemps env vars) s := by
  induction vars generalizing env s with
  | nil => exact obeyed_pure _
  | cons v vars ih =>
      have hrest (types : List Ty) (s : State) : rewriting.Obeyed (do
          let ws ← freshTemps types
          let r ← bindTemps ((v, ws.map .temp) :: env) vars
          return (ws ++ r.1, r.2)) s :=
        (obeyed_freshTemps _).bind fun _ _ _ => (ih _).bind fun _ _ _ => obeyed_pure _
      unfold bindTemps
      refine obeyed_get_bind ?_
      split
      · exact (obeyed_repsOf _).bind fun types s₁ _ => hrest types s₁
      · exact obeyed_throw_bind (rewriting.defect _)

theorem rewriting_topAtoms (id : DefnId) (index : Nat) :
    rewriting.Obeyed (topAtoms id index) s := by
  unfold topAtoms
  refine obeyed_get_bind ?_
  dsimp only
  split
  · exact obeyed_broken _
  · exact obeyed_mapM fun _ _ _ _ => (obeyed_onProgram trivial).bind fun _ _ _ => obeyed_pure _

theorem rewriting_atom (env : Carriers) (a : Atom) : rewriting.Obeyed (atom env a) s := by
  cases a with
  | temp t =>
      unfold atom
      dsimp only
      split
      · exact obeyed_pure _
      · exact obeyed_broken _
  | lit l => exact obeyed_pure _
  | top id index site => exact rewriting_topAtoms id index

theorem rewriting_atoms (env : Carriers) (as : List Atom) : rewriting.Obeyed (atoms env as) s :=
  (obeyed_mapM fun a _ _ _ => rewriting_atom env a).bind fun _ _ _ => obeyed_pure _

theorem rewriting_singleAtom (env : Carriers) (a : Atom) :
    rewriting.Obeyed (singleAtom env a) s := by
  unfold singleAtom
  refine (rewriting_atom env a).bind fun _ _ _ => ?_
  split
  · exact obeyed_pure _
  · exact obeyed_broken _

theorem rewriting_recorded {α : Type} (inst : Option α) (d : Defect) :
    rewriting.Obeyed (recorded inst d) s := by
  cases inst with
  | none => exact obeyed_broken _
  | some i => exact obeyed_pure _

theorem rewriting_call (env : Carriers) (c : BlockCall) : rewriting.Obeyed (call env c) s := by
  unfold call
  exact (rewriting_atoms env _).bind fun _ _ _ => (rewriting_recorded _ _).bind fun _ _ _ =>
    (obeyed_blockTypeOf _).bind fun _ _ _ => obeyed_pure _

theorem rewriting_tail (env : Carriers) (t : Tail) : rewriting.Obeyed (tail env t) s := by
  have hmade (args : List Atom) (inst : Option AllocType) (f : List Atom → AllocType → Tail)
      (s : State) : rewriting.Obeyed (do
        let args ← atoms env args
        let inst ← recorded inst .allocationWithoutInstance
        return f args (← allocTypeOf inst)) s :=
    (rewriting_atoms env _).bind fun _ _ _ => (rewriting_recorded _ _).bind fun _ _ _ =>
      (obeyed_allocTypeOf _).bind fun _ _ _ => obeyed_pure _
  cases t with
  | ret args => exact (rewriting_atoms env _).bind fun _ _ _ => obeyed_pure _
  | call c => exact (rewriting_call env c).bind fun _ _ _ => obeyed_pure _
  | prim q args inst =>
      refine (rewriting_atoms env _).bind fun _ _ _ => (rewriting_wideAccess _).bind fun _ _ _ => ?_
      split
      · exact obeyed_pure _
      · exact (rewriting_wordPrim _).bind fun _ _ _ => obeyed_pure _
  | alloc k args inst => exact hmade args inst (fun as i => .alloc k as (some i)) s
  | data k args inst =>
      unfold tail
      dsimp only
      split
      · exact obeyed_pure _
      · exact hmade args inst (fun as i => .data k as (some i)) s
  | enter fn args =>
      exact (rewriting_singleAtom env _).bind fun _ _ _ => (rewriting_atoms env _).bind fun _ _ _ =>
        obeyed_pure _
  | sel k field arg inst => exact obeyed_broken _

theorem rewriting_selection (env : Carriers) (vs : List Temp) (k : Cfun) (field : Nat) (arg : Atom)
    (inst : AllocType) (next : Code) :
    rewriting.Obeyed (selection env vs k field arg inst next) s := by
  unfold selection
  refine (obeyed_allocTypeOf _).bind fun _ _ _ => (obeyed_repsOfAll _).bind fun _ _ _ => ?_
  refine (obeyed_repsOf _).bind fun _ _ _ => ?_
  dsimp only
  split
  · exact obeyed_throw_bind (rewriting.defect _)
  split
  · exact obeyed_pure _
  · exact (rewriting_singleAtom env _).bind fun _ _ _ => obeyed_pure _

theorem rewriting_done (env : Carriers) (t : Tail) : rewriting.Obeyed (done env t) s := by
  cases t with
  | sel k field arg inst =>
      unfold done
      dsimp only
      refine (rewriting_recorded _ _).bind fun _ _ _ => (obeyed_repsOf _).bind fun _ _ _ => ?_
      refine (obeyed_freshTemps _).bind fun _ _ _ => ?_
      split
      · exact (obeyed_allocTypeOf _).bind fun _ _ _ => (obeyed_repsOfAll _).bind fun _ _ _ =>
          (rewriting_singleAtom env _).bind fun _ _ _ => obeyed_pure _
      · exact rewriting_selection _ _ _ _ _ _ _
  | _ => exact (rewriting_tail env _).bind fun _ _ _ => obeyed_pure _

theorem rewriting_code (env : Carriers) (c : Code) : rewriting.Obeyed (code env c) s := by
  induction c generalizing env s with
  | bind vars t next ih =>
      cases t with
      | sel k field arg inst =>
          unfold code
          exact (rewriting_recorded _ _).bind fun _ _ _ => (rewriting_bindTemps _ _).bind
            fun _ _ _ => (ih _).bind fun _ _ _ => rewriting_selection _ _ _ _ _ _ _
      | _ =>
          exact (rewriting_tail env _).bind fun _ _ _ => (rewriting_bindTemps _ _).bind
            fun _ _ _ => (ih _).bind fun _ _ _ => obeyed_pure _
  | done t => exact rewriting_done env t
  | branch cond c d =>
      exact (rewriting_singleAtom env _).bind fun _ _ _ => (rewriting_call env c).bind fun _ _ _ =>
        (rewriting_call env d).bind fun _ _ _ => obeyed_pure _
  | case scrut alts default =>
      unfold code
      refine (rewriting_atom env scrut).bind fun _ _ _ => ?_
      split
      · exact (rewriting_call env _).bind fun _ _ _ => obeyed_pure _
      · exact (rewriting_call env _).bind fun _ _ _ => obeyed_pure _
      · exact obeyed_broken _
      refine Rules.Obeyed.bind (obeyed_mapM fun x _ _ _ => ?_) fun _ _ _ => ?_
      · exact (rewriting_call env x.2).bind fun _ _ _ => obeyed_pure _
      cases default with
      | none => exact (obeyed_pure _).bind fun _ _ _ => obeyed_pure _
      | some c =>
          have hmap : Option.mapM (call env) (some c) = call env c >>= fun c => pure (some c) := rfl
          rw [hmap, bind_assoc]
          exact (rewriting_call env c).bind fun _ _ _ => obeyed_pure _

theorem rewriting_tailOf (c : Code) (name : String) (params : List Temp) (rng : Ty) :
    rewriting.Obeyed (tailOf c name params rng) s := by
  cases c with
  | done t => exact obeyed_pure _
  | _ =>
      exact (obeyed_onProgram trivial).bind fun _ _ _ => (obeyed_addBuiltin _ _).bind fun _ _ _ =>
        obeyed_pure _

theorem rewriting_presentTail (env : Carriers) (t : Option Tail) :
    rewriting.Obeyed (presentTail env t) s := by
  cases t with
  | none => exact obeyed_broken _
  | some t => exact rewriting_done env t

theorem rewriting_body (id : DefnId) : rewriting.Obeyed (body id) s := by
  have hset (body : DefnBody) (s : State) : rewriting.Obeyed (setBody id body) s :=
    obeyed_onProgram trivial
  unfold body
  refine obeyed_get_bind ?_
  dsimp only
  cases s.program.defns[id]? with
  | none => exact obeyed_broken _
  | some d =>
  dsimp only
  cases d.body with
  | block b =>
      refine (rewriting_bindTemps _ _).bind fun _ _ _ => ?_
      cases b.body with
      | none => exact obeyed_broken _
      | some c =>
          exact (rewriting_code _ c).bind fun _ _ _ => (rewriting_recorded _ _).bind fun _ _ _ =>
            (obeyed_blockTypeOf _).bind fun _ _ _ => hset _ _
  | closure k =>
      refine (rewriting_bindTemps _ _).bind fun _ _ _ => (rewriting_bindTemps _ _).bind fun _ _ _ => ?_
      refine (rewriting_recorded _ _).bind fun _ _ _ => (obeyed_allocTypeOf _).bind fun _ _ _ => ?_
      exact (rewriting_presentTail _ _).bind fun _ _ _ => (rewriting_tailOf _ _ _ _).bind
        fun _ _ _ => hset _ _
  | top t =>
      exact (rewriting_presentTail _ _).bind fun _ _ _ => (rewriting_tailOf _ _ _ _).bind
        fun _ _ _ => hset _ _
  | external e =>
      dsimp only
      split
      · exact hset _ _
      · exact obeyed_pure _

end Rewriting

/-- A failure is a failure of the first round. -/
theorem headers_of_transform {f : Failure} {s s' : State}
    (h : transform s = (.error (.failure f), s')) :
    (s.program.reachable.forM header) s = (.error (.failure f), s') := by
  have hrounds : transform s = ExceptT.bindCont (fun _ => s.program.reachable.forM body)
      ((s.program.reachable.forM header) s).1 ((s.program.reachable.forM header) s).2 := rfl
  rw [hrounds] at h
  rcases hfirst : (s.program.reachable.forM header) s with ⟨e | _, s₁⟩
  · rw [hfirst] at h
    cases h
    rfl
  · rw [hfirst] at h
    have hsecond : (s.program.reachable.forM body) s₁ = (.error (.failure f), s') := h
    have hbodies : rewriting.Obeyed (s.program.reachable.forM body) s₁ :=
      obeyed_forM fun id _ _ _ => rewriting_body id
    exact absurd rfl (hbodies.2 (.failure f) (congrArg Prod.fst hsecond) f)

end Rep

open Mil.Rep

/-- When a change of representation fails, the failure is at an external that can be reached; and the
program that is left has everything as it was but implementations of externals, though temporaries
and definitions may have been added. -/
theorem Program.represent_failure {p q : Program} {size : Int} {f : Failure}
    (h : p.represent size = (.error (.failure f), q)) :
    p.Resolves q ∧ f.kind = .structural ∧ p.ExternalAt f.pos := by
  unfold Program.represent at h
  cases htable : TypeTable.new size with
  | error e =>
      rw [htable] at h
      cases h
  | ok table =>
  rw [htable] at h
  dsimp only at h
  generalize hrun : transform.run ⟨p, table, [], [], [], []⟩ = x at h
  obtain ⟨r, s⟩ := x
  obtain ⟨rfl, rfl⟩ := Prod.mk.inj h
  have hheaders := headers_of_transform hrun
  obtain ⟨hresolves, hstops⟩ := obeyed_headers (s := ⟨p, table, [], [], [], []⟩)
    (List.Subset.refl p.reachable)
  rw [hheaders] at hresolves hstops
  exact ⟨hresolves, hstops _ rfl f rfl⟩

end Mil
