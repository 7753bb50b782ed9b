import Mil.Proofs.Mono.Fill

/-!
How specialisation fails. Entrypoints are looked at before anything is asked for, and nothing that
comes after fails. So a failure is about an entrypoint of the program, which is still as it was given;
but for the bound on the number of copies, which no program comes to that ends.
-/

namespace Mil

namespace Mono

/-- The step ends with the failure and leaves another state. -/
def Fails {α : Type} (x : MonoM α) (s : State) (f : Failure) (s' : State) : Prop :=
  x s = (.error (.failure f), s')

/-- If the step stops, an invariant is broken. -/
def Unfailing {α : Type} (x : MonoM α) : Prop := ∀ s f s', ¬ Fails x s f s'

section Unfailing

variable {α β : Type} {x : MonoM α}

/-- Either the first step fails, or the second does after it. -/
theorem fails_bind {g : α → MonoM β} {s s' : State} {f : Failure} :
    Fails (x >>= g) s f s' ↔ Fails x s f s' ∨ ∃ a s₁, Yields x s a s₁ ∧ Fails (g a) s₁ f s' := by
  have hbind : (x >>= g) s = ExceptT.bindCont g (x s).1 (x s).2 := rfl
  unfold Fails Yields
  rw [hbind]
  rcases x s with ⟨e | a, s₁⟩
  · refine ⟨fun h => .inl ?_, fun h => h.elim (fun h => ?_) nofun⟩
    · cases h
      rfl
    · cases h
      rfl
  · refine ⟨fun h => .inr ⟨a, s₁, rfl, h⟩, ?_⟩
    rintro (h | ⟨a', s₂, hr, h⟩)
    · cases h
    · cases hr
      exact h

theorem unfailing_pure (a : α) : Unfailing (pure a) := by
  intro s f s' h
  cases h

theorem unfailing_get : Unfailing get := by
  intro s f s' h
  cases h

theorem unfailing_set (s : State) : Unfailing (set s) := by
  intro s f s' h
  cases h

theorem unfailing_modify (g : State → State) : Unfailing (modify g) := by
  intro s f s' h
  cases h

theorem unfailing_broken (d : Defect) : Unfailing (broken d : MonoM α) := by
  intro s f s' h
  cases h

theorem Unfailing.bind {g : α → MonoM β} (hx : Unfailing x) (hg : ∀ a, Unfailing (g a)) :
    Unfailing (x >>= g) := by
  intro s f s' h
  rcases fails_bind.mp h with h | ⟨a, s₁, -, h⟩
  · exact hx s f s' h
  · exact hg a s₁ f s' h

theorem unfailing_broken_bind (d : Defect) (g : α → MonoM β) :
    Unfailing ((broken d : MonoM α) >>= g) := by
  intro s f s' h
  rcases fails_bind.mp h with h | ⟨a, s₁, hbroken, -⟩
  · exact unfailing_broken d s f s' h
  · exact not_yields_broken hbroken

theorem Unfailing.map (hx : Unfailing x) (f : α → β) : Unfailing (f <$> x) := by
  rw [map_eq_pure_bind]
  exact hx.bind fun _ => unfailing_pure _

theorem unfailing_mapM {f : α → MonoM β} (hf : ∀ a, Unfailing (f a)) (as : List α) :
    Unfailing (as.mapM f) := by
  induction as with
  | nil =>
      rw [List.mapM_nil]
      exact unfailing_pure _
  | cons a as ih =>
      rw [List.mapM_cons]
      exact (hf a).bind fun _ => ih.bind fun _ => unfailing_pure _

theorem unfailing_optionMapM {f : α → MonoM β} (hf : ∀ a, Unfailing (f a)) (a : Option α) :
    Unfailing (a.mapM f) := by
  cases a with
  | none => exact unfailing_pure none
  | some a => exact (hf a).bind fun _ => unfailing_pure _

end Unfailing

/-! ### Requests -/

theorem unfailing_definition (id : DefnId) : Unfailing (definition id) := by
  unfold definition
  refine unfailing_get.bind fun s => ?_
  split
  · exact unfailing_pure _
  · exact unfailing_broken _

theorem unfailing_store : Unfailing store := unfailing_get.bind fun _ => unfailing_pure _

theorem unfailing_known? (k : CloneKey) : Unfailing (known? k) :=
  unfailing_get.bind fun _ => unfailing_pure _

theorem unfailing_add (d : Defn) : Unfailing (add d) :=
  unfailing_get.bind fun _ => (unfailing_set _).bind fun _ => unfailing_pure _

theorem unfailing_nextNumber (id : DefnId) : Unfailing (nextNumber id) :=
  unfailing_get.bind fun _ => (unfailing_modify _).bind fun _ => unfailing_pure _

theorem unfailing_mono (id : DefnId) : Unfailing (mono id) := by
  unfold mono
  refine (unfailing_known? _).bind fun r => ?_
  dsimp only
  split
  · exact (unfailing_modify _).bind fun _ => (unfailing_modify _).bind fun _ => unfailing_pure _
  · exact unfailing_pure _

theorem unfailing_specializing (vars : List Nat) (slots : Slots) :
    Unfailing (specializing vars slots) := by
  unfold specializing
  refine unfailing_store.bind fun s => ?_
  split
  · exact unfailing_pure _
  · exact unfailing_broken _

/-- A copy is added, remembered and put into the queue. -/
theorem unfailing_clone (id : DefnId) (k : CloneKey) (vars : List Nat) (slots : Slots)
    (d : Nat → Defn) : Unfailing (do
      let n ← nextNumber id
      let c ← add (d n)
      remember k c
      enqueue ⟨id, c, ← specializing vars slots⟩
      return c) :=
  (unfailing_nextNumber id).bind fun _ => (unfailing_add _).bind fun _ =>
    (unfailing_modify _).bind fun _ => (unfailing_specializing _ _).bind fun _ =>
      (unfailing_modify _).bind fun _ => unfailing_pure _

theorem unfailing_block (id : DefnId) (inst : BlockType) : Unfailing (block id inst) := by
  unfold block
  refine (unfailing_definition id).bind fun d => ?_
  split
  · split
    · exact unfailing_mono id
    refine unfailing_store.bind fun s => (unfailing_known? _).bind fun r => ?_
    dsimp only
    split
    · exact unfailing_pure _
    split
    · exact unfailing_broken_bind _ _
    · exact unfailing_clone id _ _ _ _
  · exact unfailing_broken _

theorem unfailing_closure (id : DefnId) (inst : AllocType) : Unfailing (closure id inst) := by
  unfold closure
  refine (unfailing_definition id).bind fun d => ?_
  split
  · split
    · exact unfailing_mono id
    refine unfailing_store.bind fun s => (unfailing_known? _).bind fun r => ?_
    dsimp only
    split
    · exact unfailing_pure _
    split
    · exact unfailing_broken_bind _ _
    · exact unfailing_clone id _ _ _ _
  · exact unfailing_broken _

theorem unfailing_topLevel (id : DefnId) (d : Defn) (t : TopLevel) (index : Nat) (inst : Option Ty) :
    Unfailing (topLevel id d t index inst) := by
  unfold topLevel
  split
  · exact unfailing_mono id
  refine unfailing_store.bind fun s => (unfailing_known? _).bind fun r => ?_
  dsimp only
  split
  · exact unfailing_pure _
  split
  · exact unfailing_broken _
  split
  · exact unfailing_broken_bind _ _
  · refine (unfailing_specializing _ _).bind fun sub => (unfailing_nextNumber id).bind fun n => ?_
    exact (unfailing_add _).bind fun c => (unfailing_modify _).bind fun _ =>
      (unfailing_modify _).bind fun _ => unfailing_pure _

theorem unfailing_external (id : DefnId) (d : Defn) (e : Mil.External) (inst : Option Ty) :
    Unfailing (external id d e inst) := by
  unfold external
  split
  · exact unfailing_pure _
  refine unfailing_store.bind fun s => (unfailing_known? _).bind fun r => ?_
  dsimp only
  split
  · exact unfailing_pure _
  split
  · exact unfailing_broken_bind _ _
  · exact (unfailing_nextNumber id).bind fun _ => (unfailing_add _).bind fun _ =>
      (unfailing_modify _).bind fun _ => unfailing_pure _

theorem unfailing_topRef (id : DefnId) (index : Nat) (inst : Option Ty) :
    Unfailing (topRef id index inst) := by
  unfold topRef
  refine (unfailing_definition id).bind fun d => ?_
  split
  · exact (unfailing_topLevel _ _ _ _ _).bind fun _ => unfailing_pure _
  · exact (unfailing_external _ _ _ _).bind fun _ => unfailing_pure _
  · exact unfailing_broken _

theorem unfailing_prim (q : Prim) (inst : BlockType) : Unfailing (prim q inst) := by
  unfold prim
  split
  · exact unfailing_pure _
  refine unfailing_get.bind fun s => ?_
  dsimp only
  split
  · exact unfailing_pure _
  · exact (unfailing_set _).bind fun _ => unfailing_pure _

/-! ### Copies -/

section Copies

variable (sub : TySubst)

theorem unfailing_typeAt (t : Ty) : Unfailing (typeAt sub t) :=
  unfailing_store.bind fun _ => unfailing_pure _

theorem unfailing_blockTypeAt (b : Option BlockType) : Unfailing (blockTypeAt sub b) := by
  cases b with
  | none => exact unfailing_broken _
  | some b =>
      exact (unfailing_typeAt sub _).bind fun _ => (unfailing_typeAt sub _).bind fun _ =>
        unfailing_pure _

theorem unfailing_allocTypeAt (a : Option AllocType) : Unfailing (allocTypeAt sub a) := by
  cases a with
  | none => exact unfailing_broken _
  | some a =>
      exact (unfailing_mapM (unfailing_typeAt sub) _).bind fun _ =>
        (unfailing_typeAt sub _).bind fun _ => unfailing_pure _

theorem unfailing_temps (env : Renames) (vs : List Temp) : Unfailing (temps sub env vs) := by
  unfold temps
  refine (unfailing_mapM (fun v => ?_) vs).bind fun types => ?_
  · exact unfailing_get.bind fun _ => unfailing_optionMapM (unfailing_typeAt sub) _
  · exact unfailing_get.bind fun _ => (unfailing_set _).bind fun _ => unfailing_pure _

theorem unfailing_atom (env : Renames) (a : Atom) : Unfailing (atom sub env a) := by
  cases a with
  | temp t =>
      unfold atom
      dsimp only
      split
      · exact unfailing_pure _
      · exact unfailing_broken _
  | lit l => exact unfailing_pure _
  | top id index site =>
      refine unfailing_get.bind fun s => ?_
      refine (unfailing_optionMapM (unfailing_typeAt sub) _).bind fun inst => ?_
      refine (unfailing_topRef id index inst).bind fun r => ?_
      exact unfailing_get.bind fun _ => (unfailing_set _).bind fun _ => unfailing_pure _

theorem unfailing_atoms (env : Renames) (as : List Atom) : Unfailing (as.mapM (atom sub env)) :=
  unfailing_mapM (unfailing_atom sub env) as

theorem unfailing_call (env : Renames) (c : BlockCall) : Unfailing (call sub env c) :=
  (unfailing_blockTypeAt sub _).bind fun _ => (unfailing_block _ _).bind fun _ =>
    (unfailing_atoms sub env _).bind fun _ => unfailing_pure _

theorem unfailing_tail (env : Renames) (t : Tail) : Unfailing (tail sub env t) := by
  cases t with
  | ret args => exact (unfailing_atoms sub env _).bind fun _ => unfailing_pure _
  | call c => exact (unfailing_call sub env c).bind fun _ => unfailing_pure _
  | prim q args inst =>
      exact (unfailing_blockTypeAt sub _).bind fun _ => (unfailing_prim _ _).bind fun _ =>
        (unfailing_atoms sub env _).bind fun _ => unfailing_pure _
  | alloc k args inst =>
      exact (unfailing_allocTypeAt sub _).bind fun _ => (unfailing_closure _ _).bind fun _ =>
        (unfailing_atoms sub env _).bind fun _ => unfailing_pure _
  | data k args inst =>
      exact (unfailing_atoms sub env _).bind fun _ => (unfailing_allocTypeAt sub _).bind fun _ =>
        unfailing_pure _
  | enter fn args =>
      exact (unfailing_atom sub env _).bind fun _ => (unfailing_atoms sub env _).bind fun _ =>
        unfailing_pure _
  | sel k field arg inst =>
      exact (unfailing_atom sub env _).bind fun _ => (unfailing_allocTypeAt sub _).bind fun _ =>
        unfailing_pure _

theorem unfailing_code (env : Renames) (c : Code) : Unfailing (code sub env c) := by
  induction c generalizing env with
  | bind vars t next ih =>
      exact (unfailing_tail sub env t).bind fun _ => (unfailing_temps sub env vars).bind fun _ =>
        (ih _).bind fun _ => unfailing_pure _
  | done t => exact (unfailing_tail sub env t).bind fun _ => unfailing_pure _
  | branch cond c d =>
      exact (unfailing_atom sub env cond).bind fun _ => (unfailing_call sub env c).bind fun _ =>
        (unfailing_call sub env d).bind fun _ => unfailing_pure _
  | case scrut alts default =>
      refine Unfailing.bind (unfailing_mapM (fun x => ?_) alts) fun _ => ?_
      · exact (unfailing_call sub env x.2).bind fun _ => unfailing_pure _
      · exact (unfailing_atom sub env scrut).bind fun _ =>
          (unfailing_optionMapM (unfailing_call sub env) default).bind fun _ => unfailing_pure _

theorem unfailing_presentTail (env : Renames) (t : Option Tail) :
    Unfailing (presentTail sub env t) := by
  cases t with
  | none => exact unfailing_broken _
  | some t => exact unfailing_tail sub env t

end Copies

theorem unfailing_ownType {α : Type} (q : Pending) (present : Option α) {own : MonoM α}
    (h : Unfailing own) : Unfailing (ownType q present own) := by
  unfold ownType
  split
  · exact h.map some
  · exact unfailing_pure _

theorem unfailing_fill (q : Pending) : Unfailing (fill q) := by
  unfold fill
  refine (unfailing_definition _).bind fun source => (unfailing_definition _).bind fun clone => ?_
  split
  · rename_i o c _ _
    refine (unfailing_temps _ _ _).bind fun r => ?_
    dsimp only
    split
    · exact unfailing_broken _
    · exact (unfailing_code _ _ _).bind fun _ => (unfailing_ownType _ _
        (unfailing_blockTypeAt _ _)).bind fun _ => unfailing_modify _
  · exact (unfailing_temps _ _ _).bind fun _ => (unfailing_temps _ _ _).bind fun _ =>
      (unfailing_presentTail _ _ _).bind fun _ => (unfailing_ownType _ _
        (unfailing_allocTypeAt _ _)).bind fun _ => unfailing_modify _
  · refine (unfailing_presentTail _ _ _).bind fun _ => ?_
    refine Unfailing.bind (unfailing_mapM (fun l => ?_) _) fun _ => unfailing_modify _
    exact (unfailing_optionMapM (unfailing_typeAt _) _).bind fun _ => unfailing_pure _
  · exact (unfailing_definition _).bind fun _ => unfailing_broken _

/-! ### Entrypoints -/

/-- The definition cannot be an entrypoint, and the failure says why. -/
def Rejects (p : Program) (id : DefnId) (f : Failure) : Prop :=
  ∃ d, p.defns[id]? = some d ∧
    (f = ⟨d.pos, .structural, "external " ++ d.name ++ " cannot be an entrypoint"⟩ ∧
        (∃ e, d.body = .external e) ∨
      f = ⟨d.pos, .structural, "polymorphic entrypoint " ++ d.name⟩ ∧ d.body.isPolymorphic = true)

/-- The check of an entrypoint fails without a change. -/
theorem rejects_of_checkEntry {id : DefnId} {s s' : State} {f : Failure}
    (h : Fails (checkEntry id) s f s') : Rejects s.program id f ∧ s' = s := by
  rw [checkEntry, fails_bind] at h
  rcases h with h | ⟨d, s₁, hdefn, h⟩
  · exact absurd h (unfailing_definition id s f s')
  obtain ⟨hd, rfl⟩ := yields_definition hdefn
  split at h
  · rename_i e hbody
    cases h
    exact ⟨⟨d, hd, .inl ⟨rfl, e, hbody⟩⟩, rfl⟩
  · split at h
    · rename_i hpoly
      cases h
      exact ⟨⟨d, hd, .inr ⟨rfl, hpoly⟩⟩, rfl⟩
    · exact absurd h (unfailing_pure _ _ _ _)

theorem rejects_of_checkEntries {ids : List DefnId} {s s' : State} {f : Failure}
    (h : Fails (ids.forM checkEntry) s f s') : (∃ id ∈ ids, Rejects s.program id f) ∧ s' = s := by
  induction ids with
  | nil => exact absurd h (unfailing_pure _ _ _ _)
  | cons id ids ih =>
      have hsteps : Fails (checkEntry id >>= fun _ => ids.forM checkEntry) s f s' := h
      rcases fails_bind.mp hsteps with hfirst | ⟨_, s₁, hcheck, hrest⟩
      · obtain ⟨hrejects, hsame⟩ := rejects_of_checkEntry hfirst
        exact ⟨⟨id, .head _, hrejects⟩, hsame⟩
      · obtain ⟨rfl, -⟩ := checkEntry_spec hcheck
        obtain ⟨⟨id', hid', hrejects⟩, hsame⟩ := ih hrest
        exact ⟨⟨id', .tail _ hid', hrejects⟩, hsame⟩

theorem not_rejects_of_checkEntry {id : DefnId} {s s' : State} (h : Yields (checkEntry id) s () s')
    (f : Failure) : ¬ Rejects s.program id f := by
  rintro ⟨d, hd, hwhy⟩
  rw [checkEntry, yields_bind] at h
  obtain ⟨d', s₁, hdefn, h⟩ := h
  obtain ⟨hd', rfl⟩ := yields_definition hdefn
  obtain rfl := Option.some.inj (hd.symm.trans hd')
  split at h
  · exact not_yields_throw h
  · rename_i hcode
    split at h
    · exact not_yields_throw h
    · rename_i hmono
      rcases hwhy with ⟨-, e, he⟩ | ⟨-, hpoly⟩
      · exact hcode e he
      · exact hmono hpoly

theorem not_rejects_of_checkEntries {ids : List DefnId} {s s' : State}
    (h : Yields (ids.forM checkEntry) s () s') (f : Failure) : ∀ id ∈ ids, ¬ Rejects s.program id f := by
  induction ids with
  | nil => exact fun _ hid => nomatch hid
  | cons id ids ih =>
      have hsteps : Yields (checkEntry id >>= fun _ => ids.forM checkEntry) s () s' := h
      obtain ⟨_, s₁, hcheck, hrest⟩ := yields_bind.mp hsteps
      have hfirst := not_rejects_of_checkEntry hcheck f
      obtain ⟨rfl, -⟩ := checkEntry_spec hcheck
      exact List.forall_mem_cons.mpr ⟨hfirst, ih hrest⟩

/-- A definition that is used as it is leaves the program alone. -/
theorem program_of_mono {id j : DefnId} {s s' : State} (h : Yields (mono id) s j s') :
    s'.program = s.program := by
  rw [mono, yields_bind] at h
  obtain ⟨r, s₁, hknown, h⟩ := h
  obtain ⟨-, rfl⟩ := yields_known? hknown
  split at h
  · obtain ⟨_, s₂, hremember, h⟩ := yields_bind.mp h
    obtain rfl := yields_modify.mp hremember
    obtain ⟨_, s₃, henqueue, h⟩ := yields_bind.mp h
    obtain rfl := yields_modify.mp henqueue
    obtain ⟨-, rfl⟩ := yields_pure.mp h
    rfl
  · obtain ⟨-, rfl⟩ := yields_pure.mp h
    rfl

/-- Definitions that can be entrypoints are asked for without a failure. -/
theorem not_fails_entries {ids : List DefnId} {s s' : State} {f : Failure}
    (hids : ∀ id ∈ ids, ¬ Rejects s.program id f) :
    ¬ Fails (ids.forM fun id => do let _ ← entry id) s f s' := by
  induction ids generalizing s with
  | nil => exact unfailing_pure _ _ _ _
  | cons id ids ih =>
      intro h
      have hsteps : Fails ((do let _ ← entry id) >>= fun _ =>
        ids.forM fun id => do let _ ← entry id) s f s' := h
      rcases fails_bind.mp hsteps with hfirst | ⟨_, s₁, hfirst, hrest⟩
      · rcases fails_bind.mp hfirst with hentry | ⟨_, _, -, hdone⟩
        · rw [entry, fails_bind] at hentry
          rcases hentry with hcheck | ⟨_, _, -, hmono⟩
          · exact hids id (.head _) (rejects_of_checkEntry hcheck).1
          · exact unfailing_mono _ _ _ _ hmono
        · exact unfailing_pure _ _ _ _ hdone
      · obtain ⟨j, s₂, hentry, hdone⟩ := yields_bind.mp hfirst
        obtain ⟨-, rfl⟩ := yields_pure.mp hdone
        rw [entry, yields_bind] at hentry
        obtain ⟨_, s₃, hcheck, hmono⟩ := hentry
        obtain ⟨rfl, -⟩ := checkEntry_spec hcheck
        have hprogram := program_of_mono hmono
        exact ih (fun id' hid' => hprogram ▸ hids id' (.tail _ hid')) hrest

/-! ### Whole specialisation -/

theorem run_failure {fuel : Nat} {s s' : State} {f : Failure} (h : Fails (run fuel) s f s') :
    f = ⟨.unknown, .structural, "specialization does not end"⟩ := by
  induction fuel generalizing s with
  | zero =>
      rw [run] at h
      rcases fails_bind.mp h with h | ⟨q, s₁, -, h⟩
      · exact absurd h (unfailing_get _ _ _)
      split at h
      · cases h
        rfl
      · exact absurd h (unfailing_pure _ _ _ _)
  | succ fuel ih =>
      rw [run] at h
      rcases fails_bind.mp h with h | ⟨q, s₁, -, h⟩
      · exact absurd h (unfailing_get _ _ _)
      split at h
      · exact absurd h (unfailing_pure _ _ _ _)
      rcases fails_bind.mp h with h | ⟨_, s₂, -, h⟩
      · exact absurd h (unfailing_set _ _ _ _)
      rcases fails_bind.mp h with h | ⟨_, s₃, -, h⟩
      · exact absurd h (unfailing_fill _ _ _ _)
      · exact ih h

/-- A failure is one of the checks of the entrypoints, before anything is asked for: nothing has
changed, and a definition cannot be an entrypoint. -/
theorem program_failure {p : Program} {f : Failure} {s : State} (h : Fails program (.start p) f s)
    (hends : f ≠ ⟨.unknown, .structural, "specialization does not end"⟩) :
    (∃ id ∈ p.entries, Rejects p id f) ∧ s = .start p := by
  rw [program] at h
  rcases fails_bind.mp h with h | ⟨q, s₁, hget, h⟩
  · exact absurd h (unfailing_get _ _ _)
  obtain ⟨rfl, rfl⟩ := yields_get.mp hget
  rcases fails_bind.mp h with hchecks | ⟨_, s₂, hchecks, h⟩
  · exact rejects_of_checkEntries hchecks
  have hentries := not_rejects_of_checkEntries hchecks f
  obtain ⟨rfl, -⟩ := checkEntries_spec hchecks
  rcases fails_bind.mp h with h | ⟨_, s₃, -, h⟩
  · exact absurd h (not_fails_entries hentries)
  · exact absurd (run_failure h) hends

end Mono

end Mil
