import Mil.Optimize.Inline
import Mil.Proofs.Machine.Ends
import Mil.Proofs.Program.Copy

/-!
What bodies, calls and closures come to is read off a derivation, and operands may be replaced by others
that have their values.

Copies of bodies at run time. A body whose parameters are replaced by the operands of a call, and
whose binders are renamed to new temporaries, comes to what the call comes to. If the copy is spliced
into other code, the results of its final tail are bound there, and of the temporaries of that code
none is captured.
-/

namespace Mil.Machine

/-- The second machine has all values that the first has, and the same can be seen of both. -/
structure Abreast (w w₂ : Machine) : Prop extends Beyond w w₂ where
  trace : w₂.trace = w.trace

/-- The job comes to the values on the second machine, with the same to be seen as on the first one and in no
more steps. -/
def Attains (p : Program) (quiet : Prop) (w w₂ w' : Machine) (j : Job) (vs : List Value) : Prop :=
  ∃ w₂', Comes p quiet w₂ j (.ok vs) w₂' ∧ w₂'.trace = w'.trace ∧ w₂'.steps + w.steps ≤ w₂.steps + w'.steps

/-- Whatever values one job comes to in one program at a word size, the other comes to in the other
program, with the same to be seen and in no more steps. -/
structure Improves (size : Int) (p p₂ : Program) (j j₂ : Job) : Prop where
  comes : ∀ {quiet : Prop} {w w₂ w' : Machine} {vs : List Value}, w.size = size → Abreast w w₂ →
    Comes p quiet w j (.ok vs) w' → Attains p₂ quiet w w₂ w' j₂ vs

section Abreast

variable {p p₂ p₃ : Program} {size : Int} {quiet : Prop} {w w₂ w' : Machine} {j j₂ j₃ : Job}
  {vs : List Value}

theorem Abreast.refl (w : Machine) : Abreast w w := ⟨⟨rfl, .refl _⟩, rfl⟩

theorem Abreast.steady {w₁ w₂₁ : Machine} (h : Abreast w w₂) (hs : Steady w w₁) (hs₂ : Steady w₂ w₂₁)
    (htrace : w₂₁.trace = w₁.trace) : Abreast w₁ w₂₁ :=
  ⟨h.toBeyond.steady hs hs₂, htrace⟩

theorem Abreast.tick (h : Abreast w w₂) : Abreast w.tick w₂.tick :=
  h.steady (.tick w) (.tick w₂) h.trace

theorem Abreast.taking (h : Abreast w w₂) (j j₂ : Job) : Abreast (w.taking j) (w₂.taking j₂) := by
  refine h.steady (.taking w j) (.taking w₂ j₂) ?_
  rw [trace_taking, trace_taking, h.trace]

theorem Improves.refl (size : Int) (p : Program) (j : Job) : Improves size p p j j := by
  refine ⟨?_⟩
  intro quiet w w₂ w' vs _ hw hc
  obtain ⟨w₂', hc₂, htrace, -, hsteps⟩ := hc.transfer rfl hw.toBeyond (.inr hw.trace)
  exact ⟨w₂', hc₂, htrace hw.trace, Nat.le_of_eq hsteps⟩

theorem Improves.trans (h : Improves size p p₂ j j₂) (h' : Improves size p₂ p₃ j₂ j₃) :
    Improves size p p₃ j j₃ := by
  refine ⟨?_⟩
  intro quiet w w₂ w' vs hsize hw hc
  obtain ⟨w₂', hc₂, htrace, hsteps⟩ := h.comes hsize hw hc
  obtain ⟨w₃', hc₃, htrace', hsteps'⟩ := h'.comes (hw.size.trans hsize) (.refl w₂) hc₂
  exact ⟨w₃', hc₃, htrace'.trans htrace, by omega⟩

/-- An operand keeps its value on a machine with more values. -/
theorem atom_ok_beyond (h : Beyond w w₂) {env : Locals} {a : Atom} {v : Value}
    (ha : atom p w env a = .ok v) : atom p w₂ env a = .ok v := by
  have hans : Answers False _ Eq (atom p w env a) (atom p w₂ env a) := atom_beyond h False.elim a
  rw [ha] at hans
  generalize atom p w₂ env a = y at hans
  cases hans with
  | ok heq => rw [heq]
  | late h => exact h.elim

end Abreast

/-! ### What bodies, calls and closures come to -/

section Inversion

variable {p : Program} {quiet : Prop} {w w' : Machine} {env : Locals} {vs : List Value} {t : Tail}

theorem move_tail_ne_bind {vars : List Temp} {t' : Tail} {env' : Locals} {next : Code} {w₁ : Machine} :
    Job.move p w (.tail t env) ≠ .ok (.bind vars t' env' next, w₁) := by
  intro h
  obtain ⟨e, -, hmv⟩ := move_tail_inv h
  unfold Effect.move at hmv
  split at hmv <;> cases hmv

theorem Comes.bind_inv {vars : List Temp} {next : Code} {r : Except Failure (List Value)}
    (h : Comes p quiet w (.code (.bind vars t next) env) r w') :
    (∃ vs₁ w₁, Comes p quiet w.tick (.tail t env) (.ok vs₁) w₁ ∧ vs₁.length = vars.length ∧
      Comes p quiet w₁ (.code next (assign env vars vs₁)) r w') ∨
    ∃ f, r = .error f ∧ Comes p quiet w.tick (.tail t env) (.error f) w' := by
  cases h with
  | values hq hmove => cases hmove
  | fails hmove => cases hmove
  | job hq hmove => cases hmove
  | bind hq hmove htail hlen hnext =>
      cases hmove
      exact .inl ⟨_, _, htail, hlen, hnext⟩
  | breaks hq hmove htail =>
      cases hmove
      exact .inr ⟨_, rfl, htail⟩

theorem Comes.done_inv (h : Comes p quiet w (.code (.done t) env) (.ok vs) w') :
    Comes p quiet w.tick (.tail t env) (.ok vs) w' := by
  cases h with
  | values hq hmove => cases hmove
  | bind hq hmove => cases hmove
  | job hq hmove htail =>
      cases hmove
      exact htail

/-- A call comes to what the body of its block comes to. -/
theorem Comes.call_inv {c : BlockCall} (h : Comes p quiet w (.tail (.call c) env) (.ok vs) w') :
    ∃ vals b body w₁, List.Forall₂ (fun a v => atom p w env a = .ok v) c.args vals ∧
      p.block (p.resolve c.block) = .ok b ∧ b.body = some body ∧ Still w w₁ ∧ w₁.trace = w.trace ∧
      Comes p quiet w₁ (.code body (assign [] b.params vals)) (.ok vs) w' := by
  have hinv {mv : Move} {w₁ : Machine} (hmove : Job.move p w (.tail (.call c) env) = .ok (mv, w₁)) :
      ∃ vals b body, List.Forall₂ (fun a v => atom p w env a = .ok v) c.args vals ∧
        p.block (p.resolve c.block) = .ok b ∧ b.body = some body ∧
        mv = .job (.code body (assign [] b.params vals)) := by
    obtain ⟨e, hop, hmv⟩ := move_tail_inv hmove
    obtain ⟨vals, b, pos, hvals, hb, rfl, -⟩ := operate_call_inv hop
    cases hbody : b.body with
    | none =>
        rw [hbody] at hmv
        cases hmv
    | some body =>
        rw [hbody] at hmv
        cases hmv
        exact ⟨vals, b, body, atoms_eq_ok.mp hvals, hb, hbody, rfl⟩
  cases h with
  | values hq hmove =>
      obtain ⟨_, _, _, -, -, -, h⟩ := hinv hmove
      cases h
  | bind hq hmove => exact absurd hmove move_tail_ne_bind
  | job hq hmove hrest =>
      obtain ⟨vals, b, body, hvals, hb, hbody, h⟩ := hinv hmove
      cases h
      exact ⟨vals, b, body, _, hvals, hb, hbody, still_move hmove, trace_of_move rfl hmove, hrest⟩

/-- A closure that is entered comes to what its tail comes to. -/
theorem Comes.enter_inv {fn : Atom} {args : List Atom}
    (h : Comes p quiet w (.tail (.enter fn args) env) (.ok vs) w') :
    ∃ id fields vals k t w₁, atom p w env fn = .ok (.closure id fields) ∧
      List.Forall₂ (fun a v => atom p w env a = .ok v) args vals ∧ p.closure (p.resolve id) = .ok k ∧
      k.tail = some t ∧ Still w w₁ ∧ w₁.trace = w.trace ∧
      Comes p quiet w₁.tick (.tail t (assign (assign [] k.params fields) k.args vals)) (.ok vs) w' := by
  have hinv {mv : Move} {w₁ : Machine} (hmove : Job.move p w (.tail (.enter fn args) env) = .ok (mv, w₁)) :
      ∃ id fields vals k t, atom p w env fn = .ok (.closure id fields) ∧
        List.Forall₂ (fun a v => atom p w env a = .ok v) args vals ∧ p.closure (p.resolve id) = .ok k ∧
        k.tail = some t ∧ mv = .job (.tail t (assign (assign [] k.params fields) k.args vals)) := by
    obtain ⟨e, hop, hmv⟩ := move_tail_inv hmove
    obtain ⟨id, fields, vals, k, pos, hfn, hvals, hk, rfl, -⟩ := operate_enter_inv hop
    cases ht : k.tail with
    | none =>
        rw [ht] at hmv
        cases hmv
    | some t =>
        rw [ht] at hmv
        cases hmv
        exact ⟨id, fields, vals, k, t, hfn, atoms_eq_ok.mp hvals, hk, ht, rfl⟩
  cases h with
  | values hq hmove =>
      obtain ⟨_, _, _, _, _, -, -, -, -, h⟩ := hinv hmove
      cases h
  | bind hq hmove => exact absurd hmove move_tail_ne_bind
  | job hq hmove hrest =>
      obtain ⟨id, fields, vals, k, t, hfn, hvals, hk, ht, h⟩ := hinv hmove
      cases h
      exact ⟨id, fields, vals, k, t, _, hfn, hvals, hk, ht, still_move hmove, trace_of_move rfl hmove, hrest⟩

end Inversion

/-! ### Operands that are replaced -/

section Replaced

variable {p : Program} {quiet : Prop} {w w₂ w' : Machine} {env env₂ : Locals} {vs : List Value}
  {f : Atom → Atom}

/-- What the operands have as values, the replaced operands have as values. -/
def SameReads (p : Program) (w w₂ : Machine) (env env₂ : Locals) (f : Atom → Atom)
    (as : List Atom) : Prop :=
  ∀ a ∈ as, ∀ v, atom p w env a = .ok v → atom p w₂ env₂ (f a) = .ok v

/-- The temporaries that are read have the same values. -/
def AgreeOn (as : List Atom) (env env₂ : Locals) : Prop :=
  ∀ t, Atom.temp t ∈ as → env₂.lookup t = env.lookup t

theorem AgreeOn.sameReads {as : List Atom} (h : AgreeOn as env env₂) (hw : Beyond w w₂) :
    SameReads p w w₂ env env₂ id as := by
  intro a ha v hv
  refine atom_ok_beyond hw ?_
  cases a with
  | temp t =>
      unfold atom at hv ⊢
      dsimp only at hv ⊢
      rw [id_def]
      dsimp only
      rw [h t ha]
      exact hv
  | lit l => exact hv
  | top i index site => exact hv

theorem leavesTrace_mapAtoms (t : Tail) (f : Atom → Atom) :
    (t.mapAtoms f).leavesTrace = t.leavesTrace := by
  cases t <;> rfl

/-- A tail whose operands are replaced makes the same move. -/
theorem move_replaced {t : Tail} {mv : Move} {w₁ : Machine}
    (hmove : Job.move p w (.tail t env) = .ok (mv, w₁)) (hw : Abreast w w₂)
    (hatoms : SameReads p w w₂ env env₂ f t.atoms) :
    ∃ w₂₁, Job.move p w₂ (.tail (t.mapAtoms f) env₂) = .ok (mv, w₂₁) ∧ Abreast w₁ w₂₁ ∧
      w₂₁.steps + w.steps = w₂.steps + w₁.steps := by
  obtain ⟨e, hop, hmv⟩ := move_tail_inv hmove
  have hans : Answers False (fun _ => False) (Alongside t.leavesTrace w w₂) (operate p w env t)
      (operate p w₂ env₂ (t.mapAtoms f)) :=
    operate_answers hw.size False.elim (fun _ => hw.trace) fun a ha =>
      answers_of_ok fun v hv => ⟨v, hatoms a ha v hv, rfl⟩
  rw [hop] at hans
  generalize hop₂ : operate p w₂ env₂ (t.mapAtoms f) = y at hans
  cases hans with
  | late h => exact h.elim
  | @ok _ x hr =>
      obtain ⟨e₂, w₂₁⟩ := x
      obtain ⟨heffect, hecho, -⟩ := hr
      dsimp only at heffect
      subst heffect
      have hs := still_operate hop
      have hs₂ := still_operate hop₂
      refine ⟨w₂₁, ?_, hw.steady hs.toSteady hs₂.toSteady (hecho.trace_eq hw.trace), ?_⟩
      · exact Except.bind_eq_ok.mpr ⟨_, hop₂, Except.bind_eq_ok.mpr ⟨mv, hmv, rfl⟩⟩
      · rw [hs.steps, hs₂.steps]

/-- A tail whose operands are replaced comes to the same values. -/
theorem Comes.replaced {t : Tail} (h : Comes p quiet w (.tail t env) (.ok vs) w') (hw : Abreast w w₂)
    (hatoms : SameReads p w w₂ env env₂ f t.atoms) :
    Attains p quiet w w₂ w' (.tail (t.mapAtoms f) env₂) vs := by
  have hquiet {t : Tail} (h : quiet → (Job.tail t env).leavesTrace = false) :
      quiet → (Job.tail (t.mapAtoms f) env₂).leavesTrace = false :=
    fun hq => (leavesTrace_mapAtoms t f).trans (h hq)
  cases h with
  | values hq hmove =>
      obtain ⟨w₂', hmove₂, hw', hsteps⟩ := move_replaced hmove hw hatoms
      exact ⟨w₂', .values (hquiet hq) hmove₂, hw'.trace, Nat.le_of_eq hsteps⟩
  | @job _ w₁ _ _ j' _ hq hmove hrest =>
      obtain ⟨w₂₁, hmove₂, hw₁, hsteps⟩ := move_replaced hmove hw hatoms
      obtain ⟨w₂', hc₂, htrace, hsteps'⟩ := (Improves.refl _ p j').comes rfl (hw₁.taking j' j') hrest
      rw [steps_taking, steps_taking] at hsteps'
      exact ⟨w₂', .job (hquiet hq) hmove₂ hc₂, htrace, by omega⟩
  | bind _ hmove => exact absurd hmove move_tail_ne_bind

/-- A branch whose operands are replaced makes the same call, with its operands replaced. -/
theorem move_code_replaced {c : Code} {j' : Job} {w₁ : Machine}
    (hmove : Job.move p w (.code c env) = .ok (.job j', w₁))
    (hatoms : SameReads p w w₂ env env₂ f c.atoms) :
    w₁ = w ∧ ∃ t, j' = .tail t env ∧ t.atoms ⊆ c.atoms ∧
      Job.move p w₂ (.code (c.mapAtoms f) env₂) = .ok (.job (.tail (t.mapAtoms f) env₂), w₂) := by
  have hone {a : Atom} (ha : a ∈ c.atoms) : Answers False (fun _ => False) Eq (atom p w env a)
      (atom p w₂ env₂ (f a)) := answers_of_ok fun v hv => ⟨v, hatoms a ha v hv, rfl⟩
  cases c with
  | bind vars t next => cases hmove
  | done t =>
      cases hmove
      exact ⟨rfl, t, rfl, fun _ h => h, rfl⟩
  | branch cond c d =>
      obtain ⟨call, hcall, hmove⟩ := Except.bind_eq_ok.mp hmove
      cases hmove
      have hans := chooseFlag_answers (fun h : False => h.elim) c d (hone (.head _))
      rw [hcall] at hans
      generalize hcall₂ : chooseFlag p w₂ env₂ (f cond) (c.mapAtoms f) (d.mapAtoms f) = y at hans
      cases hans with
      | late h => exact h.elim
      | ok hr =>
          obtain ⟨rfl, hmem⟩ := hr
          refine ⟨rfl, .call call, rfl, ?_, ?_⟩
          · rcases hmem with rfl | rfl
            · exact fun a ha => .tail _ (List.mem_append_left _ ha)
            · exact fun a ha => .tail _ (List.mem_append_right _ ha)
          · exact Except.bind_eq_ok.mpr ⟨_, hcall₂, rfl⟩
  | case scrut alts default =>
      obtain ⟨call, hcall, hmove⟩ := Except.bind_eq_ok.mp hmove
      cases hmove
      have hans := chooseAlt_answers (fun h : False => h.elim) alts default (hone (.head _))
      rw [hcall] at hans
      generalize hcall₂ : chooseAlt p w₂ env₂ (f scrut) (alts.map fun a => (a.1, a.2.mapAtoms f))
        (default.map (·.mapAtoms f)) = y at hans
      cases hans with
      | late h => exact h.elim
      | ok hr =>
          obtain ⟨rfl, hmem⟩ := hr
          refine ⟨rfl, .call call, rfl, ?_, ?_⟩
          · exact fun a ha => .tail _ (List.mem_flatMap.mpr ⟨call, hmem, ha⟩)
          · exact Except.bind_eq_ok.mpr ⟨_, hcall₂, rfl⟩

/-- A body binds the values of its first tail, or goes on with a tail. -/
theorem move_code_inv {c : Code} {mv : Move} {w₁ : Machine}
    (h : Job.move p w (.code c env) = .ok (mv, w₁)) : w₁ = w ∧
      ((∃ vars t next, c = .bind vars t next ∧ mv = .bind vars t env next) ∨
        ∃ t, mv = .job (.tail t env)) := by
  cases c with
  | bind vars t next =>
      cases h
      exact ⟨rfl, .inl ⟨vars, t, next, rfl, rfl⟩⟩
  | done t =>
      cases h
      exact ⟨rfl, .inr ⟨t, rfl⟩⟩
  | branch cond c d =>
      obtain ⟨call, -, h⟩ := Except.bind_eq_ok.mp h
      cases h
      exact ⟨rfl, .inr ⟨_, rfl⟩⟩
  | case scrut alts default =>
      obtain ⟨call, -, h⟩ := Except.bind_eq_ok.mp h
      cases h
      exact ⟨rfl, .inr ⟨_, rfl⟩⟩

/-- A body that binds nothing and whose operands are replaced comes to the same values. -/
theorem Comes.code_replaced {c : Code} (h : Comes p quiet w (.code c env) (.ok vs) w')
    (hw : Abreast w w₂) (hatoms : SameReads p w w₂ env env₂ f c.atoms)
    (hc : ∀ vars t next, c ≠ .bind vars t next) :
    Attains p quiet w w₂ w' (.code (c.mapAtoms f) env₂) vs := by
  cases h with
  | values hq hmove =>
      obtain ⟨-, ⟨_, _, _, -, h⟩ | ⟨_, h⟩⟩ := move_code_inv hmove <;> cases h
  | bind hq hmove =>
      obtain ⟨-, ⟨vars, t, next, h, -⟩ | ⟨_, h⟩⟩ := move_code_inv hmove
      · exact absurd h (hc vars t next)
      · cases h
  | job hq hmove hrest =>
      obtain ⟨rfl, t, rfl, hsub, hmove₂⟩ := move_code_replaced hmove hatoms
      have hreads : SameReads p (tick _) w₂.tick env env₂ f t.atoms := fun a ha v hv =>
        atom_ok_beyond ⟨rfl, .refl _⟩ (hatoms a (hsub ha) v (atom_ok_beyond ⟨rfl, .refl _⟩ hv))
      obtain ⟨w₂', hc₂, htrace, hsteps⟩ := hrest.replaced hw.tick hreads
      rw [steps_tick, steps_taking, Job.weight] at hsteps
      exact ⟨w₂', .job (fun _ => rfl) hmove₂ hc₂, htrace, by omega⟩

/-- Where the temporaries that it reads have the same values, a tail comes to the same values, -/
theorem Comes.agrees {t : Tail} (h : Comes p quiet w (.tail t env) (.ok vs) w') (hw : Abreast w w₂)
    (hagree : AgreeOn t.atoms env env₂) : Attains p quiet w w₂ w' (.tail t env₂) vs := by
  have h := h.replaced hw (hagree.sameReads hw.toBeyond)
  rwa [Tail.mapAtoms_id] at h

/-- and so does a body that binds nothing. -/
theorem Comes.code_agrees {c : Code} (h : Comes p quiet w (.code c env) (.ok vs) w') (hw : Abreast w w₂)
    (hagree : AgreeOn c.atoms env env₂) (hc : ∀ vars t next, c ≠ .bind vars t next) :
    Attains p quiet w w₂ w' (.code c env₂) vs := by
  have h := h.code_replaced hw (hagree.sameReads hw.toBeyond) hc
  rwa [Code.mapAtoms_id] at h

end Replaced

/-! ### Temporaries that are replaced -/

section Carried

variable {p : Program} {w w₂ : Machine} {ρ : Replacement} {env env₂ : Locals}

/-- Every temporary of one environment is replaced by an operand that has its value in the other. -/
def Carried (p : Program) (w : Machine) (ρ : Replacement) (env env₂ : Locals) : Prop :=
  ∀ t v, env.lookup t = some v → ∃ a, ρ.lookup t = some a ∧ atom p w env₂ a = .ok v

/-- None of the temporaries is what another one is replaced by. -/
def Unused (ρ : Replacement) (vs : List Temp) : Prop :=
  ∀ t y, ρ.lookup t = some (.temp y) → y ∉ vs

theorem Carried.beyond (h : Carried p w ρ env env₂) (hw : Beyond w w₂) : Carried p w₂ ρ env env₂ := by
  intro t v hv
  obtain ⟨a, ha, hav⟩ := h t v hv
  exact ⟨a, ha, atom_ok_beyond hw hav⟩

theorem Carried.sameReads (h : Carried p w₂ ρ env env₂) (hw : Beyond w w₂) (as : List Atom) :
    SameReads p w w₂ env env₂ ρ.atom as := by
  intro a _ v hv
  cases a with
  | temp t =>
      unfold atom at hv
      dsimp only at hv
      split at hv
      · rename_i hlookup
        cases hv
        obtain ⟨a, ha, hav⟩ := h t v hlookup
        rw [Replacement.atom, ha]
        exact hav
      · cases hv
  | lit l => exact hv
  | top id index site =>
      have hv : atom p w env (.top id index site) = .ok v := hv
      exact atom_ok_beyond hw hv

/-- A new temporary of the other side takes the place of a temporary. -/
theorem Carried.cons (h : Carried p w ρ env env₂) (t y : Temp) (v : Value) (hy : Unused ρ [y]) :
    Carried p w ((t, .temp y) :: ρ) ((t, v) :: env) ((y, v) :: env₂) := by
  intro u x hx
  rw [lookup_cons_ite] at hx ⊢
  split at hx
  · rename_i heq
    cases hx
    refine ⟨.temp y, if_pos heq, ?_⟩
    unfold atom
    dsimp only
    rw [lookup_cons_ite, if_pos rfl]
  · rename_i hne
    obtain ⟨a, ha, hax⟩ := h u x hx
    refine ⟨a, by rw [if_neg hne, ha], ?_⟩
    cases a with
    | temp z =>
        have hz : z ≠ y := fun heq => hy u z ha (List.mem_singleton.mpr heq)
        unfold atom at hax ⊢
        dsimp only at hax ⊢
        rw [lookup_cons_ite, if_neg hz]
        exact hax
    | lit l => exact hax
    | top id index site => exact hax

/-- New temporaries of the other side take the place of temporaries that are bound. -/
theorem Carried.assign (h : Carried p w ρ env env₂) {ts ys : List Temp} {vs : List Value}
    (hlen : ys.length = ts.length) (hvs : vs.length = ts.length) (hnodup : ys.Nodup)
    (hys : Unused ρ ys) :
    Carried p w (ρ.extend ts (ys.map .temp)) (Machine.assign env ts vs) (Machine.assign env₂ ys vs) := by
  induction ts generalizing ρ env env₂ ys vs with
  | nil =>
      cases List.length_eq_zero_iff.mp hlen
      exact h
  | cons t ts ih =>
      cases ys with
      | nil => cases hlen
      | cons y ys =>
          cases vs with
          | nil => cases hvs
          | cons v vs =>
              obtain ⟨hy, hnodup⟩ := List.nodup_cons.mp hnodup
              rw [List.map_cons, Replacement.extend_cons, assign_cons, assign_cons]
              refine ih (h.cons t y v fun u z hz hmem => ?_) (Nat.succ.inj hlen) (Nat.succ.inj hvs) hnodup ?_
              · exact hys u z hz (List.mem_cons.mpr (.inl (List.mem_singleton.mp hmem)))
              · intro u z hz
                rw [lookup_cons_ite] at hz
                split at hz
                · cases hz
                  exact hy
                · exact fun hmem => hys u z hz (.tail _ hmem)

/-- Operands take the place of parameters. -/
theorem Carried.params (h : Carried p w ρ env env₂) {ts : List Temp} {as : List Atom}
    {vs : List Value} (hlen : as.length = ts.length)
    (hvs : List.Forall₂ (fun a v => atom p w env₂ a = .ok v) as vs) :
    Carried p w (ρ.extend ts as) (Machine.assign env ts vs) env₂ := by
  induction ts generalizing ρ env as vs with
  | nil =>
      cases List.length_eq_zero_iff.mp hlen
      exact h
  | cons t ts ih =>
      cases as with
      | nil => cases hlen
      | cons a as =>
          obtain ⟨v, vs, hv, hvs', rfl⟩ := List.forall₂_cons_left_iff.mp hvs
          rw [Replacement.extend_cons, assign_cons]
          refine ih (fun u x hx => ?_) (Nat.succ.inj hlen) hvs'
          rw [lookup_cons_ite] at hx ⊢
          split at hx
          · rename_i heq
            cases hx
            exact ⟨a, if_pos heq, hv⟩
          · rename_i hne
            obtain ⟨b, hb, hbx⟩ := h u x hx
            exact ⟨b, by rw [if_neg hne, hb], hbx⟩

end Carried

/-! ### Copies -/

/-- Temporaries below a number have the same values. -/
def AgreeBelow (n : Nat) (env env₂ : Locals) : Prop := ∀ t < n, env₂.lookup t = env.lookup t

section Copies

variable {p : Program} {quiet : Prop} {w w₂ w' : Machine} {env env₂ : Locals} {ρ : Replacement}
  {temps : TempTypes} {vs : List Value} {n : Nat}

theorem unused_of_below (h : Below ρ n) (k : Nat) : Unused ρ (List.range' n k) := by
  intro t y hy hmem
  exact absurd (h t y hy) (Nat.not_lt.mpr (List.mem_range'_1.mp hmem).1)

theorem AgreeBelow.refl (n : Nat) (env : Locals) : AgreeBelow n env env := fun _ _ => rfl

theorem AgreeBelow.trans {env₃ : Locals} (h : AgreeBelow n env env₂) (h' : AgreeBelow n env₂ env₃) :
    AgreeBelow n env env₃ := fun t ht => (h' t ht).trans (h t ht)

theorem AgreeBelow.mono {k : Nat} (h : AgreeBelow n env env₂) (hk : k ≤ n) : AgreeBelow k env env₂ :=
  fun t ht => h t (Nat.lt_of_lt_of_le ht hk)

/-- The same temporaries are bound on both sides. -/
theorem AgreeBelow.assign (h : AgreeBelow n env env₂) (ts : List Temp) (vs : List Value) :
    AgreeBelow n (assign env ts vs) (assign env₂ ts vs) := by
  intro t ht
  rw [Machine.assign, Machine.assign, List.lookup_append, List.lookup_append, h t ht]

/-- New temporaries are bound on one side. -/
theorem AgreeBelow.fresh (env : Locals) {ys : List Temp} (hys : ∀ y ∈ ys, n ≤ y) (vs : List Value) :
    AgreeBelow n env (Machine.assign env ys vs) := by
  intro t ht
  rw [Machine.assign, List.lookup_append]
  cases hlookup : (ys.zip vs).reverse.lookup t with
  | none => rfl
  | some v =>
      have hmem := (List.of_mem_zip (List.mem_reverse.mp (mem_of_lookup hlookup))).1
      exact absurd (hys t hmem) (Nat.not_le.mpr ht)

/-- The first binding of a copy, with the temporaries that it binds. -/
theorem Comes.copied_bind {vars : List Temp} {t : Tail} {vs₁ : List Value} {w₁ : Machine}
    (htail : Comes p quiet w.tick (.tail t env) (.ok vs₁) w₁) (hlen : vs₁.length = vars.length)
    (hw : Abreast w w₂) (hρ : Carried p w₂ ρ env env₂) (hbelow : Below ρ temps.size) :
    ∃ w₂₁, Comes p quiet w₂.tick (.tail (t.mapAtoms ρ.atom) env₂) (.ok vs₁) w₂₁ ∧ Abreast w₁ w₂₁ ∧
      w₂₁.steps + w.steps ≤ w₂.steps + w₁.steps ∧
      vs₁.length = (temps.freshLike vars).1.length ∧
      Carried p w₂₁ (ρ.extend vars ((temps.freshLike vars).1.map .temp)) (assign env vars vs₁)
        (assign env₂ (temps.freshLike vars).1 vs₁) ∧
      Below (ρ.extend vars ((temps.freshLike vars).1.map .temp)) (temps.freshLike vars).2.size := by
  obtain ⟨hsize, hfresh⟩ := freshLike_spec temps vars
  have hρ' : Carried p w₂.tick ρ env env₂ := hρ.beyond ⟨rfl, .refl _⟩
  obtain ⟨w₂₁, hc₂, htrace, hsteps⟩ :=
    htail.replaced hw.tick (hρ'.sameReads hw.tick.toBeyond t.atoms)
  rw [steps_tick, steps_tick] at hsteps
  have hbeyond : Beyond w₂ w₂₁ :=
    ⟨hc₂.steady.size, by rw [hc₂.steady.tops]; exact Tops.Le.refl _⟩
  rw [hfresh, hsize]
  refine ⟨w₂₁, hc₂, hw.tick.steady htail.steady hc₂.steady htrace, by omega, ?_, ?_, ?_⟩
  · rw [List.length_range', hlen]
  · exact (hρ.beyond hbeyond).assign List.length_range' hlen List.nodup_range' (unused_of_below hbelow _)
  · exact hbelow.extend vars vars.length

/-- A copy of a body comes to the values that the body comes to. -/
theorem Comes.copied {c : Code} (h : Comes p quiet w (.code c env) (.ok vs) w') (hw : Abreast w w₂)
    (hρ : Carried p w₂ ρ env env₂) (hbelow : Below ρ temps.size) :
    Attains p quiet w w₂ w' (.code (c.copy ρ temps).1 env₂) vs := by
  induction c generalizing ρ env env₂ temps w w₂ with
  | bind vars t next ih =>
      rcases h.bind_inv with ⟨vs₁, w₁, htail, hlen, hnext⟩ | ⟨f, hf, -⟩
      · obtain ⟨w₂₁, htail₂, hw₁, hsteps, hlen₂, hρ₁, hbelow₁⟩ :=
          htail.copied_bind hlen hw hρ hbelow
        obtain ⟨w₂', hnext₂, htrace, hsteps'⟩ := ih hnext hw₁ hρ₁ hbelow₁
        exact ⟨w₂', .bind (fun _ => rfl) rfl htail₂ hlen₂ hnext₂, htrace, by omega⟩
      · cases hf
  | done t => exact h.code_replaced hw (hρ.sameReads hw.toBeyond _) (fun _ _ _ => nofun)
  | branch cond c d => exact h.code_replaced hw (hρ.sameReads hw.toBeyond _) (fun _ _ _ => nofun)
  | case scrut alts default =>
      exact h.code_replaced hw (hρ.sameReads hw.toBeyond _) (fun _ _ _ => nofun)

/-- A copy that is spliced into other code comes to where the results of the body are bound for the
rest of that code, whose temporaries have kept their values. -/
theorem Comes.spliced {c : Code} (hstraight : c.isStraight = true)
    (h : Comes p quiet w (.code c env) (.ok vs) w') (hw : Abreast w w₂)
    (hρ : Carried p w₂ ρ env env₂) (hbelow : Below ρ temps.size) {vars : List Temp}
    (hlen : vs.length = vars.length) (rest : Code) :
    ∃ w₂' env₂', Abreast w' w₂' ∧ AgreeBelow temps.size env₂ env₂' ∧
      w₂'.steps + w.steps ≤ w₂.steps + w'.steps ∧
      ∀ r w'', Comes p quiet w₂' (.code rest (assign env₂' vars vs)) r w'' →
        Comes p quiet w₂ (.code (Code.splice vars rest (c.copy ρ temps).1) env₂) r w'' := by
  induction c generalizing ρ env env₂ temps w w₂ with
  | bind vars₁ t next ih =>
      rcases h.bind_inv with ⟨vs₁, w₁, htail, hlen₁, hnext⟩ | ⟨f, hf, -⟩
      · obtain ⟨w₂₁, htail₂, hw₁, hsteps, hlen₂, hρ₁, hbelow₁⟩ :=
          htail.copied_bind hlen₁ hw hρ hbelow
        obtain ⟨w₂', env₂', hw', hagree, hsteps', hrest⟩ := ih hstraight hnext hw₁ hρ₁ hbelow₁
        obtain ⟨hsize, hfresh⟩ := freshLike_spec temps vars₁
        refine ⟨w₂', env₂', hw', ?_, by omega, fun r w'' hr => ?_⟩
        · refine (AgreeBelow.fresh env₂ (fun y hy => ?_) vs₁).trans (hagree.mono ?_)
          · rw [hfresh] at hy
            exact (List.mem_range'_1.mp hy).1
          · rw [hsize]
            exact Nat.le_add_right _ _
        · exact .bind (fun _ => rfl) rfl htail₂ hlen₂ (hrest r w'' hr)
      · cases hf
  | done t =>
      have htail := h.done_inv
      have hw₁ := hw.tick
      have hρ' : Carried p w₂.tick ρ env env₂ := hρ.beyond ⟨rfl, .refl _⟩
      obtain ⟨w₂', hc₂, htrace, hsteps⟩ :=
        htail.replaced hw₁ (hρ'.sameReads hw₁.toBeyond t.atoms)
      rw [steps_tick, steps_tick] at hsteps
      exact ⟨w₂', env₂, hw₁.steady htail.steady hc₂.steady htrace, .refl _ _, by omega,
        fun r w'' hr => .bind (fun _ => rfl) rfl hc₂ hlen hr⟩
  | branch cond c d => cases hstraight
  | case scrut alts default => cases hstraight

end Copies

end Mil.Machine
