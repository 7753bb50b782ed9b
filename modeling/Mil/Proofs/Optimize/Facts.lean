import Mil.Optimize.Facts
import Mil.Proofs.Machine.Lockstep
import Mil.Proofs.Machine.Operate
import Mil.Proofs.Machine.Trail
import Mil.Proofs.Optimize.Patch
import Mil.Proofs.Program.Alpha

/-!
What is known of a body while it runs. Constructor applications, allocations, selections and pure
primitives come to the same at any time, as long as their operands keep their values; and these do, since
no temporary is bound twice. So what was recorded at a binding holds at every later point: the temporaries
have the values that the recorded tails still come to.
-/

namespace Mil

/-! ### Tails that come to the same at any time -/

/-- Does the tail come to the same whenever its operands have the same values? -/
def Tail.isTimeless : Tail → Bool
  | .call _ => false
  | .enter _ _ => false
  | .prim q _ _ => q.op.purity = .pure
  | _ => true

theorem Tail.isTimeless_prim {q : Prim} (h : q.op.purity = .pure) (args : List Atom)
    (inst : Option BlockType) :
    (Tail.prim q args inst).isTimeless = true := decide_eq_true h

theorem Tail.isTimeless_mapAtoms (f : Atom → Atom) (t : Tail) : (t.mapAtoms f).isTimeless = t.isTimeless := by
  cases t <;> rfl

theorem Tail.leavesTrace_of_isTimeless {t : Tail} (h : t.isTimeless = true) : t.leavesTrace = false := by
  cases t with
  | prim q args inst =>
      rw [isTimeless, decide_eq_true_eq] at h
      rw [leavesTrace]
      revert h
      cases q.op <;> decide
  | _ => rfl

namespace Machine

theorem pure_cases {op : PrimOp} (h : op.purity = .pure) : op = .user ∨ op = .nzdiv ∨ ByRule op := by
  revert h
  cases op <;> decide

section Timeless

variable {p : Program} {quiet : Prop} {w w₂ w' : Machine} {env env₂ : Locals} {t : Tail}
  {vals vs : List Value} {f : Atom → Atom} {q q₂ : Prim}

theorem prim_pure (h : q.op.purity = .pure) (hprim : w.prim q vals = .ok (vs, w')) : w' = w := by
  have hmap {r : Except Halt (List Value)} (hr : r.map (fun vs => (vs, w)) = .ok (vs, w')) : w' = w := by
    obtain ⟨_, -, heq⟩ := Except.map_eq_ok hr
    cases heq
    rfl
  rcases pure_cases h with hop | hop | hop
  · simp [prim, hop] at hprim
  · simp only [prim, hop] at hprim
    exact hmap hprim
  · rw [prim_byRule hop] at hprim
    exact hmap hprim

/-- A primitive of another number that does the same gives the same. -/
theorem prim_sameNumber (h : q.op.purity = .pure) (hq : Mono.PrimCopy q q₂)
    (hprim : w.prim q vals = .ok (vs, w')) : w.prim q₂ vals = .ok (vs, w') := by
  rcases pure_cases h with hop | hop | hop
  · simp [prim, hop] at hprim
  · simp only [prim, hop, hq.op] at hprim ⊢
    exact hprim
  · rw [prim_byRule hop] at hprim
    rw [prim_byRule (hq.op ▸ hop)]
    obtain ⟨_, hcall, heq⟩ := Except.map_eq_ok hprim
    rw [(pureCall_copy (valuesCopy_refl (S := Eq) (fun _ => rfl) vals) hq rfl hcall).1]
    exact congrArg Except.ok heq

theorem operate_timeless {e : Effect} (ht : t.isTimeless = true) (h : operate p w env t = .ok (e, w')) :
    w' = w ∧ ∃ vs, e = .values vs := by
  cases t with
  | call c => cases ht
  | enter fn args => cases ht
  | prim q args inst =>
      obtain ⟨vals, -, h⟩ := Except.bind_eq_ok.mp h
      obtain ⟨⟨vs, w₁⟩, hprim, h⟩ := Except.bind_eq_ok.mp h
      cases h
      exact ⟨prim_pure (of_decide_eq_true ht) (orHalt_eq_ok hprim), vs, rfl⟩
  | sel k field arg inst =>
      obtain ⟨v, -, h⟩ := Except.bind_eq_ok.mp h
      dsimp only at h
      split at h
      · cases h
        exact ⟨rfl, _, rfl⟩
      · cases h
  | _ =>
      obtain ⟨vals, -, h⟩ := Except.bind_eq_ok.mp h
      cases h
      exact ⟨rfl, _, rfl⟩

/-- Where the operands have the same values, the tail comes to the same. -/
theorem operate_timeless_replaced (ht : t.isTimeless = true) (h : operate p w env t = .ok (.values vs, w))
    (hsize : w₂.size = w.size) (hatoms : SameReads p w w₂ env env₂ f t.atoms) :
    operate p w₂ env₂ (t.mapAtoms f) = .ok (.values vs, w₂) := by
  have hquiet := Tail.leavesTrace_of_isTimeless ht
  have hans : Answers False (fun _ => False) (Alongside t.leavesTrace w w₂) (operate p w env t)
      (operate p w₂ env₂ (t.mapAtoms f)) :=
    operate_answers hsize False.elim (fun htrace => absurd (hquiet.symm.trans htrace) (by decide))
      fun a ha => answers_of_ok fun v hv => ⟨v, hatoms a ha v hv, rfl⟩
  rw [h] at hans
  generalize hop : operate p w₂ env₂ (t.mapAtoms f) = y at hans
  cases hans with
  | late h => exact h.elim
  | @ok _ r hr =>
      obtain ⟨e, w₂'⟩ := r
      have he : e = .values vs := hr.1
      subst he
      obtain ⟨rfl, -⟩ := operate_timeless ((t.isTimeless_mapAtoms f).trans ht) hop
      rfl

theorem ofLit_of_operands {lits : List Literal} (h : vals.mapM (w.operand q) = .ok lits) :
    vals = lits.map .ofLit := by
  induction vals generalizing lits with
  | nil =>
      cases h
      rfl
  | cons v vals ih =>
      rw [List.mapM_cons] at h
      obtain ⟨l, hl, h⟩ := Except.bind_eq_ok.mp h
      obtain ⟨ls, hls, h⟩ := Except.bind_eq_ok.mp h
      cases h
      rw [List.map_cons, ih hls]
      unfold operand at hl
      cases v <;> cases hl <;> rfl

/-- What a primitive with a rule gives is what the rule gives for the values of its operands. -/
theorem operate_byRule_inv {args : List Atom} {inst : Option BlockType} (hop : ByRule q.op)
    (h : operate p w env (.prim q args inst) = .ok (.values vs, w)) :
    ∃ lits l, atoms p w env args = .ok (lits.map .ofLit) ∧ q.purity = .pure ∧
      q.op.eval? w.size lits = some l ∧ vs = [.ofLit l] := by
  obtain ⟨vals, hvals, h⟩ := Except.bind_eq_ok.mp h
  obtain ⟨r, hprim, h⟩ := Except.bind_eq_ok.mp h
  have hprim := orHalt_eq_ok hprim
  rw [prim_byRule hop] at hprim
  obtain ⟨vs', hcall, rfl⟩ := Except.map_eq_ok hprim
  cases h
  obtain ⟨lits, hlits, hcall⟩ := Except.bind_eq_ok.mp hcall
  split at hcall
  · rename_i l hfold
    cases hcall
    unfold Prim.fold? at hfold
    split at hfold
    · rename_i hpure
      exact ⟨lits, l, ofLit_of_operands hlits ▸ hvals, hpure, hfold, rfl⟩
    · cases hfold
  · cases hcall

theorem Comes.timeless_inv (ht : t.isTimeless = true) (h : Comes p quiet w (.tail t env) (.ok vs) w') :
    w' = w ∧ operate p w env t = .ok (.values vs, w) := by
  have hinv {mv : Move} {w₁ : Machine} (hmove : Job.move p w (.tail t env) = .ok (mv, w₁)) :
      w₁ = w ∧ ∃ vs, mv = .values vs ∧ operate p w env t = .ok (.values vs, w) := by
    obtain ⟨e, hop, hmv⟩ := move_tail_inv hmove
    obtain ⟨rfl, vs, rfl⟩ := operate_timeless ht hop
    cases hmv
    exact ⟨rfl, vs, rfl, hop⟩
  cases h with
  | values hq hmove =>
      obtain ⟨rfl, _, heq, hop⟩ := hinv hmove
      cases heq
      exact ⟨rfl, hop⟩
  | job hq hmove =>
      obtain ⟨-, _, heq, -⟩ := hinv hmove
      cases heq
  | bind hq hmove => exact absurd hmove move_tail_ne_bind

theorem comes_timeless (ht : t.isTimeless = true) (h : operate p w env t = .ok (.values vs, w)) :
    Comes p quiet w (.tail t env) (.ok vs) w :=
  .values (fun _ => Tail.leavesTrace_of_isTimeless ht)
    (Except.bind_eq_ok.mpr ⟨_, h, Except.bind_eq_ok.mpr ⟨_, rfl, rfl⟩⟩)

end Timeless

/-! ### Temporaries that keep their values -/

section Keep

variable {p : Program} {w w' : Machine} {env env' : Locals} {t : Tail} {vs : List Value} {ts : List Temp}

/-- What has a value in the one has it in the other. -/
def Locals.Le (env env' : Locals) : Prop := ∀ t v, env.lookup t = some v → env'.lookup t = some v

theorem Locals.le_assign (h : ∀ t ∈ ts, env.lookup t = none) (vs : List Value) :
    env.Le (assign env ts vs) := by
  intro t v hv
  have ht : t ∉ ts := fun hmem => by simp [h t hmem] at hv
  rw [lookup_assign_of_not_mem ht, hv]

theorem Locals.Le.atom (h : env.Le env') (hw : Beyond w w') {a : Atom} {v : Value}
    (ha : Machine.atom p w env a = .ok v) : Machine.atom p w' env' a = .ok v := by
  cases a with
  | temp t =>
      unfold Machine.atom at ha ⊢
      dsimp only at ha ⊢
      split at ha
      · rename_i hlookup
        rw [h t _ hlookup]
        exact ha
      · cases ha
  | lit l => exact ha
  | top id index site =>
      have ha : Machine.atom p w env' (.top id index site) = .ok v := ha
      exact atom_ok_beyond hw ha

theorem Locals.Le.operate (h : env.Le env') (hw : Beyond w w') (ht : t.isTimeless = true)
    (hop : Machine.operate p w env t = .ok (.values vs, w)) :
    Machine.operate p w' env' t = .ok (.values vs, w') := by
  have hreads : SameReads p w w' env env' id t.atoms := fun a _ v hv => h.atom hw hv
  have hop' := operate_timeless_replaced ht hop hw.size hreads
  rwa [Tail.mapAtoms_id] at hop'

theorem atom_temp_eq_ok {t : Temp} {v : Value} :
    Machine.atom p w env (.temp t) = .ok v ↔ env.lookup t = some v := by
  unfold Machine.atom
  dsimp only
  cases env.lookup t <;> simp

end Keep

end Machine

/-! ### Expressions -/

/-- The table has the primitive under its number, and a built-in one is as pure as its operation. -/
def Prim.Registered (T : PrimTable) (q : Prim) : Prop :=
  (T.prims[q.index]?).map (fun f => (f.op, f.purity, f.name)) = some (q.op, q.purity, q.name) ∧
    (q.op = .user ∨ q.purity = q.op.purity)

instance (T : PrimTable) (q : Prim) : Decidable (q.Registered T) := inferInstanceAs (Decidable (_ ∧ _))

/-- The table has the primitive that the tail calls. -/
def Tail.Registered (T : PrimTable) (t : Tail) : Prop := ∀ q ∈ t.prim?, q.Registered T

instance (T : PrimTable) (t : Tail) : Decidable (t.Registered T) :=
  inferInstanceAs (Decidable (∀ q ∈ t.prim?, q.Registered T))

theorem Tail.Registered.mapAtoms {T : PrimTable} {t : Tail} (h : t.Registered T) (f : Atom → Atom) :
    (t.mapAtoms f).Registered T := by
  cases t <;> exact h

namespace Optimize

open Machine

section Expression

variable {p : Program} {T : PrimTable} {w : Machine} {env : Locals} {t t' : Tail} {vs : List Value}
  {e : Expression} {q q' : Prim}

theorem purity_eq_pure (h : q.Registered T) (hrank : q.purity.rank ≤ Purity.volatile.rank) :
    q.op.purity = .pure := by
  rcases h.2 with hop | hpurity
  · rw [hop]
    rfl
  · rw [hpurity] at hrank
    revert hrank
    cases q.op <;> decide

/-- What may be dropped comes to the same at any time. -/
theorem isTimeless_of_hasNoEffect (h : t.Registered T) (ht : t.hasNoEffect = true) : t.isTimeless = true := by
  cases t with
  | call c => cases ht
  | enter fn args => cases ht
  | prim q args inst => exact Tail.isTimeless_prim (purity_eq_pure (h q rfl) (of_decide_eq_true ht)) args inst
  | _ => rfl

theorem isTimeless_of_expression (h : t.Registered T) (ht : Expression.ofTail? t = some e) :
    t.isTimeless = true := by
  cases t with
  | prim q args inst =>
      unfold Expression.ofTail? at ht
      dsimp only at ht
      split at ht
      · rename_i hrank
        exact Tail.isTimeless_prim (purity_eq_pure (h q rfl)
          (Nat.le_trans (of_decide_eq_true hrank) (by decide))) args inst
      · cases ht
  | sel k field arg inst => rfl
  | _ => cases ht

theorem atom_unplaced (a : Atom) : atom p w env (unplaced a) = atom p w env a := by
  cases a <;> rfl

theorem atoms_unplaced (as : List Atom) : atoms p w env (as.map unplaced) = atoms p w env as := by
  unfold atoms
  induction as with
  | nil => rfl
  | cons a as ih => rw [List.map_cons, List.mapM_cons, List.mapM_cons, atom_unplaced, ih]

theorem primCopy_of_index (h : q.Registered T) (h' : q'.Registered T) (hindex : q.index = q'.index) :
    Mono.PrimCopy q q' := by
  have heq := h.1.symm.trans ((congrArg (fun i => (T.prims[i]?).map _) hindex).trans h'.1)
  simp only [Option.some.injEq, Prod.mk.injEq] at heq
  exact ⟨heq.1.symm, heq.2.1.symm, heq.2.2.symm⟩

/-- Tails of one expression come to the same. -/
theorem operate_of_expression (h : t.Registered p.prims) (h' : t'.Registered p.prims)
    (ht : Expression.ofTail? t = some e) (ht' : Expression.ofTail? t' = some e)
    (hop : operate p w env t = .ok (.values vs, w)) : operate p w env t' = .ok (.values vs, w) := by
  have htimeless := isTimeless_of_expression h ht
  cases t with
  | prim q args inst =>
      unfold Expression.ofTail? at ht
      dsimp only at ht
      split at ht
      · cases ht
        cases t' with
        | prim q' args' inst' =>
            unfold Expression.ofTail? at ht'
            dsimp only at ht'
            split at ht'
            · simp only [Option.some.injEq, Expression.mk.injEq, Operator.prim.injEq] at ht'
              obtain ⟨hindex, hargs, -⟩ := ht'
              obtain ⟨vals, hvals, hop⟩ := Except.bind_eq_ok.mp hop
              obtain ⟨⟨vs', w₁⟩, hprim, hop⟩ := Except.bind_eq_ok.mp hop
              cases hop
              rw [← atoms_unplaced, ← hargs, atoms_unplaced] at hvals
              refine Except.bind_eq_ok.mpr ⟨vals, hvals, ?_⟩
              rw [prim_sameNumber (of_decide_eq_true htimeless)
                (primCopy_of_index (h q rfl) (h' q' rfl) hindex.symm) (orHalt_eq_ok hprim)]
              rfl
            · cases ht'
        | sel k field arg inst' => cases ht'
        | _ => cases ht'
      · cases ht
  | sel k field arg inst =>
      cases ht
      cases t' with
      | prim q' args' inst' =>
          unfold Expression.ofTail? at ht'
          dsimp only at ht'
          split at ht' <;> cases ht'
      | sel k' field' arg' inst' =>
          simp only [Expression.ofTail?, Option.some.injEq, Expression.mk.injEq, Operator.sel.injEq,
            List.cons.injEq, and_true] at ht'
          obtain ⟨⟨-, rfl⟩, harg⟩ := ht'
          obtain ⟨v, hv, hop⟩ := Except.bind_eq_ok.mp hop
          rw [← atom_unplaced, ← harg, atom_unplaced] at hv
          refine Except.bind_eq_ok.mpr ⟨v, hv, ?_⟩
          dsimp only at hop ⊢
          split at hop
          · exact hop
          · cases hop
      | _ => cases ht'
  | _ => cases ht

end Expression

/-! ### Facts that hold -/

namespace Facts

/-- The temporaries have the values that was recorded of them. -/
structure Knows (f : Facts) (p : Program) (w : Machine) (env : Locals) : Prop where
  known : ∀ x ∈ f.known, x.2.isTimeless = true →
    ∃ v, env.lookup x.1 = some v ∧ operate p w env x.2 = .ok (.values [v], w)
  available : ∀ x ∈ f.available, ∃ t vals, Expression.ofTail? t = some x.1 ∧ t.Registered p.prims ∧
    operate p w env t = .ok (.values vals, w) ∧ List.Forall₂ (fun t v => env.lookup t = some v) x.2 vals

/-- The facts hold, and each temporary of the old body has the value of what it stands for in the new one. -/
structure Holds (f : Facts) (p : Program) (w : Machine) (env env₂ : Locals) : Prop
    extends f.Knows p w env₂ where
  reads : ∀ t v, env.lookup t = some v → Machine.atom p w env₂ (f.atom (.temp t)) = .ok v

section Facts

variable {f : Facts} {p : Program} {quiet : Prop} {w w' : Machine} {env env₂ env₂' : Locals} {t : Tail}
  {a : Atom} {v : Value} {vals vs : List Value} {vars ts : List Temp}

theorem knows_empty (p : Program) (w : Machine) (env : Locals) : empty.Knows p w env :=
  ⟨fun _ h => (nomatch h), fun _ h => (nomatch h)⟩

theorem holds_empty (p : Program) (w : Machine) (env : Locals) : empty.Holds p w env env :=
  ⟨knows_empty p w env, fun _ _ h => atom_temp_eq_ok.mpr h⟩

theorem Knows.mono (h : f.Knows p w env) (hw : Beyond w w') (hle : env.Le env₂') : f.Knows p w' env₂' where
  known x hx ht := by
    obtain ⟨v, hv, hop⟩ := h.known x hx ht
    exact ⟨v, hle _ _ hv, hle.operate hw ht hop⟩
  available x hx := by
    obtain ⟨t, vals, ht, hreg, hop, hvals⟩ := h.available x hx
    exact ⟨t, vals, ht, hreg, hle.operate hw (isTimeless_of_expression hreg ht) hop,
      hvals.imp fun _ _ hv => hle _ _ hv⟩

theorem Holds.beyond (h : f.Holds p w env env₂) (hw : Beyond w w') : f.Holds p w' env env₂ where
  toKnows := h.toKnows.mono hw fun _ _ hv => hv
  reads t v hv := atom_ok_beyond hw (h.reads t v hv)

theorem Holds.sameReads {w₂ : Machine} (h : f.Holds p w₂ env env₂) (hw : Beyond w w₂) (as : List Atom) :
    SameReads p w w₂ env env₂ f.atom as := by
  intro a _ v hv
  cases a with
  | temp t => exact h.reads t v (atom_temp_eq_ok.mp hv)
  | lit l => exact hv
  | top id index site =>
      have hv : Machine.atom p w env₂ (.top id index site) = .ok v := hv
      exact atom_ok_beyond hw hv

/-- What was recorded of an operand still comes to its value. -/
theorem Knows.operate (h : f.Knows p w env) (hs : f.tailOf? a = some t) (ht : t.isTimeless = true)
    (ha : Machine.atom p w env a = .ok v) : Machine.operate p w env t = .ok (.values [v], w) := by
  cases a with
  | temp u =>
      obtain ⟨v', hv', hop⟩ := h.known _ (mem_of_lookup hs) ht
      cases (atom_temp_eq_ok.mp ha).symm.trans hv'
      exact hop
  | lit l => cases hs
  | top id index site => cases hs

/-- A known constructor application: the fields have the values of its operands. -/
theorem Knows.data {k : Cfun} {args : List Atom} {inst : Option AllocType} (h : f.Knows p w env)
    (hd : f.dataOf? a = some (k, args, inst)) (ha : Machine.atom p w env a = .ok v) :
    ∃ vals, v = .data k vals ∧ List.Forall₂ (fun a v => Machine.atom p w env a = .ok v) args vals := by
  unfold dataOf? at hd
  split at hd
  · rename_i hs
    cases hd
    obtain ⟨vals, hvals, hop⟩ := Except.bind_eq_ok.mp (h.operate hs rfl ha)
    cases hop
    exact ⟨vals, rfl, atoms_eq_ok.mp hvals⟩
  · cases hd

/-- A known closure: what it stores are the values of the operands. -/
theorem Knows.closure {id : DefnId} {args : List Atom} (h : f.Knows p w env)
    (hk : f.closureOf? a = some (id, args)) (ha : Machine.atom p w env a = .ok v) :
    ∃ vals, v = .closure (p.resolve id) vals ∧
      List.Forall₂ (fun a v => Machine.atom p w env a = .ok v) args vals := by
  unfold closureOf? at hk
  split at hk
  · rename_i hs
    cases hk
    obtain ⟨vals, hvals, hop⟩ := Except.bind_eq_ok.mp (h.operate hs rfl ha)
    cases hop
    exact ⟨vals, rfl, atoms_eq_ok.mp hvals⟩
  · cases hk

/-- A known call of a pure primitive: it still gives the value. -/
theorem Knows.prim {q : Prim} {args : List Atom} (h : f.Knows p w env) (hq : f.primOf? a = some (q, args))
    (hpure : q.op.purity = .pure) (ha : Machine.atom p w env a = .ok v) :
    ∃ inst, f.tailOf? a = some (.prim q args inst) ∧
      Machine.operate p w env (.prim q args inst) = .ok (.values [v], w) := by
  unfold primOf? at hq
  split at hq
  · rename_i inst hs
    cases hq
    exact ⟨inst, hs, h.operate hs (Tail.isTimeless_prim hpure args inst) ha⟩
  · cases hq

/-- The results of an expression that is available are those of the tail. -/
theorem Knows.earlier {n : Nat} (h : f.Knows p w env) (hts : f.earlier? t n = some ts)
    (hreg : t.Registered p.prims) (hop : Machine.operate p w env t = .ok (.values vals, w)) :
    ts.length = n ∧ List.Forall₂ (fun a v => Machine.atom p w env a = .ok v) (ts.map .temp) vals := by
  obtain ⟨e, he, hts⟩ := Option.bind_eq_some_iff.mp hts
  obtain ⟨ts', hlookup, hts⟩ := Option.bind_eq_some_iff.mp hts
  split at hts
  · rename_i hlen
    cases hts
    obtain ⟨t', vals', ht', hreg', hop', hvals⟩ := h.available _ (mem_of_lookup hlookup)
    have hsame := operate_of_expression hreg' hreg ht' he hop'
    cases hsame.symm.trans hop
    exact ⟨hlen, List.forall₂_map_left_iff.mpr (hvals.imp fun _ _ hv => atom_temp_eq_ok.mpr hv)⟩
  · cases hts

/-! ### Facts that are added -/

/-- Operands take the place of temporaries that are bound to their values. -/
theorem Holds.rename {as : List Atom} (h : f.Holds p w env env₂) (hlen : as.length = vars.length)
    (hvals : List.Forall₂ (fun a v => Machine.atom p w env₂ a = .ok v) as vals) :
    (f.rename vars as).Holds p w (assign env vars vals) env₂ where
  known := h.known
  available := h.available
  reads := by
    have hreads := h.reads
    clear h
    unfold Facts.rename Facts.atom at *
    dsimp only at *
    generalize f.renames = ρ at hreads
    induction vars generalizing ρ env as vals with
    | nil =>
        cases List.length_eq_zero_iff.mp hlen
        exact hreads
    | cons t ts ih =>
        cases as with
        | nil => cases hlen
        | cons a as =>
            obtain ⟨v, vals, hv, hvals', rfl⟩ := List.forall₂_cons_left_iff.mp hvals
            rw [Replacement.extend_cons, assign_cons]
            refine ih (Nat.succ.inj hlen) hvals' ((t, a) :: ρ) fun u x hx => ?_
            unfold Replacement.atom
            dsimp only
            rw [lookup_cons_ite] at hx ⊢
            split at hx
            · rename_i heq
              cases hx
              rw [if_pos heq]
              exact hv
            · rename_i hne
              rw [if_neg hne]
              exact hreads u x hx

/-- What a binding adds: the tail as an expression that is available, and what a single temporary holds. -/
theorem bind_spec (f : Facts) (ts : List Temp) (t : Tail) : ∃ g : Facts,
    g.renames = f.renames ∧ g.known = f.known ∧
    (∀ x ∈ g.available, x ∈ f.available ∨ Expression.ofTail? t = some x.1 ∧ x.2 = ts) ∧
    (f.bind ts t = g ∨ ∃ u, ts = [u] ∧ f.bind ts t = { g with known := (u, t) :: g.known }) := by
  unfold bind
  cases ht : t.hasNoEffect with
  | false =>
      refine ⟨f.forget, rfl, rfl, fun x hx => .inl (List.mem_filter.mp hx).1, ?_⟩
      rcases ts with _ | ⟨u, _ | _⟩
      exacts [.inl rfl, .inr ⟨u, rfl, rfl⟩, .inl rfl]
  | true =>
      cases he : Expression.ofTail? t with
      | none =>
          refine ⟨f, rfl, rfl, fun x hx => .inl hx, ?_⟩
          rcases ts with _ | ⟨u, _ | _⟩
          exacts [.inl rfl, .inr ⟨u, rfl, rfl⟩, .inl rfl]
      | some e =>
          refine ⟨{ f with available := (e, ts) :: f.available }, rfl, rfl, fun x hx => ?_, ?_⟩
          · rcases List.mem_cons.mp hx with rfl | hx
            · exact .inr ⟨rfl, rfl⟩
            · exact .inl hx
          · rcases ts with _ | ⟨u, _ | _⟩
            exacts [.inl rfl, .inr ⟨u, rfl, rfl⟩, .inl rfl]

theorem renames_bind (f : Facts) (ts : List Temp) (t : Tail) : (f.bind ts t).renames = f.renames := by
  obtain ⟨g, hrenames, -, -, h | ⟨u, -, h⟩⟩ := bind_spec f ts t <;> rw [h] <;> exact hrenames

theorem mem_known_bind {x : Temp × Tail} (h : x ∈ (f.bind ts t).known) :
    x ∈ f.known ∨ ts = [x.1] ∧ x.2 = t := by
  obtain ⟨g, -, hknown, -, hbind | ⟨u, rfl, hbind⟩⟩ := bind_spec f ts t
  · rw [hbind, hknown] at h
    exact .inl h
  · rw [hbind, hknown] at h
    rcases List.mem_cons.mp h with rfl | h
    · exact .inr ⟨rfl, rfl⟩
    · exact .inl h

theorem mem_available_bind {x : Expression × List Temp} (h : x ∈ (f.bind ts t).available) :
    x ∈ f.available ∨ Expression.ofTail? t = some x.1 ∧ x.2 = ts := by
  obtain ⟨g, -, -, havailable, hbind | ⟨u, -, hbind⟩⟩ := bind_spec f ts t <;>
  · rw [hbind] at h
    exact havailable x h

/-- The temporaries are new: they have no values, and they stand for nothing else. -/
def Fresh (f : Facts) (env : Locals) (ts : List Temp) : Prop :=
  ∀ t ∈ ts, env.lookup t = none ∧ f.renames.lookup t = none

/-- Different temporaries are still new after those before them are bound, -/
theorem Fresh.bind (h : f.Fresh env (ts ++ vars)) (hnodup : (ts ++ vars).Nodup) (t : Tail) (vs : List Value) :
    (f.bind ts t).Fresh (assign env ts vs) vars := by
  intro u hu
  have hnot : u ∉ ts := fun hmem => (List.nodup_append.mp hnodup).2.2 u hmem u hu rfl
  rw [renames_bind, lookup_assign_of_not_mem hnot]
  exact h u (List.mem_append_right _ hu)

/-- and after operands take the place of those before them. -/
theorem Fresh.rename (h : f.Fresh env (ts ++ vars)) (hnodup : (ts ++ vars).Nodup) (as : List Atom) :
    (f.rename ts as).Fresh env vars := by
  intro u hu
  have hnot : u ∉ ts := fun hmem => (List.nodup_append.mp hnodup).2.2 u hmem u hu rfl
  obtain ⟨henv, hrenames⟩ := h u (List.mem_append_right _ hu)
  refine ⟨henv, ?_⟩
  rw [Facts.rename, Replacement.extend, List.lookup_append, hrenames, Option.or_none]
  refine lookup_eq_none_iff_not_mem.mpr fun hmem => ?_
  obtain ⟨⟨_, a⟩, hx, rfl⟩ := List.mem_map.mp hmem
  exact hnot (List.of_mem_zip (List.mem_reverse.mp hx)).1

/-- New temporaries are bound to the values of a tail on both sides. -/
theorem Holds.bind (h : f.Holds p w env env₂) (hfresh : f.Fresh env₂ vars) (hnodup : vars.Nodup)
    (hreg : t.Registered p.prims) (hcomes : Comes p quiet w (.tail t env₂) (.ok vs) w')
    (hlen : vs.length = vars.length) :
    (f.bind vars t).Holds p w' (assign env vars vs) (assign env₂ vars vs) := by
  have hw : Beyond w w' := ⟨hcomes.steady.size, by rw [hcomes.steady.tops]; exact Tops.Le.refl _⟩
  have hle : env₂.Le (assign env₂ vars vs) :=
    Locals.le_assign (fun u hu => (hfresh u hu).1) vs
  have hnow (ht : t.isTimeless = true) :
      Machine.operate p w' (assign env₂ vars vs) t = .ok (.values vs, w') := by
    obtain ⟨rfl, hop⟩ := hcomes.timeless_inv ht
    exact hle.operate hw ht hop
  have hlookup := forall₂_lookup_assign env₂ hnodup hlen.symm
  have hold := h.toKnows.mono hw hle
  refine ⟨⟨fun x hx ht => ?_, fun x hx => ?_⟩, fun u x hx => ?_⟩
  · rcases mem_known_bind hx with hx | ⟨hvars, rfl⟩
    · exact hold.known x hx ht
    · rw [hvars] at hlookup hlen
      obtain ⟨v, rest, hv, hrest, rfl⟩ := List.forall₂_cons_left_iff.mp hlookup
      cases hrest
      exact ⟨v, hvars ▸ hv, hnow ht⟩
  · rcases mem_available_bind hx with hx | ⟨he, heq⟩
    · exact hold.available x hx
    · exact ⟨t, vs, he, hreg, hnow (isTimeless_of_expression hreg he), heq ▸ hlookup⟩
  · rw [Facts.atom, renames_bind]
    rw [assign, List.lookup_append] at hx
    cases hfront : ((vars.zip vs).reverse).lookup u with
    | some y =>
        rw [hfront, Option.some_or] at hx
        cases hx
        have hu := (List.of_mem_zip (List.mem_reverse.mp (mem_of_lookup hfront))).1
        rw [Replacement.atom, (hfresh u hu).2]
        refine atom_temp_eq_ok.mpr ?_
        rw [assign, List.lookup_append, hfront, Option.some_or]
    | none =>
        rw [hfront, Option.none_or] at hx
        exact hle.atom hw (h.reads u x hx)

end Facts

end Facts

end Optimize

end Mil
