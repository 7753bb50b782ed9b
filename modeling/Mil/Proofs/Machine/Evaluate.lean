import Mil.Machine.Run
import Mil.Proofs.Program.Linked

/-!
Evaluation without a stack. What the machine does with a tail or a body, from the moment it takes it
up until its values are there, is one derivation; the values of a tail that is bound, and those of a
top-level definition that is computed on the way, have derivations of their own. A run without fuel
that ends with values has such a derivation, and from a derivation a run is read off.

A derivation can be asked to perform allowed operations only. What is allowed depends on the
top-level definition for which the operation is performed.
-/

namespace Mil.Machine

/-- What the machine works on. -/
inductive Job
  | tail (t : Tail) (env : Locals)
  | code (c : Code) (env : Locals)

/-- What a job comes to at once: values, another job, or a tail whose values are bound for a body. -/
inductive Move
  | values (vs : List Value)
  | job (j : Job)
  | bind (vars : List Temp) (t : Tail) (env : Locals) (next : Code)

/-- What an operation has come to, as a move. -/
def Effect.move : Effect → Except Stall Move
  | .values vs => .ok (.values vs)
  | .body (some c) env => .ok (.job (.code c env))
  | .body none _ => .error (.halt (.defect .missingBody))
  | .tail (some t) env => .ok (.job (.tail t env))
  | .tail none _ => .error (.halt (.defect .missingTail))

/-- Makes a call. -/
def Move.call (env : Locals) (c : BlockCall) : Move := .job (.tail (.call c) env)

namespace Job

/-- The first move of a job. -/
def move (p : Program) (m : Machine) : Job → Except Stall (Move × Machine)
  | .tail t env => do
    let (e, m) ← operate p m env t
    return (← e.move, m)
  | .code (.bind vars t next) env => return (.bind vars t env next, m)
  | .code (.done t) env => return (.job (.tail t env), m)
  | .code (.branch cond t f) env => return (.call env (← chooseFlag p m env cond t f), m)
  | .code (.case scrut alts default) env =>
    return (.call env (← chooseAlt p m env scrut alts default), m)

/-- How a job is taken up again after it has stalled. -/
def resume : Job → Resume
  | .tail t env => .operation t env
  | .code c env => .code c env

/-- A tail may come to a body at once, a body to no other body. -/
def weight : Job → Nat
  | .tail _ _ => 1
  | .code _ _ => 0

/-- The machine on a job, with what remains to be done afterwards. -/
def go (p : Program) (m : Machine) (stack : List Frame) : Job → Next × Machine
  | .tail t env => perform p m t env stack
  | .code c env => enterCode p m c env stack

end Job

/-- One more tail is counted. -/
def tick (m : Machine) : Machine := { m with steps := m.steps + 1 }

/-- The machine when it takes up a job; bodies are not counted. -/
def taking (m : Machine) : Job → Machine
  | .tail _ _ => m.tick
  | .code _ _ => m

/-- The machine when it starts to compute a top-level definition. -/
def opening (m : Machine) (id : DefnId) (pos : Position) : Machine :=
  { m with pos, active := id :: m.active }.tick

/-- The machine when the values of a top-level definition are there. -/
def keeping (m : Machine) (id : DefnId) (saved : Position) (vals : List Value) : Machine :=
  { m with pos := saved, tops := (id, vals) :: m.tops, active := m.active.erase id }

/-- Is the operation of a job allowed for a top-level definition? -/
def Job.Allowed (ok : Option DefnId → Tail → Prop) (o : Option DefnId) : Job → Prop
  | .tail t _ => ok o t
  | .code _ _ => True

/-- A job comes to values. The operations are allowed for the top-level definition for which they
are performed. -/
inductive Evaluates (p : Program) (ok : Option DefnId → Tail → Prop) :
    Option DefnId → Machine → Job → List Value → Machine → Prop
  | values {o : Option DefnId} {m m' : Machine} {j : Job} {vals : List Value} (hok : j.Allowed ok o)
      (hmove : j.move p m = .ok (.values vals, m')) : Evaluates p ok o m j vals m'
  | job {o : Option DefnId} {m m₁ m' : Machine} {j j' : Job} {vals : List Value} (hok : j.Allowed ok o)
      (hmove : j.move p m = .ok (.job j', m₁))
      (hrest : Evaluates p ok o (m₁.taking j') j' vals m') : Evaluates p ok o m j vals m'
  | bind {o : Option DefnId} {m m₁ m₂ m' : Machine} {j : Job} {vars : List Temp} {t : Tail}
      {env : Locals} {next : Code} {vs vals : List Value} (hok : j.Allowed ok o)
      (hmove : j.move p m = .ok (.bind vars t env next, m₁))
      (htail : Evaluates p ok o m₁.tick (.tail t env) vs m₂) (hlen : vs.length = vars.length)
      (hnext : Evaluates p ok o m₂ (.code next (assign env vars vs)) vals m') :
      Evaluates p ok o m j vals m'
  | stall {o : Option DefnId} {m m₁ m' : Machine} {j : Job} {id : DefnId} {pos : Position}
      {t : Tail} {vs vals : List Value} (hmove : j.move p m = .error (.top id pos (some t)))
      (htop : Evaluates p ok (some id) (m.opening id pos) (.tail t []) vs m₁)
      (hrest : Evaluates p ok o (m₁.keeping id m.pos vs) j vals m') : Evaluates p ok o m j vals m'

/-! ### What an operation leaves alone -/

/-- Nothing has changed but the place, the memory and what was printed. -/
structure Steady (m m' : Machine) : Prop where
  size : m'.size = m.size
  fuel : m'.fuel = m.fuel
  tops : m'.tops = m.tops
  active : m'.active = m.active

theorem Steady.refl (m : Machine) : Steady m m := ⟨rfl, rfl, rfl, rfl⟩

/-- Nor has a step been counted, and what was printed before is still there. -/
structure Still (m m' : Machine) : Prop extends Steady m m' where
  steps : m'.steps = m.steps
  printed : m.printed <:+ m'.printed

theorem Still.refl (m : Machine) : Still m m := ⟨.refl m, rfl, List.suffix_refl _⟩

section Still

variable {p : Program} {m m' : Machine}

theorem still_prim {q : Prim} {args vs : List Value} (h : m.prim q args = .ok (vs, m')) :
    Still m m' := by
  have hsame {r : Except Halt (List Value)} (h : r.map (fun vs => (vs, m)) = .ok (vs, m')) :
      Still m m' := by
    cases r with
    | error e => cases h
    | ok vs =>
        cases h
        exact .refl m
  have haccess {a : MemAccess} (h : m.access a args = (vs, m')) : Still m m' := by
    unfold access at h
    dsimp only at h
    split at h <;> cases h <;> exact ⟨⟨rfl, rfl, rfl, rfl⟩, rfl, List.suffix_refl _⟩
  unfold prim at h
  split at h
  · exact hsame h
  · exact hsame h
  · exact hsame h
  · cases h
  · cases h
  · cases h
    exact ⟨⟨rfl, rfl, rfl, rfl⟩, rfl, List.suffix_cons _ _⟩
  · cases h
  · split at h
    · exact haccess (Except.ok.inj h)
    · exact hsame h

theorem still_enter {env : Locals} {fn : Atom} {args : List Atom} {e : Effect}
    (h : enter p m env fn args = .ok (e, m')) : Still m m' := by
  obtain ⟨v, -, h⟩ := Except.bind_eq_ok.mp h
  split at h
  · obtain ⟨vals, -, h⟩ := Except.bind_eq_ok.mp h
    obtain ⟨k, -, h⟩ := Except.bind_eq_ok.mp h
    split at h
    · cases h
    · obtain ⟨d, -, h⟩ := Except.bind_eq_ok.mp h
      cases h
      exact ⟨⟨rfl, rfl, rfl, rfl⟩, rfl, List.suffix_refl _⟩
  · cases h

theorem still_operate {env : Locals} {t : Tail} {e : Effect}
    (h : operate p m env t = .ok (e, m')) : Still m m' := by
  cases t with
  | ret args =>
      obtain ⟨vals, -, h⟩ := Except.bind_eq_ok.mp h
      cases h
      exact .refl m
  | call c =>
      obtain ⟨vals, -, h⟩ := Except.bind_eq_ok.mp h
      obtain ⟨b, -, h⟩ := Except.bind_eq_ok.mp h
      obtain ⟨d, -, h⟩ := Except.bind_eq_ok.mp h
      cases h
      exact ⟨⟨rfl, rfl, rfl, rfl⟩, rfl, List.suffix_refl _⟩
  | prim q args inst =>
      obtain ⟨vals, -, h⟩ := Except.bind_eq_ok.mp h
      obtain ⟨⟨vs, m₁⟩, hprim, h⟩ := Except.bind_eq_ok.mp h
      cases h
      have hprim' : m.prim q vals = .ok (vs, m') := by
        unfold orHalt at hprim
        split at hprim
        · rename_i heq
          rw [heq, Except.ok.inj hprim]
        · cases hprim
      exact still_prim hprim'
  | alloc k args inst =>
      obtain ⟨vals, -, h⟩ := Except.bind_eq_ok.mp h
      cases h
      exact .refl m
  | data k args inst =>
      obtain ⟨vals, -, h⟩ := Except.bind_eq_ok.mp h
      cases h
      exact .refl m
  | enter fn args => exact still_enter h
  | sel k field arg inst =>
      obtain ⟨v, -, h⟩ := Except.bind_eq_ok.mp h
      dsimp only at h
      split at h
      · cases h
        exact .refl m
      · cases h

theorem still_move {j : Job} {mv : Move} (h : j.move p m = .ok (mv, m')) : Still m m' := by
  cases j with
  | tail t env =>
      obtain ⟨⟨e, m₁⟩, hop, h⟩ := Except.bind_eq_ok.mp h
      obtain ⟨mv', -, h⟩ := Except.bind_eq_ok.mp h
      cases h
      exact still_operate hop
  | code c env =>
      cases c with
      | bind vars t next =>
          cases h
          exact .refl m
      | done t =>
          cases h
          exact .refl m
      | branch cond t f =>
          obtain ⟨call, -, h⟩ := Except.bind_eq_ok.mp h
          cases h
          exact .refl m
      | case scrut alts default =>
          obtain ⟨call, -, h⟩ := Except.bind_eq_ok.mp h
          cases h
          exact .refl m

theorem steady_move {j : Job} {mv : Move} (h : j.move p m = .ok (mv, m')) : Steady m m' :=
  (still_move h).toSteady

end Still

/-! ### Where an operation stalls -/

/-- Whatever goes wrong has a property. -/
def Errs {α : Type} (P : Stall → Prop) (x : Except Stall α) : Prop := ∀ s, x = .error s → P s

theorem Errs.bind {α β : Type} {P : Stall → Prop} {x : Except Stall α} {f : α → Except Stall β}
    (hx : Errs P x) (hf : ∀ a, Errs P (f a)) : Errs P (x >>= f) := by
  intro s hs
  rcases Except.bind_eq_error.mp hs with hs | ⟨a, -, hs⟩
  · exact hx s hs
  · exact hf a s hs

theorem Errs.ok {α : Type} {P : Stall → Prop} (a : α) : Errs P (.ok a) := fun _ h => nomatch h

/-- The operands that the first move of a job reads. -/
def Job.reads : Job → List Atom
  | .tail t _ => t.atoms
  | .code (.branch cond _ _) _ => [cond]
  | .code (.case scrut _ _) _ => [scrut]
  | .code _ _ => []

/-- The values of the temporaries of a job. -/
def Job.env : Job → Locals
  | .tail _ env => env
  | .code _ env => env

section Reads

variable {p : Program} {m : Machine} {P : Stall → Prop}

/-- What goes wrong in an operation is that it ends the run, or that an operand goes wrong. -/
theorem errs_operate_of_atoms {env : Locals} {t : Tail} (hhalt : ∀ h, P (.halt h))
    (hatoms : ∀ a ∈ t.atoms, Errs P (atom p m env a)) : Errs P (operate p m env t) := by
  have hall (as : List Atom) (has : ∀ a ∈ as, Errs P (atom p m env a)) :
      Errs P (atoms p m env as) := by
    induction as with
    | nil => exact .ok _
    | cons a as ih =>
        unfold atoms
        rw [List.mapM_cons]
        exact (has a (.head _)).bind fun v =>
          Errs.bind (ih fun b hb => has b (.tail _ hb)) fun vs => .ok _
  have herr {α : Type} (h : Halt) : Errs P (.error (.halt h) : Except Stall α) := by
    rintro s ⟨⟩
    exact hhalt h
  have hdefect {α : Type} (r : Except Defect α) : Errs P (orDefect r) := by
    cases r with
    | ok a => exact .ok a
    | error e => exact herr _
  cases t with
  | ret args => exact (hall args hatoms).bind fun vals => .ok _
  | call c =>
      exact (hall c.args hatoms).bind fun vals => (hdefect _).bind fun b =>
        (hdefect _).bind fun d => .ok _
  | prim q args inst =>
      refine (hall args hatoms).bind fun vals => Errs.bind ?_ fun r => .ok _
      unfold orHalt
      split
      · exact .ok _
      · exact herr _
  | alloc k args inst => exact (hall args hatoms).bind fun vals => .ok _
  | data k args inst => exact (hall args hatoms).bind fun vals => .ok _
  | enter fn args =>
      refine (hatoms fn (.head _)).bind fun v => ?_
      split
      · refine (hall args fun a ha => hatoms a (.tail _ ha)).bind fun vals => (hdefect _).bind fun k => ?_
        split
        · exact herr _
        · exact (hdefect _).bind fun d => .ok _
      · exact herr _
  | sel k field arg inst =>
      refine (hatoms arg (.head _)).bind fun v => ?_
      dsimp only
      split
      · exact .ok _
      · exact herr _

theorem errs_move_of_reads {j : Job} (hhalt : ∀ h, P (.halt h))
    (hreads : ∀ a ∈ j.reads, Errs P (atom p m j.env a)) : Errs P (j.move p m) := by
  have herr {α : Type} (h : Halt) : Errs P (.error (.halt h) : Except Stall α) := by
    rintro s ⟨⟩
    exact hhalt h
  cases j with
  | tail t env =>
      refine (errs_operate_of_atoms hhalt hreads).bind fun r => Errs.bind ?_ fun mv => .ok _
      unfold Effect.move
      split
      · exact .ok _
      · exact .ok _
      · exact herr _
      · exact .ok _
      · exact herr _
  | code c env =>
      cases c with
      | bind vars t next => exact .ok _
      | done t => exact .ok _
      | branch cond t f =>
          refine Errs.bind ((hreads cond (.head _)).bind fun v => ?_) fun call => .ok _
          split
          · exact .ok _
          · exact herr _
      | case scrut alts default =>
          refine Errs.bind ((hreads scrut (.head _)).bind fun v => ?_) fun call => .ok _
          split
          · split
            · exact .ok _
            · exact .ok _
            · exact herr _
          · exact herr _

end Reads

/-- A top-level definition is waited for only if it has no values and is not being computed. -/
def Stall.Due (p : Program) (m : Machine) : Stall → Prop
  | .halt _ => True
  | .top id _ t => m.tops.lookup id = none ∧ id ∉ m.active ∧
      ∃ d tl, p.defns[id]? = some d ∧ d.body = .top tl ∧ tl.tail = t

section Due

variable {p : Program} {m : Machine} {env : Locals}

theorem errs_halt {α : Type} (h : Halt) : Errs (Stall.Due p m) (.error (.halt h) : Except Stall α) := by
  rintro s ⟨⟩
  trivial

theorem errs_topValues (id : DefnId) : Errs (Stall.Due p m) (topValues p m id) := by
  unfold topValues Program.defn
  split
  · exact .ok _
  · rename_i hnone
    cases hd : p.defns[id]? with
    | none => exact errs_halt _
    | some d =>
        dsimp only
        split
        · rename_i t ht
          split
          · exact errs_halt _
          · rename_i hactive
            rintro s ⟨⟩
            exact ⟨hnone, hactive, d, t, hd, ht, rfl⟩
        · exact errs_halt _

theorem errs_topValue (id : DefnId) (index : Nat) :
    Errs (Stall.Due p m) (topValue p m id index) := by
  unfold topValue
  refine Errs.bind ?_ fun id => (errs_topValues id).bind fun vals => ?_
  · unfold topTarget
    dsimp only
    split
    · split
      · split
        · exact .ok _
        · exact errs_halt _
      · exact .ok _
    · exact .ok _
  · split
    · exact .ok _
    · exact errs_halt _

theorem errs_atom (a : Atom) : Errs (Stall.Due p m) (atom p m env a) := by
  unfold atom
  split
  · split
    · exact .ok _
    · exact errs_halt _
  · exact .ok _
  · exact errs_topValue _ _

/-- A job stalls only at a top-level definition that is to be computed. -/
theorem errs_move (j : Job) : Errs (Stall.Due p m) (j.move p m) :=
  errs_move_of_reads (fun _ => trivial) fun a _ => errs_atom a

end Due

theorem weight_of_move {p : Program} {m m' : Machine} {j : Job} {c : Code} {env : Locals}
    (h : j.move p m = .ok (.job (.code c env), m')) : j.weight = 1 := by
  cases j with
  | tail t env => rfl
  | code c env =>
      cases c with
      | bind vars t next => cases h
      | done t => cases h
      | branch cond t f =>
          obtain ⟨call, -, h⟩ := Except.bind_eq_ok.mp h
          cases h
      | case scrut alts default =>
          obtain ⟨call, -, h⟩ := Except.bind_eq_ok.mp h
          cases h

/-! ### What operations come to -/

section Moves

variable {p : Program} {m m' : Machine} {env : Locals} {e : Effect}

theorem move_tail_inv {t : Tail} {mv : Move} (h : Job.move p m (.tail t env) = .ok (mv, m')) :
    ∃ e, operate p m env t = .ok (e, m') ∧ e.move = .ok mv := by
  obtain ⟨⟨e, m₁⟩, hop, h⟩ := Except.bind_eq_ok.mp h
  obtain ⟨mv', hmv, h⟩ := Except.bind_eq_ok.mp h
  cases h
  exact ⟨e, hop, hmv⟩

theorem orDefect_eq_ok {α : Type} {r : Except Defect α} {a : α} (h : orDefect r = .ok a) : r = .ok a := by
  unfold orDefect at h
  split at h
  · cases h
    rfl
  · cases h

theorem orHalt_eq_ok {α : Type} {r : Except Halt α} {a : α} (h : orHalt r = .ok a) : r = .ok a := by
  unfold orHalt at h
  split at h
  · cases h
    rfl
  · cases h

/-- A call comes to the body of its block. -/
theorem operate_call_inv {c : BlockCall} (h : operate p m env (.call c) = .ok (e, m')) :
    ∃ vals b pos, atoms p m env c.args = .ok vals ∧ p.block (p.resolve c.block) = .ok b ∧
      e = .body b.body (assign [] b.params vals) ∧ m' = { m with pos } := by
  obtain ⟨vals, hvals, h⟩ := Except.bind_eq_ok.mp h
  obtain ⟨b, hb, h⟩ := Except.bind_eq_ok.mp h
  obtain ⟨d, -, h⟩ := Except.bind_eq_ok.mp h
  cases h
  exact ⟨vals, b, d.pos, hvals, orDefect_eq_ok hb, rfl, rfl⟩

/-- A closure that is entered comes to its tail. -/
theorem operate_enter_inv {fn : Atom} {args : List Atom}
    (h : operate p m env (.enter fn args) = .ok (e, m')) :
    ∃ id stored vals k pos, atom p m env fn = .ok (.closure id stored) ∧ atoms p m env args = .ok vals ∧
      p.closure (p.resolve id) = .ok k ∧
      e = .tail k.tail (assign (assign [] k.params stored) k.args vals) ∧ m' = { m with pos } := by
  obtain ⟨v, hv, h⟩ := Except.bind_eq_ok.mp h
  split at h
  · obtain ⟨vals, hvals, h⟩ := Except.bind_eq_ok.mp h
    obtain ⟨k, hk, h⟩ := Except.bind_eq_ok.mp h
    split at h
    · cases h
    · obtain ⟨d, -, h⟩ := Except.bind_eq_ok.mp h
      cases h
      exact ⟨_, _, vals, k, d.pos, hv, hvals, orDefect_eq_ok hk, rfl, rfl⟩
  · cases h

/-- Only calls come to bodies, only closures to tails. -/
theorem operate_values {t : Tail} (hcall : ∀ c, t ≠ .call c) (henter : ∀ fn args, t ≠ .enter fn args)
    (h : operate p m env t = .ok (e, m')) : ∃ vals, e = .values vals := by
  cases t with
  | call c => exact absurd rfl (hcall c)
  | enter fn args => exact absurd rfl (henter fn args)
  | ret args | alloc id args inst | data k args inst =>
      obtain ⟨vals, -, h⟩ := Except.bind_eq_ok.mp h
      cases h
      exact ⟨_, rfl⟩
  | prim q args inst =>
      obtain ⟨vals, -, h⟩ := Except.bind_eq_ok.mp h
      obtain ⟨r, -, h⟩ := Except.bind_eq_ok.mp h
      cases h
      exact ⟨_, rfl⟩
  | sel k field arg inst =>
      obtain ⟨v, -, h⟩ := Except.bind_eq_ok.mp h
      dsimp only at h
      split at h
      · cases h
        exact ⟨_, rfl⟩
      · cases h

/-- An operation is followed by another job if it comes to a body or to a tail. -/
theorem Effect.job_of_move {j : Job} (h : e.move = .ok (.job j)) :
    (∃ c env, e = .body (some c) env ∧ j = .code c env) ∨
      ∃ t env, e = .tail (some t) env ∧ j = .tail t env := by
  unfold Effect.move at h
  split at h <;> cases h
  · exact .inl ⟨_, _, rfl, rfl⟩
  · exact .inr ⟨_, _, rfl, rfl⟩

theorem Effect.values_of_move {vals : List Value} (h : e.move = .ok (.values vals)) :
    e = .values vals := by
  unfold Effect.move at h
  split at h <;> cases h
  rfl

/-- An operation that comes to a body is a call. -/
theorem eq_call_of_operate {t : Tail} {c : Option Code} {env' : Locals}
    (h : operate p m env t = .ok (.body c env', m')) : ∃ call, t = .call call := by
  cases t with
  | call call => exact ⟨call, rfl⟩
  | enter fn args =>
      obtain ⟨_, _, _, _, _, -, -, -, he, -⟩ := operate_enter_inv h
      cases he
  | ret | prim | alloc | data | sel =>
      obtain ⟨_, he⟩ := operate_values (by nofun) (by nofun) h
      cases he

/-- An operation that comes to a tail enters a closure. -/
theorem eq_enter_of_operate {t : Tail} {t' : Option Tail} {env' : Locals}
    (h : operate p m env t = .ok (.tail t' env', m')) : ∃ fn args, t = .enter fn args := by
  cases t with
  | enter fn args => exact ⟨fn, args, rfl⟩
  | call call =>
      obtain ⟨_, _, _, -, -, he, -⟩ := operate_call_inv h
      cases he
  | ret | prim | alloc | data | sel =>
      obtain ⟨_, he⟩ := operate_values (by nofun) (by nofun) h
      cases he

/-- Operands have values if each of them has one. -/
theorem atoms_eq_ok {as : List Atom} {vs : List Value} :
    atoms p m env as = .ok vs ↔ List.Forall₂ (fun a v => atom p m env a = .ok v) as vs := by
  unfold atoms
  induction as generalizing vs with
  | nil =>
      rw [List.forall₂_nil_left_iff]
      exact ⟨fun h => (Except.ok.inj h).symm, fun h => h ▸ rfl⟩
  | cons a as ih =>
      rw [List.mapM_cons, Except.bind_eq_ok]
      constructor
      · rintro ⟨v, hv, h⟩
        obtain ⟨vs', hvs', h⟩ := Except.bind_eq_ok.mp h
        cases h
        exact .cons hv (ih.mp hvs')
      · rintro (_ | ⟨hv, hvs⟩)
        exact ⟨_, hv, Except.bind_eq_ok.mpr ⟨_, ih.mpr hvs, rfl⟩⟩

/-- A reference has a value if the definition that gives it has been computed. -/
theorem topValue_eq_ok {i : DefnId} {index : Nat} {v : Value} :
    topValue p m i index = .ok v ↔ ∃ id vals, topTarget p m i = .ok id ∧
      m.tops.lookup id = some vals ∧ vals[index]? = some v := by
  constructor
  · intro h
    obtain ⟨id, htarget, h⟩ := Except.bind_eq_ok.mp h
    obtain ⟨vals, hvals, h⟩ := Except.bind_eq_ok.mp h
    refine ⟨id, vals, htarget, ?_, ?_⟩
    · unfold topValues at hvals
      split at hvals
      · rename_i hlookup
        cases hvals
        exact hlookup
      · split at hvals
        · cases hvals
        · split at hvals
          · split at hvals <;> cases hvals
          · cases hvals
    · split at h
      · rename_i hget
        cases h
        exact hget
      · cases h
  · rintro ⟨id, vals, htarget, hlookup, hget⟩
    have hvals : topValues p m id = .ok vals := by
      unfold topValues
      rw [hlookup]
    refine Except.bind_eq_ok.mpr ⟨id, htarget, Except.bind_eq_ok.mpr ⟨vals, hvals, ?_⟩⟩
    rw [hget]
    rfl

end Moves

/-! ### Derivations and runs -/

/-- What is done with a move, with what remains to be done afterwards. -/
def Move.go (p : Program) (m : Machine) (stack : List Frame) : Move → Next × Machine
  | .values vs => deliver p stack m vs
  | .job (.tail t env) => (.tail (some t) env stack, m)
  | .job (.code c env) => enterCode p m c env stack
  | .bind vars t env next => (.tail (some t) env (.bind vars next env :: stack), m)

section Go

variable {p : Program} {m m' : Machine} {j : Job} {stack : List Frame}

theorem go_of_move {mv : Move} (h : j.move p m = .ok (mv, m')) :
    j.go p m stack = mv.go p m' stack := by
  cases j with
  | tail t env =>
      obtain ⟨⟨e, m₁⟩, hop, h⟩ := Except.bind_eq_ok.mp h
      obtain ⟨mv', hmv, h⟩ := Except.bind_eq_ok.mp h
      cases h
      rw [Job.go, perform, hop]
      unfold Effect.move at hmv
      split at hmv <;> cases hmv <;> rfl
  | code c env =>
      cases c with
      | bind vars t next =>
          cases h
          rfl
      | done t =>
          cases h
          rfl
      | branch cond t f =>
          obtain ⟨call, hcall, h⟩ := Except.bind_eq_ok.mp h
          cases h
          rw [Job.go, enterCode, hcall]
          rfl
      | case scrut alts default =>
          obtain ⟨call, hcall, h⟩ := Except.bind_eq_ok.mp h
          cases h
          rw [Job.go, enterCode, hcall]
          rfl

/-- A run in this place does not end with values. -/
inductive Stuck : Next → Prop
  | halt (h : Halt) : Stuck (.halt h)
  | missing (env : Locals) (stack : List Frame) : Stuck (.tail none env stack)

theorem Stuck.not_loop {c : Next} (hc : Stuck c) {n : Nat} {vals : List Value} {mf : Machine} :
    loop p n c m ≠ (.ok vals, mf) := by
  have hhalt (n : Nat) (h : Halt) (m : Machine) : loop p n (.halt h) m ≠ (.ok vals, mf) := by
    intro heq
    cases n <;> cases heq
  cases hc with
  | halt h => exact hhalt n h m
  | missing env stack =>
      cases n with
      | zero =>
          intro heq
          cases heq
      | succ n =>
          rw [loop, step]
          dsimp only
          split <;> exact hhalt n _ _

/-- A job that does not go through leaves the machine waiting for a top-level value, or stuck. -/
theorem go_of_error {s : Stall} (h : j.move p m = .error s) :
    j.go p m stack = onStall m s (some j.resume) stack ∨
      (∃ h, s = .halt h) ∧ Stuck (j.go p m stack).1 := by
  cases j with
  | tail t env =>
      rcases Except.bind_eq_error.mp h with hop | ⟨⟨e, m₁⟩, hop, h⟩
      · left
        rw [Job.go, perform, hop]
        rfl
      · right
        rw [Job.go, perform, hop]
        rcases Except.bind_eq_error.mp h with hmv | ⟨mv, -, h⟩
        · unfold Effect.move at hmv
          split at hmv <;> cases hmv
          · exact ⟨⟨_, rfl⟩, .halt _⟩
          · exact ⟨⟨_, rfl⟩, .missing _ _⟩
        · cases h
  | code c env =>
      left
      cases c with
      | bind vars t next => cases h
      | done t => cases h
      | branch cond t f =>
          rcases Except.bind_eq_error.mp h with hcall | ⟨call, -, h⟩
          · rw [Job.go, enterCode, hcall]
            rfl
          · cases h
      | case scrut alts default =>
          rcases Except.bind_eq_error.mp h with hcall | ⟨call, -, h⟩
          · rw [Job.go, enterCode, hcall]
            rfl
          · cases h

theorem go_of_stall {id : DefnId} {pos : Position} {t : Option Tail}
    (h : j.move p m = .error (.top id pos t)) :
    j.go p m stack = (.tail t [] (.top id m.pos (some j.resume) :: stack),
      { m with pos, active := id :: m.active }) := by
  rcases go_of_error h with hgo | ⟨⟨_, hhalt⟩, -⟩
  · exact hgo
  · cases hhalt

theorem stuck_of_halt {h : Halt} (hmove : j.move p m = .error (.halt h)) :
    Stuck (j.go p m stack).1 := by
  rcases go_of_error hmove with hgo | ⟨-, hstuck⟩
  · rw [hgo]
    exact .halt h
  · exact hstuck

/-- Without fuel, a tail is counted and performed. -/
theorem step_some (hfuel : m.fuel ≤ 0) (t : Tail) (env : Locals) :
    step p m (some t) env stack = Job.go p m.tick stack (.tail t env) := by
  have hnot : ¬ (0 < m.fuel ∧ m.fuel < ((m.steps + 1 : Nat) : Int)) := by omega
  rw [step]
  dsimp only
  rw [if_neg hnot]
  rfl

/-- When the values of a top-level definition are there, the job that waits for them is taken up. -/
theorem deliver_top (id : DefnId) (saved : Position) (vals : List Value) :
    deliver p (.top id saved (some j.resume) :: stack) m vals =
      j.go p (m.keeping id saved vals) stack := by
  cases j with
  | tail t env => rfl
  | code c env => rfl

end Go

/-- The top-level definition for which the machine works: the innermost one that it computes. -/
def owner? : List Frame → Option DefnId
  | [] => none
  | .bind _ _ _ :: stack => owner? stack
  | .top id _ _ :: _ => some id

/-- Are the operations of the rest of a run, as far as `n` steps go, allowed? -/
def LoopAllowed (p : Program) (ok : Option DefnId → Tail → Prop) : Nat → Next → Machine → Prop
  | n + 1, .tail (some t) env stack, m => ok (owner? stack) t ∧
      LoopAllowed p ok n (step p m (some t) env stack).1 (step p m (some t) env stack).2
  | _, _, _ => True

section Runs

variable {p : Program} {ok : Option DefnId → Tail → Prop}

/-- A tail that comes next in a run that ends with values is taken up. -/
theorem taken {n : Nat} {m mf : Machine} {t : Tail} {env : Locals} {stack : List Frame}
    {vals : List Value} (hfuel : m.fuel ≤ 0)
    (hloop : loop p n (.tail (some t) env stack) m = (.ok vals, mf))
    (hall : LoopAllowed p ok n (.tail (some t) env stack) m) :
    ∃ k, n = k + 1 ∧ Job.Allowed ok (owner? stack) (.tail t env) ∧
      loop p k (Job.go p m.tick stack (.tail t env)).1 (Job.go p m.tick stack (.tail t env)).2 =
        (.ok vals, mf) ∧
      LoopAllowed p ok k (Job.go p m.tick stack (.tail t env)).1
        (Job.go p m.tick stack (.tail t env)).2 := by
  cases n with
  | zero => cases hloop
  | succ k =>
      rw [loop] at hloop
      rw [LoopAllowed] at hall
      rw [step_some hfuel] at hloop hall
      exact ⟨k, rfl, hall.1, hloop, hall.2⟩

/-- A run without fuel that ends with values begins with a derivation of its job. The bodies that
are entered on the way are not counted, but no body is entered from a body at once. -/
theorem evaluates_of_loop {n : Nat} {m mf : Machine} {j : Job} {stack : List Frame}
    {vals : List Value} (hfuel : m.fuel ≤ 0) (hok : j.Allowed ok (owner? stack))
    (hloop : loop p n (j.go p m stack).1 (j.go p m stack).2 = (.ok vals, mf))
    (hall : LoopAllowed p ok n (j.go p m stack).1 (j.go p m stack).2) :
    ∃ k vs m', k ≤ n ∧ m'.fuel ≤ 0 ∧ Evaluates p ok (owner? stack) m j vs m' ∧
      loop p k (deliver p stack m' vs).1 (deliver p stack m' vs).2 = (.ok vals, mf) ∧
      LoopAllowed p ok k (deliver p stack m' vs).1 (deliver p stack m' vs).2 := by
  cases hmove : j.move p m with
  | error s =>
      cases s with
      | halt h => exact absurd hloop (stuck_of_halt hmove).not_loop
      | top id pos t =>
          rw [go_of_stall hmove] at hloop hall
          cases t with
          | none => exact absurd hloop (Stuck.missing _ _).not_loop
          | some t =>
              obtain ⟨n, rfl, hok', hloop, hall⟩ := taken (by exact hfuel) hloop hall
              obtain ⟨k, vs, m₁, hk, hfuel₁, htop, hloop, hall⟩ :=
                evaluates_of_loop (by exact hfuel) hok' hloop hall
              rw [deliver_top] at hloop hall
              obtain ⟨k', vs', m', hk', hfuel', hrest, hloop, hall⟩ :=
                evaluates_of_loop (by exact hfuel₁) hok hloop hall
              exact ⟨k', vs', m', by omega, hfuel', .stall hmove htop hrest, hloop, hall⟩
  | ok r =>
      obtain ⟨mv, m₁⟩ := r
      have hfuel₁ : m₁.fuel ≤ 0 := (steady_move hmove).fuel ▸ hfuel
      rw [go_of_move hmove] at hloop hall
      cases mv with
      | values vs => exact ⟨n, vs, m₁, Nat.le_refl n, hfuel₁, .values hok hmove, hloop, hall⟩
      | job j' =>
          cases j' with
          | tail t env =>
              obtain ⟨n, rfl, hok', hloop, hall⟩ := taken hfuel₁ hloop hall
              obtain ⟨k, vs, m', hk, hfuel', hrest, hloop, hall⟩ :=
                evaluates_of_loop (by exact hfuel₁) hok' hloop hall
              exact ⟨k, vs, m', by omega, hfuel', .job hok hmove hrest, hloop, hall⟩
          | code c env =>
              have hweight := weight_of_move hmove
              obtain ⟨k, vs, m', hk, hfuel', hrest, hloop, hall⟩ :=
                evaluates_of_loop (j := .code c env) hfuel₁ trivial hloop hall
              exact ⟨k, vs, m', hk, hfuel', .job hok hmove hrest, hloop, hall⟩
      | bind vars t env next =>
          obtain ⟨n, rfl, hok', hloop, hall⟩ := taken hfuel₁ hloop hall
          obtain ⟨k, vs, m₂, hk, hfuel₂, htail, hloop, hall⟩ :=
            evaluates_of_loop (by exact hfuel₁) hok' hloop hall
          by_cases hlen : vs.length = vars.length
          · rw [deliver, if_neg (not_not.mpr hlen)] at hloop hall
            obtain ⟨k', vs', m', hk', hfuel', hrest, hloop, hall⟩ :=
              evaluates_of_loop (j := .code next (assign env vars vs)) hfuel₂ trivial hloop hall
            exact ⟨k', vs', m', by omega, hfuel', .bind hok hmove htail hlen hrest, hloop, hall⟩
          · rw [deliver, if_pos hlen] at hloop
            exact absurd hloop (Stuck.halt _).not_loop
termination_by 2 * n + j.weight
decreasing_by all_goals simp only [Job.weight] at *; omega

/-- A derivation leaves the word size, the fuel and the list of what is being computed as they
are. -/
theorem Evaluates.frame {o : Option DefnId} {m m' : Machine} {j : Job} {vals : List Value}
    (h : Evaluates p ok o m j vals m') :
    m'.size = m.size ∧ m'.fuel = m.fuel ∧ m'.active = m.active := by
  induction h with
  | values _ hmove =>
      have hs := steady_move hmove
      exact ⟨hs.size, hs.fuel, hs.active⟩
  | @job _ _ _ _ _ j' _ _ hmove _ ih =>
      have hs := steady_move hmove
      rw [← hs.size, ← hs.fuel, ← hs.active]
      cases j' <;> exact ih
  | bind _ hmove _ _ _ ih₁ ih₂ =>
      have hs := steady_move hmove
      rw [← hs.size, ← hs.fuel, ← hs.active]
      exact ⟨ih₂.1.trans ih₁.1, ih₂.2.1.trans ih₁.2.1, ih₂.2.2.trans ih₁.2.2⟩
  | @stall _ m m₁ _ _ id pos _ vs _ hmove _ _ ih₁ ih₂ =>
      have hactive : (m₁.keeping id m.pos vs).active = m.active := by
        show m₁.active.erase id = m.active
        rw [ih₁.2.2]
        exact List.erase_cons_head id m.active
      exact ⟨ih₂.1.trans ih₁.1, ih₂.2.1.trans ih₁.2.1, ih₂.2.2.trans hactive⟩

/-- What is being computed has no values yet. -/
def Idle (m : Machine) : Prop := ∀ i ∈ m.active, m.tops.lookup i = none

theorem Idle.of_steady {m m' : Machine} (h : m.Idle) (hs : Steady m m') : m'.Idle := by
  unfold Idle
  rw [hs.active, hs.tops]
  exact h

theorem Steady.tick (m : Machine) : Steady m m.tick := ⟨rfl, rfl, rfl, rfl⟩

theorem Steady.taking (m : Machine) (j : Job) : Steady m (m.taking j) := by
  cases j with
  | tail t env => exact .tick m
  | code c env => exact .refl m

theorem Steady.trans {m m' m'' : Machine} (h : Steady m m') (h' : Steady m' m'') : Steady m m'' :=
  ⟨h'.size.trans h.size, h'.fuel.trans h.fuel, h'.tops.trans h.tops, h'.active.trans h.active⟩

theorem Idle.opening {m : Machine} (h : m.Idle) {j : Job} {id : DefnId} {pos : Position}
    {t : Option Tail} (hmove : j.move p m = .error (.top id pos t)) : (m.opening id pos).Idle := by
  intro i hi
  rcases List.mem_cons.mp hi with rfl | hi
  · exact (errs_move _ _ hmove).1
  · exact h i hi

theorem lookup_keeping {m : Machine} {id i : DefnId} {saved : Position} {vs : List Value}
    (hi : i ≠ id) : (m.keeping id saved vs).tops.lookup i = m.tops.lookup i := by
  show ((id, vs) :: m.tops).lookup i = _
  rw [List.lookup_cons, beq_eq_false_iff_ne.mpr hi]

theorem lookup_keeping_self (m : Machine) (id : DefnId) (saved : Position) (vs : List Value) :
    (m.keeping id saved vs).tops.lookup id = some vs := by
  show ((id, vs) :: m.tops).lookup id = _
  rw [List.lookup_cons, beq_self_eq_true]

/-- A top-level definition has been computed: what is being computed then is what was being computed
before. -/
theorem Evaluates.active_keeping {o : Option DefnId} {m m₁ : Machine} {j : Job} {id : DefnId}
    {pos saved : Position} {vs : List Value} (h : Evaluates p ok o (m.opening id pos) j vs m₁) :
    (m₁.keeping id saved vs).active = m.active := by
  show m₁.active.erase id = m.active
  rw [h.frame.2.2]
  exact List.erase_cons_head id m.active

/-- Machines in which what is being computed has no values, the later of which keeps the values of
the earlier. -/
structure Keeps (m m' : Machine) : Prop where
  idle : m'.Idle
  old : ∀ i vs, m.tops.lookup i = some vs → m'.tops.lookup i = some vs

theorem Keeps.of_steady {m m' : Machine} (h : m.Idle) (hs : Steady m m') : Keeps m m' :=
  ⟨h.of_steady hs, fun _ _ hi => hs.tops ▸ hi⟩

theorem Keeps.trans {m m' m'' : Machine} (h : Keeps m m') (h' : Keeps m' m'') : Keeps m m'' :=
  ⟨h'.idle, fun i vs hi => h'.old i vs (h.old i vs hi)⟩

theorem Keeps.keeping {m m₁ : Machine} {j : Job} {id : DefnId} {pos : Position}
    {t : Option Tail} (hmove : j.move p m = .error (.top id pos t))
    (hactive : m₁.active = id :: m.active) (h : Keeps (m.opening id pos) m₁) (vs : List Value) :
    Keeps m (m₁.keeping id m.pos vs) := by
  obtain ⟨-, hnot, -⟩ := errs_move _ _ hmove
  have hid : m₁.tops.lookup id = none := h.idle id (hactive ▸ .head _)
  constructor
  · intro i hi
    have hi : i ∈ m₁.active.erase id := hi
    rw [hactive, List.erase_cons_head] at hi
    have hne : i ≠ id := fun heq => hnot (heq ▸ hi)
    rw [lookup_keeping hne]
    exact h.idle i (hactive ▸ .tail _ hi)
  · intro i vs' hi
    have hi₁ : m₁.tops.lookup i = some vs' := h.old i vs' hi
    rw [lookup_keeping, hi₁]
    rintro rfl
    rw [hid] at hi₁
    cases hi₁

/-- A derivation keeps the values that were there, and computes none for what is being computed. -/
theorem Evaluates.keeps {o : Option DefnId} {m m' : Machine} {j : Job} {vals : List Value}
    (h : Evaluates p ok o m j vals m') (hidle : m.Idle) : Keeps m m' := by
  induction h with
  | values _ hmove => exact .of_steady hidle (steady_move hmove)
  | @job _ _ m₁ _ _ j' _ _ hmove _ ih =>
      have hkeeps := Keeps.of_steady hidle ((steady_move hmove).trans (.taking m₁ j'))
      exact hkeeps.trans (ih hkeeps.idle)
  | @bind _ _ m₁ _ _ _ _ _ _ _ _ _ _ hmove _ _ _ ih₁ ih₂ =>
      have hkeeps := Keeps.of_steady hidle ((steady_move hmove).trans (.tick m₁))
      have hkeeps₁ := ih₁ hkeeps.idle
      exact hkeeps.trans (hkeeps₁.trans (ih₂ hkeeps₁.idle))
  | @stall _ _ _ _ _ _ _ _ vs _ hmove htop _ ih₁ ih₂ =>
      have hkeeps := Keeps.keeping hmove htop.frame.2.2 (ih₁ (hidle.opening hmove)) vs
      exact hkeeps.trans (ih₂ hkeeps.idle)

theorem loop_succ {n : Nat} {m : Machine} {t : Tail} {env : Locals} {stack : List Frame}
    (hfuel : m.fuel ≤ 0) : loop p (n + 1) (.tail (some t) env stack) m =
      loop p n (Job.go p m.tick stack (.tail t env)).1 (Job.go p m.tick stack (.tail t env)).2 := by
  rw [loop, step_some hfuel]

/-- From a derivation a run is read off: it comes to where its values are handed on. -/
theorem Evaluates.exists_loop {o : Option DefnId} {m m' : Machine} {j : Job} {vals : List Value}
    (h : Evaluates p ok o m j vals m') (hfuel : m.fuel ≤ 0) (stack : List Frame) (n : Nat) :
    ∃ k, loop p k (j.go p m stack).1 (j.go p m stack).2 =
      loop p n (deliver p stack m' vals).1 (deliver p stack m' vals).2 := by
  induction h generalizing stack n with
  | values _ hmove => exact ⟨n, by rw [go_of_move hmove]; rfl⟩
  | @job _ _ _ _ _ j' _ _ hmove _ ih =>
      have hfuel₁ := (steady_move hmove).fuel ▸ hfuel
      rw [go_of_move hmove]
      cases j' with
      | tail t env =>
          obtain ⟨k, hk⟩ := ih (by exact hfuel₁) stack n
          exact ⟨k + 1, (loop_succ hfuel₁).trans hk⟩
      | code c env => exact ih hfuel₁ stack n
  | @bind _ _ m₁ m₂ _ _ vars t env next vs _ _ hmove htail hlen _ ih₁ ih₂ =>
      have hfuel₁ : m₁.fuel ≤ 0 := (steady_move hmove).fuel ▸ hfuel
      have hfuel₂ : m₂.fuel ≤ 0 := htail.frame.2.1 ▸ hfuel₁
      obtain ⟨k, hk⟩ := ih₂ hfuel₂ stack n
      obtain ⟨k', hk'⟩ := ih₁ hfuel₁ (.bind vars next env :: stack) k
      rw [go_of_move hmove]
      refine ⟨k' + 1, (loop_succ hfuel₁).trans (hk'.trans ?_)⟩
      rw [deliver, if_neg (not_not.mpr hlen)]
      exact hk
  | @stall _ m m₁ _ j id pos t vs _ hmove htop _ ih₁ ih₂ =>
      have hfuel₁ : m₁.fuel ≤ 0 := htop.frame.2.1 ▸ hfuel
      obtain ⟨k, hk⟩ := ih₂ hfuel₁ stack n
      obtain ⟨k', hk'⟩ := ih₁ hfuel (.top id m.pos (some j.resume) :: stack) k
      rw [go_of_stall hmove]
      refine ⟨k' + 1, (loop_succ (by exact hfuel)).trans (hk'.trans ?_)⟩
      rw [deliver_top]
      exact hk

end Runs

end Mil.Machine
