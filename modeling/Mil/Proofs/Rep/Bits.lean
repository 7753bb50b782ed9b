import Mil.Proofs.Machine.Settle
import Mil.Proofs.Machine.Trail
import Mil.Proofs.Optimize.Copy
import Mil.Proofs.Optimize.Duplicates
import Mil.Proofs.Rep.State
import Mil.Proofs.Rep.Words
import Mil.Rep.Generate

/-!
Code that the compiler makes, one primitive after another. Each binding has a new temporary, so what was
computed before can still be read afterwards; and the machine performs the bindings in order, whatever
remains to be done with the tail that comes last.

The functions on bit vectors that the compiler implements. The code is made word by word, each word with
the temporaries that come next; the invariant is that the machine has in the temporaries of the results
the words that the arithmetic of whole words gives. So a closure that is generated for complement or for
negation returns, wherever it is entered, the words of the number that it should.
-/

namespace Mil.Rep

open Machine (Reaches Locals AgreeBelow)
/-! ### Steps that go through -/

/-- The step goes through, and its result and the state that it leaves are as they should be. -/
def Makes {α : Type} (x : TransM α) (s : State) (Q : α → State → Prop) : Prop :=
  ∃ a s', Yields x s a s' ∧ Q a s'

/-- Nothing but temporaries were made. -/
def OnlyTemps (s s' : State) : Prop :=
  ∃ temps : TempTypes, s.program.temps.size ≤ temps.size ∧
    s' = { s with program := { s.program with temps } }

section Makes

variable {α β : Type} {x : TransM α} {s s' s'' : State} {Q : α → State → Prop}

theorem Makes.bind {f : α → TransM β} {Q' : β → State → Prop} (hx : Makes x s Q)
    (hf : ∀ a s', Q a s' → Makes (f a) s' Q') : Makes (x >>= f) s Q' := by
  obtain ⟨a, s₁, hxa, hQ⟩ := hx
  obtain ⟨b, s₂, hfb, hQ'⟩ := hf a s₁ hQ
  exact ⟨b, s₂, yields_bind.mpr ⟨a, s₁, hxa, hfb⟩, hQ'⟩

theorem Makes.pure {a : α} (h : Q a s) : Makes (Pure.pure a) s Q :=
  ⟨a, s, yields_pure.mpr ⟨rfl, rfl⟩, h⟩

theorem Makes.mono {Q' : α → State → Prop} (h : Makes x s Q) (hQ : ∀ a s', Q a s' → Q' a s') :
    Makes x s Q' := by
  obtain ⟨a, s', hxa, ha⟩ := h
  exact ⟨a, s', hxa, hQ a s' ha⟩

theorem Makes.map (f : α → β) (h : Makes x s Q) :
    Makes (f <$> x) s fun b s' => ∃ a, b = f a ∧ Q a s' := by
  rw [← bind_pure_comp]
  exact h.bind fun a _ ha => .pure ⟨a, rfl, ha⟩

theorem makes_get {Q : State → State → Prop} (h : Q s s) : Makes get s Q :=
  ⟨s, s, yields_get.mpr ⟨rfl, rfl⟩, h⟩

theorem makes_store {Q : Store → State → Prop} (h : Q s.program.store s) : Makes store s Q :=
  (makes_get (Q := fun a s' => a = s ∧ s' = s) ⟨rfl, rfl⟩).bind fun _ _ ⟨ha, hs⟩ =>
    .pure (by rw [ha, hs]; exact h)

theorem makes_onProgram {f : Program → α × Program}
    (h : Q (f s.program).1 { s with program := (f s.program).2 }) : Makes (onProgram f) s Q :=
  ⟨_, _, rfl, h⟩

theorem OnlyTemps.refl (s : State) : OnlyTemps s s := ⟨s.program.temps, Nat.le_refl _, rfl⟩

theorem OnlyTemps.trans (h : OnlyTemps s s') (h' : OnlyTemps s' s'') : OnlyTemps s s'' := by
  obtain ⟨temps, hle, rfl⟩ := h
  obtain ⟨temps', hle', rfl⟩ := h'
  exact ⟨temps', Nat.le_trans hle hle', rfl⟩

theorem OnlyTemps.le (h : OnlyTemps s s') : s.program.temps.size ≤ s'.program.temps.size := by
  obtain ⟨temps, hle, rfl⟩ := h
  exact hle

theorem OnlyTemps.defns (h : OnlyTemps s s') : s'.program.defns = s.program.defns := by
  obtain ⟨temps, hle, rfl⟩ := h
  rfl

/-- New temporaries have the numbers that come next. -/
theorem makes_freshTemps (types : List Ty) : Makes (freshTemps types) s fun vs s' =>
    OnlyTemps s s' ∧ vs = List.range' s.program.temps.size types.length ∧
      ∀ v ∈ vs, v < s'.program.temps.size := by
  obtain ⟨hsize, hvars⟩ := s.program.temps.freshAll_spec (types.map some)
  rw [List.length_map] at hsize hvars
  refine makes_onProgram ⟨⟨_, ?_, rfl⟩, hvars, fun v hv => ?_⟩
  · rw [hsize]
    exact Nat.le_add_right _ _
  · have hv : v ∈ (s.program.temps.freshAll (types.map some)).1 := hv
    show v < (s.program.temps.freshAll (types.map some)).2.size
    rw [hvars] at hv
    rw [hsize]
    exact (List.mem_range'_1.mp hv).2

theorem makes_freshTemp (t : Ty) : Makes (onProgram (·.freshTemp (some t))) s fun v s' =>
    OnlyTemps s s' ∧ v = s.program.temps.size ∧ v < s'.program.temps.size := by
  have hsize : (s.program.temps.push (some t)).size = s.program.temps.size + 1 := Array.size_push ..
  refine makes_onProgram ⟨⟨_, ?_, rfl⟩, rfl, ?_⟩
  · rw [hsize]
    exact Nat.le_succ _
  · show s.program.temps.size < (s.program.temps.push (some t)).size
    rw [hsize]
    exact Nat.lt_succ_self _

/-- A primitive with one result is bound to a new temporary. -/
theorem makes_primBinding {q : Prim} {t : Ty} (args : List Atom)
    (hq : q.type.rngTypes s.program.store = [t]) : Makes (primBinding q args) s fun r s' =>
      OnlyTemps s s' ∧ r = (s.program.temps.size, [s.program.temps.size], .prim q args (some q.type)) ∧
        s.program.temps.size < s'.program.temps.size := by
  unfold primBinding
  refine (makes_store (Q := fun a s' => a = s.program.store ∧ s' = s) ⟨rfl, rfl⟩).bind ?_
  rintro _ _ ⟨rfl, rfl⟩
  rw [hq]
  refine (makes_freshTemp t).bind ?_
  rintro v s' ⟨hmade, rfl, hlt⟩
  exact .pure ⟨hmade, rfl, hlt⟩

/-- The program has the definition from then on. -/
theorem makes_add (d : Defn) : Makes (add d) s fun id s' =>
    id = s.program.defns.size ∧ s'.program.defns = s.program.defns.push d :=
  makes_onProgram ⟨rfl, rfl⟩

end Makes

/-! ### Bindings in order -/

/-- Bindings that compute: on every machine with words of that size, each comes to values at once and
leaves the machine as it is. -/
inductive Fills (p : Program) (size : Int) : Locals → List Binding → Locals → Prop
  | nil {env : Locals} : Fills p size env [] env
  | cons {env env' : Locals} {b : Binding} {bs : List Binding} {vs : List Value}
      (hop : ∀ m : Machine, m.size = size → Machine.operate p m env b.2 = .ok (.values vs, m))
      (hlen : vs.length = b.1.length) (hrest : Fills p size (Machine.assign env b.1 vs) bs env') :
      Fills p size env (b :: bs) env'

/-- A definition that has not been replaced stands for itself. -/
theorem resolve_of_defn {p : Program} {d : Defn} {id : DefnId} (hd : p.defns[id]? = some d)
    (hkept : d.replacedBy = none) : p.resolve id = id :=
  Optimize.resolve_of_none fun _ he => Option.some.inj (hd.symm.trans he) ▸ hkept

section Fills

variable {p : Program} {size : Int} {env env' env'' : Locals} {bs bs' : List Binding} {m : Machine}

theorem Fills.append (h : Fills p size env bs env') (h' : Fills p size env' bs' env'') :
    Fills p size env (bs ++ bs') env'' := by
  induction h with
  | nil => exact h'
  | cons hop hlen _ ih => exact .cons hop hlen (ih h')

theorem operate_ret {args : List Atom} {vals : List Value} (hargs : Machine.atoms p m env args = .ok vals) :
    Machine.operate p m env (.ret args) = .ok (.values vals, m) := by
  unfold Machine.operate
  dsimp only
  rw [hargs]
  rfl

/-- An operation that comes to values at once hands them on in one step. -/
theorem reaches_values (hfuel : m.fuel ≤ 0) {t : Tail} {vs : List Value} {m' : Machine}
    (hop : Machine.operate p m.tick env t = .ok (.values vs, m')) (stack : List Machine.Frame) :
    Reaches p (.tail (some t) env stack, m) (Machine.deliver p stack m' vs) := by
  refine (Machine.reaches_tail hfuel t env stack).trans (.of_eq ?_)
  rw [Machine.Job.go, Machine.perform, hop]

/-- A call of a block runs its body. -/
theorem reaches_call (hfuel : m.fuel ≤ 0) {c : BlockCall} {d : Defn} {b : Block} {body : Code}
    {vals : List Value} (hd : p.defns[c.block]? = some d) (hkept : d.replacedBy = none)
    (hb : d.body = .block b) (hbody : b.body = some body)
    (hvals : Machine.atoms p m env c.args = .ok vals) (stack : List Machine.Frame) :
    Reaches p (.tail (some (.call c)) env stack, m)
      (Machine.enterCode p { m.tick with pos := d.pos } body (Machine.assign [] b.params vals) stack) := by
  have hvals' : Machine.atoms p m.tick env c.args = .ok vals := hvals
  have hop : Machine.operate p m.tick env (.call c) =
      .ok (.body b.body (Machine.assign [] b.params vals), { m.tick with pos := d.pos }) := by
    unfold Machine.operate
    dsimp only
    rw [hvals']
    dsimp only [Bind.bind, Except.bind]
    rw [resolve_of_defn hd hkept, block_eq hd hb]
    dsimp only [Machine.orDefect]
    rw [defn_eq hd]
    rfl
  refine (Machine.reaches_tail hfuel _ env stack).trans (.of_eq ?_)
  rw [Machine.Job.go, Machine.perform, hop, hbody]
  rfl

/-- The values of a tail that is bound are there one step later. -/
theorem reaches_bind (hfuel : m.fuel ≤ 0) {vars : List Temp} {t : Tail} {vs : List Value} {m' : Machine}
    (hop : Machine.operate p m.tick env t = .ok (.values vs, m')) (hlen : vs.length = vars.length)
    (next : Code) (stack : List Machine.Frame) :
    Reaches p (Machine.enterCode p m (.bind vars t next) env stack)
      (Machine.enterCode p m' next (Machine.assign env vars vs) stack) := by
  refine (reaches_values hfuel hop (.bind vars next env :: stack)).trans (.of_eq ?_)
  rw [Machine.deliver, if_neg (not_not.mpr hlen)]

/-- The machine performs the bindings and comes to the tail. -/
theorem Fills.reaches (h : Fills p size env bs env') (hsize : m.size = size) (hfuel : m.fuel ≤ 0)
    (t : Tail) (stack : List Machine.Frame) :
    Reaches p (Machine.enterCode p m (sequence bs t) env stack)
      (.tail (some t) env' stack, { m with steps := m.steps + bs.length }) := by
  induction h generalizing m with
  | nil => exact .refl p _
  | @cons env env' b bs vs hop hlen _ ih =>
      have hstep : Reaches p (Machine.enterCode p m (sequence (b :: bs) t) env stack)
          (Machine.enterCode p m.tick (sequence bs t) (Machine.assign env b.1 vs) stack) :=
        reaches_bind hfuel (hop m.tick hsize) hlen (sequence bs t) stack
      have hrest := ih (m := m.tick) hsize hfuel
      have hsteps : m.tick.steps + bs.length = m.steps + (b :: bs).length := by
        rw [Machine.steps_tick, List.length_cons]
        omega
      rw [hsteps] at hrest
      exact hstep.trans hrest

end Fills

variable {n : Nat}

/-! ### What temporaries hold -/

/-- The operand has a literal that is a datum of the target. -/
def Reads (env : Locals) (a : Atom) (d : Datum n) : Prop :=
  ∃ l : Literal, (∀ p m, Machine.atom p m env a = .ok (.ofLit l)) ∧ l.reduce n = d

/-- The temporary has just the literal that stands for a datum of the target. -/
def Holds (env : Locals) (t : Temp) (d : Datum n) : Prop := env.lookup t = some (.ofLit d.literal)

/-- The operands have words with these bits. -/
def ReadsWords (env : Locals) (ts : List Temp) (bs : List (BitVec n)) : Prop :=
  List.Forall₂ (fun t b => Reads env (.temp t) (.word b)) ts bs

/-- The temporaries have just the words of the target with these bits. -/
def HoldsWords (env : Locals) (ts : List Temp) (bs : List (BitVec n)) : Prop :=
  List.Forall₂ (fun t b => Holds env t (.word b)) ts bs

section Reads

variable {env env' : Locals} {t : Temp} {ts : List Temp} {d : Datum n} {bs : List (BitVec n)} {k : Nat}

theorem reduce_literal (hn : Width n) (d : Datum n) : d.literal.reduce n = d := by
  cases d with
  | word b => exact congrArg Datum.word ((Word.bits_eq_ofInt hn _).symm.trans (Word.bits_ofBits hn b))
  | flag b => rfl

theorem atom_temp {v : Value} (h : env.lookup t = some v) (p : Program) (m : Machine) :
    Machine.atom p m env (.temp t) = .ok v := by
  unfold Machine.atom
  dsimp only
  rw [h]

theorem reads_temp {l : Literal} (h : env.lookup t = some (.ofLit l)) :
    Reads env (.temp t) (l.reduce n) := ⟨l, atom_temp h, rfl⟩

theorem Holds.reads (hn : Width n) (h : Holds env t d) : Reads env (.temp t) d := by
  have hreads := reads_temp (n := n) h
  rw [reduce_literal hn] at hreads
  exact hreads

theorem reads_word (c : Word) : Reads env (.word c) ((Literal.word c).reduce n) :=
  ⟨.word c, fun _ _ => rfl, rfl⟩

/-- What agrees on a temporary reads the same from it. -/
theorem Reads.agree (h : Reads env (.temp t) d) (ht : t < k) (hagree : AgreeBelow k env env') :
    Reads env' (.temp t) d := by
  obtain ⟨l, hl, hd⟩ := h
  refine ⟨l, fun p m => ?_, hd⟩
  rw [← hl p m]
  unfold Machine.atom
  dsimp only
  rw [hagree t ht]

theorem Holds.agree (h : Holds env t d) (ht : t < k) (hagree : AgreeBelow k env env') :
    Holds env' t d := (hagree t ht).trans h

theorem ReadsWords.agree (h : ReadsWords env ts bs) (hts : ∀ t ∈ ts, t < k)
    (hagree : AgreeBelow k env env') : ReadsWords env' ts bs := by
  induction h with
  | nil => exact .nil
  | cons hread _ ih =>
      exact .cons (hread.agree (hts _ (.head _)) hagree) (ih fun t ht => hts t (.tail _ ht))

theorem HoldsWords.agree (h : HoldsWords env ts bs) (hts : ∀ t ∈ ts, t < k)
    (hagree : AgreeBelow k env env') : HoldsWords env' ts bs := by
  induction h with
  | nil => exact .nil
  | cons hhold _ ih =>
      exact .cons (hhold.agree (hts _ (.head _)) hagree) (ih fun t ht => hts t (.tail _ ht))

end Reads

/-- Code that was made from a state on, from all values of temporaries for which `P` holds: it computes
values for which `Q` holds, and leaves those of older temporaries as they are. -/
def Leaves (n : Nat) (s : State) (bs : List Binding) (P Q : Locals → Prop) : Prop :=
  ∀ (p : Program) (env : Locals), P env → ∃ env', Fills p n env bs env' ∧
    AgreeBelow s.program.temps.size env env' ∧ Q env'

/-! ### Single primitives -/

/-- The operations that the implementations are made of. -/
def bitOps : List PrimOp := [.not, .neg, .eq, .band, .flagToWord, .add, .and]

section Prims

variable {env : Locals} {op : PrimOp} {s : State}

theorem byRule_of_bitOps (h : op ∈ bitOps) : Machine.ByRule op := by
  revert op
  decide

theorem purity_of_bitOps (h : op ∈ bitOps) : (Prim.builtin op).purity = .pure := by
  revert op
  decide

theorem exists_rngTypes_of_bitOps (h : op ∈ bitOps) (s : Store) :
    ∃ t, (Prim.builtin op).type.rngTypes s = [t] := by
  have hresolve {t : Ty} (ht : t = .word ∨ t = .flag) : s.resolve (.tuple [t]) = .tuple [t] := by
    unfold Store.resolve
    cases s.cells.size with
    | zero => rfl
    | succ k => rcases ht with rfl | rfl <;> rfl
  obtain ⟨t, ht, hrng⟩ : ∃ t, (t = .word ∨ t = .flag) ∧ (Prim.builtin op).type.rng = .tuple [t] := by
    simp only [bitOps, List.mem_cons, List.not_mem_nil, or_false] at h
    rcases h with rfl | rfl | rfl | rfl | rfl | rfl | rfl
    case inr.inr.inl | inr.inr.inr.inl => exact ⟨.flag, .inr rfl, rfl⟩
    all_goals exact ⟨.word, .inl rfl, rfl⟩
  refine ⟨t, ?_⟩
  rw [BlockType.rngTypes, hrng, hresolve ht]
  rfl

/-- What a primitive gives on operands that have been read. -/
theorem operate_reads (hn : Width n) (hop : op ∈ bitOps) {args : List Atom} {ds : List (Datum n)}
    {d : Datum n} {inst : Option BlockType} (hargs : List.Forall₂ (Reads env) args ds)
    (hd : op.onBits? (Datum.operand ds 0) (Datum.operand ds 1) = some d) (p : Program) {m : Machine}
    (hm : m.size = n) :
    Machine.operate p m env (.prim (.builtin op) args inst) = .ok (.values [.ofLit d.literal], m) := by
  obtain ⟨lits, hatoms, hlits⟩ : ∃ lits : List Literal,
      Machine.atoms p m env args = .ok (lits.map .ofLit) ∧ lits.map (Literal.reduce n) = ds := by
    clear hd
    induction hargs with
    | nil => exact ⟨[], rfl, rfl⟩
    | cons hread _ ih =>
        obtain ⟨l, hl, hd⟩ := hread
        obtain ⟨lits, hatoms, hds⟩ := ih
        exact ⟨l :: lits, Machine.atoms_eq_ok.mpr (.cons (hl p m) (Machine.atoms_eq_ok.mp hatoms)),
          by rw [List.map_cons, hd, hds]⟩
  have heval : op.eval? m.size lits = some d.literal := by
    rw [← hlits, Datum.operand_map, Datum.operand_map] at hd
    rw [hm]
    exact (PrimOp.eval?_reduce hn op _ _).trans (congrArg (Option.map Datum.literal) hd)
  exact Machine.operate_byRule (byRule_of_bitOps hop) (purity_of_bitOps hop) hatoms heval

/-- A primitive that is bound to a new temporary: whatever is read beforehand, the temporary has what the
operation gives. -/
theorem makes_bitOp (hn : Width n) (op : PrimOp) (hop : op ∈ bitOps) (args : List Atom) :
    Makes (primBinding (.builtin op) args) s fun r s' => OnlyTemps s s' ∧
      r.1 < s'.program.temps.size ∧
      ∀ (ds : List (Datum n)) (d : Datum n),
        op.onBits? (Datum.operand ds 0) (Datum.operand ds 1) = some d →
        Leaves n s [r.2] (fun env => List.Forall₂ (Reads env) args ds) (Holds · r.1 d) := by
  obtain ⟨t, ht⟩ := exists_rngTypes_of_bitOps hop s.program.store
  refine (makes_primBinding args ht).mono ?_
  rintro _ s' ⟨hmade, rfl, hlt⟩
  refine ⟨hmade, hlt, fun ds d hd p env hargs => ?_⟩
  refine ⟨Machine.assign env [s.program.temps.size] [.ofLit d.literal], ?_, ?_, ?_⟩
  · exact .cons (fun m hm => operate_reads hn hop hargs hd p hm) rfl .nil
  · exact AgreeBelow.fresh env (fun y hy => Nat.le_of_eq (List.mem_singleton.mp hy).symm) _
  · exact List.lookup_cons_self

end Prims

/-! ### Words, one after another -/

/-- What was made between two states turns words that are read from `xs` into words that `r` has as
operands. Which words they are may depend on what the values of other temporaries are. -/
structure Turns {ι : Type} (n : Nat) (s s' : State) (xs : List Temp) (r : List Atom × List Binding)
    (P : ι → Locals → Prop) (f : ι → List (BitVec n) → List (BitVec n)) : Prop where
  made : OnlyTemps s s'
  words : ∃ ys : List Temp, r.1 = ys.map .temp ∧ ys.length = xs.length ∧
    (∀ y ∈ ys, y < s'.program.temps.size) ∧
    ∀ i bs, Leaves n s r.2 (fun env => P i env ∧ ReadsWords env xs bs) (HoldsWords · ys (f i bs))

/-- The carry that comes in: a truth value in a temporary. For the first word there is none, and it is
set. -/
def CarryIs (n : Nat) (carry : Option Temp) (c : Bool) (env : Locals) : Prop :=
  match carry with
  | none => c = true
  | some t => Reads env (.temp t) (Datum.flag (n := n) c)

section Words

variable {s : State} {xs : List Temp} {x : Temp} {carry : Option Temp}

theorem CarryIs.agree {c : Bool} {env env' : Locals} {k : Nat} (h : CarryIs n carry c env)
    (hcarry : ∀ t ∈ carry, t < k) (hagree : AgreeBelow k env env') : CarryIs n carry c env' := by
  cases carry with
  | none => exact h
  | some t => exact Reads.agree h (hcarry t rfl) hagree

theorem makes_notWords (hn : Width n) (hxs : ∀ x ∈ xs, x < s.program.temps.size) :
    Makes (notWords xs) s fun r s' =>
      Turns n s s' xs r (fun (_ : Unit) _ => True) fun _ => List.map (~~~ ·) := by
  induction xs generalizing s with
  | nil =>
      refine .pure ⟨.refl s, [], rfl, rfl, (fun _ h => nomatch h), fun _ bs p env ⟨_, hbs⟩ => ?_⟩
      cases hbs
      exact ⟨env, .nil, .refl _ _, .nil⟩
  | cons x xs ih =>
      obtain ⟨hx, hxs⟩ := List.forall_mem_cons.mp hxs
      unfold notWords
      refine (makes_bitOp hn .not (by decide) [.temp x]).bind ?_
      rintro ⟨y, b⟩ s₁ ⟨hmade₁, hy, hnot⟩
      refine (ih fun x hx => Nat.lt_of_lt_of_le (hxs x hx) hmade₁.le).bind ?_
      rintro ⟨out, bs⟩ s₂ ⟨hmade₂, ys, rfl, hlen, hys, hrest⟩
      refine .pure ⟨hmade₁.trans hmade₂, y :: ys, rfl, congrArg (· + 1) hlen, ?_, ?_⟩
      · exact List.forall_mem_cons.mpr ⟨Nat.lt_of_lt_of_le hy hmade₂.le, hys⟩
      · rintro i (_ | ⟨c, cs⟩) p env ⟨-, _ | ⟨hc, hcs⟩⟩
        obtain ⟨env₁, hfill₁, hagree₁, hhold₁⟩ := hnot [.word c] _ rfl p env (.cons hc .nil)
        obtain ⟨env₂, hfill₂, hagree₂, hhold₂⟩ :=
          hrest i cs p env₁ ⟨trivial, ReadsWords.agree hcs hxs hagree₁⟩
        refine ⟨env₂, hfill₁.append hfill₂, hagree₁.trans (hagree₂.mono hmade₁.le), ?_⟩
        exact .cons (hhold₁.agree hy hagree₂) hhold₂

/-- The carry into the next word is there. -/
theorem makes_nextCarry (hn : Width n) (hcarry : ∀ c ∈ carry, c < s.program.temps.size) (x : Temp) :
    Makes (nextCarry carry x) s fun r s' => OnlyTemps s s' ∧ r.1 < s'.program.temps.size ∧
      ∀ (c : Bool) (b : BitVec n),
        Leaves n s r.2 (fun env => CarryIs n carry c env ∧ Reads env (.temp x) (.word b))
          (CarryIs n (some r.1) (c && b == 0)) := by
  unfold nextCarry
  refine (makes_bitOp hn .eq (by decide) [.temp x, .word 0]).bind ?_
  rintro ⟨z, b₁⟩ s₁ ⟨hmade₁, hz, heq⟩
  have hzero (b : BitVec n) : Leaves n s [b₁] (fun env => Reads env (.temp x) (.word b))
      (Holds · z (Datum.flag (n := n) (b == 0))) := by
    intro p env hx
    refine heq [.word b, (Literal.word 0).reduce n] _ ?_ p env (.cons hx (.cons (reads_word 0) .nil))
    have hbits : ((Literal.word 0).reduce n).bits = 0 :=
      (Literal.bits_reduce hn _).trans (Word.bits_zero n)
    show some (Datum.flag (decide (b = ((Literal.word 0).reduce n).bits))) = _
    rw [hbits, beq_eq_decide]
  cases carry with
  | none =>
      refine .pure ⟨hmade₁, hz, fun c b p env ⟨hc, hx⟩ => ?_⟩
      obtain ⟨env₁, hfill, hagree, hhold⟩ := hzero b p env hx
      have hc : c = true := hc
      subst hc
      exact ⟨env₁, hfill, hagree, hhold.reads hn⟩
  | some t =>
      refine (makes_bitOp hn .band (by decide) [.temp t, .temp z]).bind ?_
      rintro ⟨both, b₂⟩ s₂ ⟨hmade₂, hboth, hand⟩
      refine .pure ⟨hmade₁.trans hmade₂, hboth, fun c b p env ⟨hc, hx⟩ => ?_⟩
      obtain ⟨env₁, hfill₁, hagree₁, hhold₁⟩ := hzero b p env hx
      have hc₁ : Reads env₁ (.temp t) (Datum.flag (n := n) c) := CarryIs.agree hc hcarry hagree₁
      obtain ⟨env₂, hfill₂, hagree₂, hhold₂⟩ :=
        hand [.flag c, .flag (b == 0)] _ rfl p env₁ (.cons hc₁ (.cons (hhold₁.reads hn) .nil))
      exact ⟨env₂, hfill₁.append hfill₂, hagree₁.trans (hagree₂.mono hmade₁.le), hhold₂.reads hn⟩

/-- A negated word is there. -/
theorem makes_negateWord (hn : Width n) (hx : x < s.program.temps.size) :
    Makes (negateWord carry x) s fun r s' => OnlyTemps s s' ∧ r.1 < s'.program.temps.size ∧
      ∀ (c : Bool) (b : BitVec n),
        Leaves n s r.2 (fun env => CarryIs n carry c env ∧ Reads env (.temp x) (.word b))
          (Holds · r.1 (.word (negated c b))) := by
  unfold negateWord
  cases carry with
  | none =>
      refine (makes_bitOp hn .neg (by decide) [.temp x]).bind ?_
      rintro ⟨y, b₁⟩ s₁ ⟨hmade₁, hy, hneg⟩
      refine .pure ⟨hmade₁, hy, fun c b p env ⟨hc, hx⟩ => ?_⟩
      have hc : c = true := hc
      subst hc
      refine hneg [.word b] _ ?_ p env (.cons hx .nil)
      exact congrArg (some ∘ Datum.word) (BitVec.neg_eq_not_add b)
  | some t =>
      refine (makes_bitOp hn .flagToWord (by decide) [.temp t]).bind ?_
      rintro ⟨w, b₁⟩ s₁ ⟨hmade₁, hw, hflag⟩
      refine (makes_bitOp hn .not (by decide) [.temp x]).bind ?_
      rintro ⟨m, b₂⟩ s₂ ⟨hmade₂, hm, hnot⟩
      refine (makes_bitOp hn .add (by decide) [.temp m, .temp w]).bind ?_
      rintro ⟨y, b₃⟩ s₃ ⟨hmade₃, hy, hadd⟩
      refine .pure ⟨(hmade₁.trans hmade₂).trans hmade₃, hy, fun c b p env ⟨hc, hb⟩ => ?_⟩
      obtain ⟨env₁, hfill₁, hagree₁, hhold₁⟩ := hflag [.flag c] _ rfl p env (.cons hc .nil)
      obtain ⟨env₂, hfill₂, hagree₂, hhold₂⟩ :=
        hnot [.word b] _ rfl p env₁ (.cons (hb.agree hx hagree₁) .nil)
      have hw₂ := (hhold₁.agree hw hagree₂).reads hn
      obtain ⟨env₃, hfill₃, hagree₃, hhold₃⟩ :=
        hadd [.word (~~~ b), .word (if c then 1 else 0)] _ rfl p env₂
          (.cons (hhold₂.reads hn) (.cons hw₂ .nil))
      refine ⟨env₃, hfill₁.append (hfill₂.append hfill₃), ?_, hhold₃⟩
      exact hagree₁.trans ((hagree₂.mono hmade₁.le).trans
        (hagree₃.mono (Nat.le_trans hmade₁.le hmade₂.le)))

theorem makes_negateWords (hn : Width n) (hcarry : ∀ c ∈ carry, c < s.program.temps.size)
    (hxs : ∀ x ∈ xs, x < s.program.temps.size) :
    Makes (negateWords carry xs) s fun r s' => Turns n s s' xs r (CarryIs n carry) negatedAll := by
  induction xs generalizing carry s with
  | nil =>
      unfold negateWords
      refine .pure ⟨.refl s, [], rfl, rfl, (fun _ h => nomatch h), fun _ bs p env ⟨_, hbs⟩ => ?_⟩
      cases hbs
      exact ⟨env, .nil, .refl _ _, .nil⟩
  | cons x xs ih =>
      obtain ⟨hx, hxs⟩ := List.forall_mem_cons.mp hxs
      cases xs with
      | nil =>
          unfold negateWords
          refine (makes_negateWord hn hx).bind ?_
          rintro ⟨y, bs⟩ s₁ ⟨hmade₁, hy, hneg⟩
          refine .pure ⟨hmade₁, [y], rfl, rfl, List.forall_mem_cons.mpr ⟨hy, fun _ h => nomatch h⟩, ?_⟩
          rintro c (_ | ⟨b, _ | _⟩) p env ⟨hc, _ | ⟨hb, _ | _⟩⟩
          obtain ⟨env₁, hfill₁, hagree₁, hhold₁⟩ := hneg c b p env ⟨hc, hb⟩
          exact ⟨env₁, hfill₁, hagree₁, .cons hhold₁ .nil⟩
      | cons x' xs =>
          unfold negateWords
          refine (makes_negateWord hn hx).bind ?_
          rintro ⟨y, bs₁⟩ s₁ ⟨hmade₁, hy, hneg⟩
          have hcarry₁ : ∀ c ∈ carry, c < s₁.program.temps.size :=
            fun c hc => Nat.lt_of_lt_of_le (hcarry c hc) hmade₁.le
          have hx₁ := Nat.lt_of_lt_of_le hx hmade₁.le
          refine (makes_nextCarry hn hcarry₁ x).bind ?_
          rintro ⟨t, bs₂⟩ s₂ ⟨hmade₂, ht, hnext⟩
          have hle := Nat.le_trans hmade₁.le hmade₂.le
          have ht₂ : ∀ c ∈ some t, c < s₂.program.temps.size := fun c hc => Option.some.inj hc ▸ ht
          refine (ih ht₂ fun x hx => Nat.lt_of_lt_of_le (hxs x hx) hle).bind ?_
          rintro ⟨out, bs₃⟩ s₃ ⟨hmade₃, ys, rfl, hlen, hys, hrest⟩
          refine .pure
            ⟨(hmade₁.trans hmade₂).trans hmade₃, y :: ys, rfl, congrArg (· + 1) hlen, ?_, ?_⟩
          · exact List.forall_mem_cons.mpr
              ⟨Nat.lt_of_lt_of_le hy (Nat.le_trans hmade₂.le hmade₃.le), hys⟩
          · rintro c (_ | ⟨b, bs⟩) p env ⟨hc, _ | ⟨hb, hbs⟩⟩
            obtain ⟨env₁, hfill₁, hagree₁, hhold₁⟩ := hneg c b p env ⟨hc, hb⟩
            obtain ⟨env₂, hfill₂, hagree₂, hhold₂⟩ :=
              hnext c b p env₁ ⟨hc.agree hcarry hagree₁, hb.agree hx hagree₁⟩
            have hagree₁₂ := hagree₁.trans (hagree₂.mono hmade₁.le)
            obtain ⟨env₃, hfill₃, hagree₃, hhold₃⟩ :=
              hrest (c && b == 0) bs p env₂ ⟨hhold₂, ReadsWords.agree hbs hxs hagree₁₂⟩
            refine ⟨env₃, ?_, hagree₁₂.trans (hagree₃.mono hle), .cons ?_ hhold₃⟩
            · exact (hfill₁.append hfill₂).append hfill₃
            · exact hhold₁.agree hy (hagree₂.trans (hagree₃.mono hmade₂.le))

/-- What is turned for values of temporaries that are always there. -/
theorem Turns.at {ι : Type} {s' : State} {r : List Atom × List Binding} {P : ι → Locals → Prop}
    {f : ι → List (BitVec n) → List (BitVec n)} (h : Turns n s s' xs r P f) {i : ι}
    (hP : ∀ env, P i env) : Turns n s s' xs r (fun (_ : Unit) _ => True) fun _ => f i := by
  obtain ⟨ys, hr, hlen, hys, hturn⟩ := h.words
  exact ⟨h.made, ys, hr, hlen, hys, fun _ bs p env ⟨_, hbs⟩ => hturn i bs p env ⟨hP env, hbs⟩⟩

end Words

/-! ### The last word -/

section Mask

variable {s : State} {env : Locals} {ts : List Temp} {t : Temp} {bs : List (BitVec n)} {b : BitVec n}

theorem holdsWords_concat (h : HoldsWords env ts bs) (ht : Holds env t (.word b)) :
    HoldsWords env (ts ++ [t]) (bs ++ [b]) := List.rel_append h (.cons ht .nil)

theorem HoldsWords.exists_concat (h : HoldsWords env (ts ++ [t]) bs) :
    ∃ (cs : List (BitVec n)) (c : BitVec n), bs = cs ++ [c] ∧ HoldsWords env ts cs ∧
      Holds env t (.word c) := by
  induction ts generalizing bs with
  | nil =>
      cases h with
      | cons hc hrest =>
          cases hrest
          exact ⟨[], _, rfl, .nil, hc⟩
  | cons t' ts ih =>
      cases h with
      | cons hc hrest =>
          obtain ⟨cs, c, rfl, hcs, hlast⟩ := ih hrest
          exact ⟨_ :: cs, c, rfl, .cons hc hcs, hlast⟩

/-- There is a mask if the last word has bits to spare. -/
theorem highMask?_eq (n w : Nat) : highMask? n w =
    if w % n = 0 then none
    else some (Word.shiftLeft 1 (Int64.ofInt ((w % n : Nat) : Int)).toUInt64.toNat - 1) := by
  have hmod : (w : Int).tmod n = ((w % n : Nat) : Int) := (Int.ofNat_tmod w n).symm
  unfold highMask?
  dsimp only
  rw [hmod]
  by_cases hw : w % n = 0
  · rw [if_pos hw, if_pos (by rw [hw]; rfl)]
  · rw [if_neg hw, if_neg (by omega)]

/-- The words that are left stand for the number modulo a power of two. -/
theorem makes_maskLast (hn : Width n) {w : Nat} {ys : List Temp}
    (hys : ∀ y ∈ ys, y < s.program.temps.size) (hlen : ys.length = (wordsFor n w).toNat) :
    Makes (maskLast (highMask? n w) (ys.map .temp)) s fun r s' =>
      OnlyTemps s s' ∧ ∃ zs : List Temp, r.1 = zs.map .temp ∧ ∀ bs : List (BitVec n),
        Leaves n s r.2 (HoldsWords · ys bs) fun env => ∃ cs : List (BitVec n), HoldsWords env zs cs ∧
          cs.length = bs.length ∧ number cs = number bs % 2 ^ w := by
  have hroom := le_mul_wordsFor hn w
  rw [← hlen] at hroom
  rw [highMask?_eq]
  by_cases hw : w % n = 0
  · rw [if_pos hw]
    refine .pure ⟨.refl s, ys, rfl, fun bs p env hbs => ⟨env, .nil, .refl _ _, bs, hbs, rfl, ?_⟩⟩
    have hfull : n * ys.length = w := by
      obtain ⟨k, rfl⟩ := Nat.dvd_of_mod_eq_zero hw
      have hlt : n * ys.length < n * (k + 1) := by rw [Nat.mul_succ]; exact hroom.2
      rw [Nat.le_antisymm (Nat.le_of_lt_succ (Nat.lt_of_mul_lt_mul_left hlt))
        (Nat.le_of_mul_le_mul_left hroom.1 (Width.pos hn))]
    have hlt := number_lt bs
    rw [← List.Forall₂.length_eq hbs, hfull] at hlt
    exact (Nat.mod_eq_of_lt hlt).symm
  · rw [if_neg hw]
    have hr : w % n < n := Nat.mod_lt w (Width.pos hn)
    obtain ⟨ts, t, rfl⟩ : ∃ ts t, ys = ts ++ [t] := by
      refine (List.eq_nil_or_concat' ys).resolve_left ?_
      rintro rfl
      rw [List.length_nil, Nat.mul_zero, Nat.le_zero] at hroom
      rw [hroom.1, Nat.zero_mod] at hw
      exact hw rfl
    have hbits : n * ts.length + w % n = w := by
      rw [List.length_append, List.length_singleton] at hroom
      have hdiv := Nat.div_add_mod w n
      have hle : n * (w / n) < n * (ts.length + 1) := by omega
      have hge : n * ts.length < n * (w / n + 1) := by
        rw [Nat.mul_succ] at hroom ⊢
        omega
      have hlen : ts.length = w / n := Nat.le_antisymm
        (Nat.le_of_lt_succ (Nat.lt_of_mul_lt_mul_left hge))
        (Nat.le_of_lt_succ (Nat.lt_of_mul_lt_mul_left hle))
      rw [hlen, hdiv]
    have hlast : ((ts ++ [t]).map Atom.temp).getLast? = some (.temp t) := by simp
    have hinit : ((ts ++ [t]).map Atom.temp).dropLast = ts.map .temp := by simp
    unfold maskLast
    rw [hlast]
    dsimp only
    rw [hinit]
    refine (makes_bitOp hn .and (by decide) _).bind ?_
    rintro ⟨y, b⟩ s₁ ⟨hmade, hy, hand⟩
    refine .pure ⟨hmade, ts ++ [y], by simp, fun bs p env hbs => ?_⟩
    obtain ⟨cs, c, rfl, hcs, hc⟩ := HoldsWords.exists_concat hbs
    obtain ⟨env₁, hfill, hagree, hhold⟩ :=
      hand [.word c, _] _ rfl p env (.cons (hc.reads hn) (.cons (reads_word _) .nil))
    have hmask : Holds env₁ y (.word (c &&& lowMask n (w % n))) := by
      rw [← bits_mask hn hr, Word.bits_eq_ofInt hn]
      exact hhold
    have hts : ∀ t ∈ ts, t < s.program.temps.size := fun t ht => hys t (List.mem_append_left _ ht)
    refine ⟨env₁, hfill, hagree, _, holdsWords_concat (hcs.agree hts hagree) hmask, by simp, ?_⟩
    rw [number_mask (Nat.le_of_lt hr), ← List.Forall₂.length_eq hcs, hbits]

end Mask

end Mil.Rep
