import Mil.Proofs.Rtl.Carry
import Mil.Proofs.Rtl.Functions

/-!
What the code between two points of a construction does when it runs. Operands are read from the
registers of temporaries or put into new ones; a register that is new belongs to no temporary of the
finished function, so everything that was there before is kept.
-/

namespace Mil

/-- A primitive that is built in and does not touch memory, if the tail is one. -/
def Tail.Builtin : Tail → Prop
  | .prim q _ _ => q.op ≠ .user ∧ q.op.access? = none
  | _ => True

instance : (t : Tail) → Decidable t.Builtin
  | .prim _ _ _ => inferInstanceAs (Decidable (_ ∧ _))
  | .ret _ | .call _ | .alloc _ _ _ | .data _ _ _ | .enter _ _ | .sel _ _ _ _ => isTrue trivial

namespace Rtl

open Typing BuildM

/-- The setting of a word-level program of blocks and closures, for a number of bits. -/
structure Setting.Plain (cx : Setting) (n : Nat) (fields : FieldLayout) : Prop where
  ready : cx.Ready fields
  width : Width n
  size : cx.wordSize = n
  bytes : cx.wordBytes = cx.chunk.bytes
  chunk : 8 * cx.chunk.bytes = n
  defns : ∀ {id d}, id ∈ cx.program.reachable → cx.program.defns[id]? = some d →
    (∃ k, d.body = .block k) ∨ ∃ k, d.body = .closure k
  builtin : ∀ {id d}, id ∈ cx.program.reachable → cx.program.defns[id]? = some d →
    ∀ t ∈ d.body.tails, t.Builtin
  tags : ∀ {name k}, cx.program.env.cfun? name = some k → k.tag < 2 ^ n

/-- No operand is a top-level value. -/
theorem Setting.Plain.defn?_eq_none {cx : Setting} {n : Nat} {fields : FieldLayout}
    (hcx : cx.Plain n fields) {a : Atom} {τ : Ty} (ha : AtomHas (cx.program.wordContext fields) a τ)
    (hreach : ∀ id, a.defn? = some id → id ∈ cx.program.reachable) : a.defn? = none := by
  cases a with
  | temp | lit => rfl
  | top id index site =>
      obtain ⟨t, -, -, htop⟩ := ha
      obtain ⟨d, hd, hindex⟩ := htop id index site rfl
      rcases hcx.defns (hreach id rfl) hd with ⟨k, hk⟩ | ⟨k, hk⟩ <;> rw [hk] at hindex <;> cases hindex

variable {n : Nat} {call : String → List (Val n) → State n → List (Val n) → State n → Prop}

/-! ### Runs between two points -/

/-- The code between two points leads from registers and a state to others: whatever is come to from
there is come to from here. -/
def Runs (call : String → List (Val n) → State n → List (Val n) → State n → Prop) (F b b' : Builder)
    (regs : Regs n) (s : State n) (regs' : Regs n) (s' : State n) : Prop :=
  ∀ node, b.current = some node → ∃ node', b'.current = some node' ∧
    ∀ vals s'', Body call F.code node' regs' s' vals s'' → Body call F.code node regs s vals s''

/-- The code from a point on comes to values. -/
def Ends (call : String → List (Val n) → State n → List (Val n) → State n → Prop) (F b : Builder)
    (regs : Regs n) (s : State n) (vals : List (Val n)) (s' : State n) : Prop :=
  ∀ node, b.current = some node → Body call F.code node regs s vals s'

section Runs

variable {cx : Setting} {F b b₁ b' : Builder} {regs regs₁ regs' : Regs n} {s s₁ s' : State n}
  {vals : List (Val n)}

theorem Runs.of_current (h : b'.current = b.current) : Runs call F b b' regs s regs s :=
  fun node hnode => ⟨node, h.trans hnode, fun _ _ hbody => hbody⟩

theorem Runs.trans (h : Runs call F b b₁ regs s regs₁ s₁) (h' : Runs call F b₁ b' regs₁ s₁ regs' s') :
    Runs call F b b' regs s regs' s' := by
  intro node hnode
  obtain ⟨node₁, hnode₁, hlead₁⟩ := h node hnode
  obtain ⟨node', hnode', hlead'⟩ := h' node₁ hnode₁
  exact ⟨node', hnode', fun vals s'' hbody => hlead₁ vals s'' (hlead' vals s'' hbody)⟩

theorem Runs.ends (h : Runs call F b b₁ regs s regs₁ s₁) (h' : Ends call F b₁ regs₁ s₁ vals s') :
    Ends call F b regs s vals s' := by
  intro node hnode
  obtain ⟨node₁, hnode₁, hlead⟩ := h node hnode
  exact hlead vals s' (h' node₁ hnode₁)

/-- An instruction that was placed stands in the finished function. -/
theorem lookup_of_emit {make : Node → Instr} {u : Unit} (h : Builds cx (emit make) b u b')
    (hle : b'.Le F) {node : Node} (hnode : b.current = some node) :
    b'.current = some b.nextNode ∧ F.code.lookup node = some (make b.nextNode) := by
  rcases Builds.emit_iff.mp h with ⟨hnone, -⟩ | ⟨node', hnode', rfl⟩
  · cases hnode.symm.trans hnone
  · cases hnode.symm.trans hnode'
    exact ⟨rfl, hle.code ((Graph.lookup_insert _ _ _ _).trans (if_pos rfl))⟩

theorem lookup_of_terminate {i : Instr} {u : Unit} (h : Builds cx (terminate i) b u b')
    (hle : b'.Le F) {node : Node} (hnode : b.current = some node) : F.code.lookup node = some i := by
  rcases Builds.terminate_iff.mp h with ⟨hnone, -⟩ | ⟨node', hnode', rfl⟩
  · cases hnode.symm.trans hnone
  · cases hnode.symm.trans hnode'
    exact hle.code ((Graph.lookup_insert _ _ _ _).trans (if_pos rfl))

/-- An instruction makes its step. -/
theorem runs_emit {make : Node → Instr} {u : Unit} (h : Builds cx (emit make) b u b') (hle : b'.Le F)
    (hstep : ∀ next, Step (make next) regs s next regs' s') : Runs call F b b' regs s regs' s' := by
  intro node hnode
  obtain ⟨hcur, hi⟩ := lookup_of_emit h hle hnode
  exact ⟨_, hcur, fun vals s'' hbody => .step hi (hstep _) hbody⟩

/-- An operation sets a register. -/
theorem runs_operation {o : Operation} {args : List Reg} {d : Reg} {u : Unit} {xs : List (Val n)}
    {x : Val n} (hargs : regs.getAll args = some xs) (hx : o.eval xs = some x)
    (h : Builds cx (operation o args d) b u b') (hle : b'.Le F) :
    Runs call F b b' regs s (regs.set d x) s :=
  runs_emit h hle fun _ => .op hargs hx

end Runs

/-! ### Registers -/

section Frames

variable {R : Rules} {D : List Node} {F b b₁ b' : Builder} {regs regs₁ regs' : Regs n} {r : Reg}

/-- A register that was taken before or belongs to a temporary. -/
def Kept (F b : Builder) (r : Reg) : Prop := r < b.nextReg ∨ ∃ t, F.regs.lookup t = some r

/-- Only new registers that belong to no temporary have changed, and some others. -/
def Frame (F b : Builder) (regs regs' : Regs n) : Prop := ∀ r, Kept F b r → regs' r = regs r

theorem Kept.mono (hle : b.nextReg ≤ b'.nextReg) (h : Kept F b r) : Kept F b' r :=
  h.imp_left fun hlt => Int.lt_of_lt_of_le hlt hle

theorem Frame.refl (F b : Builder) (regs : Regs n) : Frame F b regs regs := fun _ _ => rfl

theorem Frame.trans (h : Frame F b regs regs₁) (hle : b.nextReg ≤ b₁.nextReg)
    (h' : Frame F b₁ regs₁ regs') : Frame F b regs regs' :=
  fun r hr => (h' r (hr.mono hle)).trans (h r hr)

/-- A register that is taken for anything but a temporary belongs to none. -/
theorem not_kept_nextReg (hb : b.Sound R D)
    (hle : Builder.Le { b with nextReg := b.nextReg + 1 } F) : ¬ Kept F b b.nextReg := by
  rintro (hlt | ⟨t, ht⟩)
  · exact Int.lt_irrefl _ hlt
  · exact Int.lt_irrefl _ (hb.regs (hle.old ht (Int.lt_succ _)))

theorem frame_set {d : Reg} {x : Val n} (hd : ¬ Kept F b d) : Frame F b regs (regs.set d x) :=
  fun _ hr => regs.set_of_ne x fun he => hd (he ▸ hr)

end Frames

/-! ### Temporaries -/

/-- The temporaries in scope have values of their types, and their registers show these. -/
def Holds (p : Mil.Program) (fields : FieldLayout) (S : Symbols) (F : Builder) (heap : Heap n)
    (regs : Regs n) (env : Machine.Locals) (scope : List Temp) : Prop :=
  ∀ t ∈ scope, ∃ τ v r, p.atomType (.temp t) = some τ ∧ env.lookup t = some v ∧
    CarriedHas p fields v τ ∧ F.regs.lookup t = some r ∧ Shows S heap regs r v

/-- A register that an operand may be read from. -/
def Source (F b : Builder) (scope : List Temp) (r : Reg) : Prop :=
  (∃ t ∈ scope, F.regs.lookup t = some r) ∨ b.nextReg ≤ r

section Operands

variable {cx : Setting} {fields : FieldLayout} {w : Nat} {D : List Node} {S : Symbols}
  {F b b' : Builder} {regs regs' : Regs n} {s : State n} {heap heap' : Heap n} {m : Machine}
  {env : Machine.Locals} {scope : List Temp}

theorem Holds.mono (hle : heap <+: heap') (h : Holds cx.program fields S F heap regs env scope) :
    Holds cx.program fields S F heap' regs env scope := by
  intro t ht
  obtain ⟨τ, v, r, hτ, hv, hhas, hr, hshows⟩ := h t ht
  exact ⟨τ, v, r, hτ, hv, hhas, hr, hshows.mono hle⟩

theorem Holds.congr (hregs : ∀ t ∈ scope, ∀ r, F.regs.lookup t = some r → regs' r = regs r)
    (h : Holds cx.program fields S F heap regs env scope) :
    Holds cx.program fields S F heap regs' env scope := by
  intro t ht
  obtain ⟨τ, v, r, hτ, hv, hhas, hr, hshows⟩ := h t ht
  exact ⟨τ, v, r, hτ, hv, hhas, hr, hshows.congr (hregs t ht r hr)⟩

theorem Holds.frame (hframe : Frame F b regs regs')
    (h : Holds cx.program fields S F heap regs env scope) :
    Holds cx.program fields S F heap regs' env scope :=
  h.congr fun t _ r hr => hframe r (.inr ⟨t, hr⟩)

variable (call)

theorem runs_const (regs : Regs n) (s : State n) {k : Int} {r : Reg} (hb : b.Sound (lawful cx w) D)
    (h : Builds cx (const k) b r b') (hle : b'.Le F) : ∃ regs', Runs call F b b' regs s regs' s ∧
      regs' r = some (.word (BitVec.ofInt n k)) ∧ Frame F b regs regs' ∧ b.nextReg ≤ r ∧
      r < b'.nextReg := by
  rw [BuildM.const, Builds.freshReg_bind] at h
  obtain ⟨_, b₁, hop, h⟩ := Builds.bind_iff.mp h
  obtain ⟨rfl, rfl⟩ := Builds.pure_iff.mp h
  obtain ⟨hb₀, -⟩ := (Acts.of (.reg (R := lawful cx w) (D := D))).sound hb
  obtain ⟨-, hle₁⟩ := (acts_emit (R := lawful cx w) (D := D) hop (fun _ => rfl) fun _ => trivial).sound hb₀
  refine ⟨regs.set b.nextReg (.word (BitVec.ofInt n k)), ?_, Regs.set_self _ _ _,
    frame_set (not_kept_nextReg hb (hle₁.trans hle)), Int.le_refl _,
    Int.lt_of_lt_of_le (Int.lt_succ _) hle₁.nextReg⟩
  have hruns : Runs call F { b with nextReg := b.nextReg + 1 } b' regs s _ s :=
    runs_operation rfl rfl hop hle
  exact hruns

/-- An operand is there in its register. -/
theorem runs_atom (hcx : cx.Plain n fields) (hb : b.Sound (lawful cx w) D) {a : Atom} {τ : Ty} {r : Reg}
    (ha : AtomHas (cx.program.wordContext fields) a τ)
    (hreach : ∀ id, a.defn? = some id → id ∈ cx.program.reachable) (hscope : InScope scope [a])
    (hholds : Holds cx.program fields S F s.heap regs env scope) {v : Value}
    (hv : Machine.atom cx.program m env a = .ok v) (h : Builds cx (atom a) b r b') (hle : b'.Le F) :
    ∃ regs', Runs call F b b' regs s regs' s ∧ Shows S s.heap regs' r v ∧
      CarriedHas cx.program fields v τ ∧ Frame F b regs regs' ∧ Source F b scope r ∧ Kept F b' r := by
  have hplain := hcx.defn?_eq_none ha hreach
  obtain ⟨σ, hσ, rfl, -⟩ := ha
  cases a with
  | temp t =>
      obtain ⟨hr, rfl⟩ := Builds.boundReg_iff.mp h
      obtain ⟨τ', v', r', hτ', hv', hhas, hr', hshows⟩ := hholds t (hscope t (.head _))
      unfold Machine.atom at hv
      dsimp only at hv
      rw [hv'] at hv
      cases hv
      cases hτ'.symm.trans hσ
      cases hr'.symm.trans (hle.regs hr)
      exact ⟨regs, .of_current rfl, hshows, hhas, .refl _ _ _, .inl ⟨t, hscope t (.head _), hr'⟩,
        .inr ⟨t, hr'⟩⟩
  | lit l =>
      cases hv
      cases l with
      | word x =>
          unfold BuildM.atom at h
          dsimp only at h
          rw [Builds.read_bind] at h
          obtain ⟨regs', hruns, hr, hframe, hge, hlt⟩ := runs_const call regs s hb h hle
          rw [hcx.size, Word.ofInt_normalize hcx.width] at hr
          cases hσ
          exact ⟨regs', hruns, ⟨_, hr, .word x⟩, .word, hframe, .inr hge, .inl hlt⟩
      | flag x =>
          unfold BuildM.atom at h
          dsimp only at h
          obtain ⟨regs', hruns, hr, hframe, hge, hlt⟩ := runs_const call regs s hb h hle
          cases hσ
          refine ⟨regs', hruns, ⟨_, hr, ?_⟩, .flag, hframe, .inr hge, .inl hlt⟩
          have hbits : BitVec.ofInt n (if x then 1 else 0) = flagBits n x := by
            cases x <;> rfl
          rw [hbits]
          exact .flag x
  | top id index site => cases hplain

/-- Operands are there in their registers. -/
theorem runs_atoms (hcx : cx.Plain n fields) (hb : b.Sound (lawful cx w) D) {as : List Atom}
    {τs : List Ty} {rs : List Reg} (has : ArgsHave (cx.program.wordContext fields) as τs)
    (hreach : ∀ a ∈ as, ∀ id, a.defn? = some id → id ∈ cx.program.reachable)
    (hscope : InScope scope as) (hholds : Holds cx.program fields S F s.heap regs env scope)
    {vs : List Value} (hvs : Machine.atoms cx.program m env as = .ok vs)
    (h : Builds cx (atoms as) b rs b') (hle : b'.Le F) :
    ∃ regs', Runs call F b b' regs s regs' s ∧ List.Forall₂ (Shows S s.heap regs') rs vs ∧
      List.Forall₂ (CarriedHas cx.program fields) vs τs ∧ Frame F b regs regs' ∧
      ∀ r ∈ rs, Source F b scope r ∧ Kept F b' r := by
  induction has generalizing b regs rs vs with
  | nil =>
      obtain ⟨rfl, rfl⟩ := Builds.mapM_nil_iff.mp h
      cases hvs
      exact ⟨regs, .of_current rfl, .nil, .nil, .refl _ _ _, fun _ hr => nomatch hr⟩
  | @cons a τ as τs ha _ ih =>
      obtain ⟨r, rs', b₁, hr, hrs, rfl⟩ := Builds.mapM_cons_iff.mp h
      unfold Machine.atoms at hvs
      rw [List.mapM_cons] at hvs
      obtain ⟨v, hv, hvs⟩ := Except.bind_eq_ok.mp hvs
      obtain ⟨vs', hvs', hvs⟩ := Except.bind_eq_ok.mp hvs
      cases hvs
      obtain ⟨hb₁, hle₁⟩ := (acts_atom (w := w) (D := D) hr).sound hb
      obtain ⟨-, hle₂⟩ := (acts_atoms (w := w) (D := D) hrs).1.sound hb₁
      obtain ⟨regs₁, hruns₁, hshows, hhas, hframe₁, hsource, hkept⟩ :=
        runs_atom call hcx hb ha (hreach a (.head _))
          (fun t ht => hscope t (List.mem_singleton.mp ht ▸ .head _)) hholds hv hr (hle₂.trans hle)
      obtain ⟨regs', hruns₂, hshows₂, hhas₂, hframe₂, hsources⟩ :=
        ih hb₁ (fun a ha => hreach a (.tail _ ha)) (fun t ht => hscope t (.tail _ ht))
          (hholds.frame hframe₁) hvs' hrs
      refine ⟨regs', hruns₁.trans hruns₂, .cons (hshows.congr (hframe₂ r hkept)) hshows₂,
        .cons hhas hhas₂, hframe₁.trans hle₁.nextReg hframe₂, fun r' hr' => ?_⟩
      rcases List.mem_cons.mp hr' with rfl | hr'
      · exact ⟨hsource, hkept.mono hle₂.nextReg⟩
      · obtain ⟨hsource', hkept'⟩ := hsources r' hr'
        exact ⟨hsource'.imp_right fun hge => Int.le_trans hle₁.nextReg hge, hkept'⟩

end Operands

end Rtl

end Mil
