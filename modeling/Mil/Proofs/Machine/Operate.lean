import Mil.Proofs.Machine.World
import Mil.Proofs.Program.Linked

/-!
Single operations of the machine on values of the right types. An operation gives values of the
right types, or a body or tail of the right type to go on with; or it stalls at a top-level value; or
it fails for a reason that types do not exclude. The one thing that types do not settle is a
selection, which takes the field of whatever constructor it finds.
-/

namespace Mil.Machine

/-- The messages of failures that a well-typed program may end in. -/
inductive Excused : String → Prop
  | divide : Excused "divide by zero error"
  | halt : Excused "halt"
  | loop : Excused "loop"
  | fuel (n : Int) : Excused ("out of fuel after " ++ toString n ++ " steps")
  | alternative (name : String) : Excused ("no alternative for " ++ name)
  | select (field : Int) (name text : String) :
      Excused ("cannot select field " ++ toString field ++ " of " ++ name ++ " from " ++ text)
  | cycle (name : String) : Excused ("top-level " ++ name ++ " depends on its own value")
  | external (name ref : String) :
      Excused ("external " ++ name ++ " (" ++ ref ++ ") has no implementation")
  | prim (name : String) : Excused ("primitive " ++ name ++ " has no implementation")

/-- The run ends with such a failure. -/
def Halt.Excused (h : Halt) : Prop :=
  ∃ pos msg, h = .failure ⟨pos, .runtime, msg⟩ ∧ Machine.Excused msg

theorem excused_fail (m : Machine) {msg : String} (h : Excused msg) : Halt.Excused (m.fail msg) :=
  ⟨m.pos, msg, rfl, h⟩

/-- An operation may stall for an excused failure, or at a top-level definition with a type, whose
tail has all the types that the definition has. -/
def StallOk (p : Program) (W : World) : Stall → Prop
  | .halt h => Halt.Excused h
  | .top id _ t => (∃ τs, W.tops id τs) ∧
      ∃ tail, t = some tail ∧ ∀ τs, W.tops id τs → TailTyped p.env W [] tail (.tuple τs)

/-- An operation gives something with a property, or may stall. -/
def Settles {α : Type} (p : Program) (W : World) (P : α → Prop) : Except Stall α → Prop
  | .ok a => P a
  | .error s => StallOk p W s

theorem Settles.bind {α β : Type} {p : Program} {W : World} {P : α → Prop} {Q : β → Prop}
    {x : Except Stall α} {f : α → Except Stall β} (hx : Settles p W P x)
    (hf : ∀ a, P a → Settles p W Q (f a)) : Settles p W Q (x >>= f) := by
  cases x with
  | error s => exact hx
  | ok a => exact hf a hx

theorem Settles.imp {α : Type} {p : Program} {W : World} {P Q : α → Prop} {x : Except Stall α}
    (hx : Settles p W P x) (h : ∀ a, P a → Q a) : Settles p W Q x := by
  cases x with
  | error s => exact hx
  | ok a => exact h a hx

/-- The temporaries have values of their types. -/
def LocalsHave (E : Env) (W : World) (L : LocalTypes) (env : Locals) : Prop :=
  ∀ t τ, L.lookup t = some τ → ∃ v, env.lookup t = some v ∧ ValueHas E W v τ

theorem LocalsHave.nil {E : Env} {W : World} (env : Locals) : LocalsHave E W [] env :=
  fun _ _ h => nomatch h

/-- Values of the right types can be given to temporaries. -/
theorem LocalsHave.assign {E : Env} {W : World} {L : LocalTypes} {env : Locals} {vars : List Temp}
    {vals : List Value} {τs : List Ty} (h : LocalsHave E W L env)
    (hvals : List.Forall₂ (ValueHas E W) vals τs) :
    LocalsHave E W (L.bind vars τs) (assign env vars vals) := by
  induction hvals generalizing vars L env with
  | nil =>
      rw [LocalTypes.bind, Machine.assign, List.zip_nil_right, List.zip_nil_right]
      exact h
  | @cons v τ vals τs hv _ ih =>
      cases vars with
      | nil => exact h
      | cons x vars =>
          have hstep : LocalsHave E W ((x, τ) :: L) ((x, v) :: env) := by
            intro t σ ht
            rw [List.lookup_cons] at ht ⊢
            by_cases hx : (t == x) = true
            · rw [hx] at ht ⊢
              cases ht
              exact ⟨v, rfl, hv⟩
            · rw [Bool.eq_false_iff.mpr hx] at ht ⊢
              exact h t σ ht
          have hrest : LocalsHave E W (LocalTypes.bind _ vars τs) (Machine.assign _ vars vals) := ih hstep
          unfold LocalTypes.bind Machine.assign at hrest ⊢
          simpa using hrest

/-- The machine works on sixty-four bits, and the top-level values it keeps have all their types. -/
structure MachineOk (p : Program) (W : World) (m : Machine) : Prop where
  size : m.size = 64
  tops : ∀ {id : DefnId} {vals : List Value}, m.tops.lookup id = some vals →
    ∀ τs, W.tops id τs → List.Forall₂ (ValueHas p.env W) vals τs

/-- What the rules are about: a program whose definitions stand for themselves, and a coherent
world. -/
structure Setting (p : Program) (W : World) : Prop where
  coherent : W.Coherent p
  shaped : p.env.Shaped
  resolve : ∀ id, p.resolve id = id

section Operands

variable {p : Program} {W : World} {m : Machine} {L : LocalTypes} {env : Locals}

theorem forall₂_getElem? {α β : Type} {R : α → β → Prop} {as : List α} {bs : List β}
    (h : List.Forall₂ R as bs) {i : Nat} {b : β} (hb : bs[i]? = some b) :
    ∃ a, as[i]? = some a ∧ R a b := by
  induction h generalizing i with
  | nil => cases hb
  | cons hr _ ih =>
      cases i with
      | zero =>
          cases hb
          exact ⟨_, rfl, hr⟩
      | succ i => exact ih hb

theorem topValue_ok (hs : Setting p W) (hm : MachineOk p W m) {id : DefnId} {index : Nat}
    {site : SiteId} {τ : Ty} (h : AtomTyped W L (.top id index site) τ) :
    Settles p W (fun v => ValueHas p.env W v τ) (topValue p m id index) := by
  unfold topValue topTarget
  dsimp only
  rw [hs.resolve]
  rcases h with h | ⟨τs, hτs, hget⟩
  · obtain ⟨d, e, hd, hbody, himpl⟩ := hs.coherent.external h
    rw [hd]
    dsimp only
    rw [hbody]
    dsimp only
    rw [himpl]
    exact excused_fail m (.external _ _)
  · obtain ⟨d, t, tail, hd, hbody, htail, -⟩ := hs.coherent.tops hτs
    rw [hd]
    dsimp only
    rw [hbody]
    have htarget : Settles p W (fun vals => List.Forall₂ (ValueHas p.env W) vals τs)
        (topValues p m id) := by
      unfold topValues Program.defn
      split
      · rename_i hlookup
        exact hm.tops hlookup τs hτs
      · rw [hd]
        dsimp only
        rw [hbody]
        dsimp only
        split
        · exact excused_fail m (.cycle _)
        · refine ⟨⟨τs, hτs⟩, tail, htail, fun τs' hτs' => ?_⟩
          obtain ⟨d', t', tail', hd', hbody', htail', htyped⟩ := hs.coherent.tops hτs'
          rw [hd] at hd'
          cases hd'
          rw [hbody] at hbody'
          cases hbody'
          rw [htail] at htail'
          cases htail'
          exact htyped
    refine htarget.bind fun vals hvals => ?_
    obtain ⟨v, hv, hhas⟩ := forall₂_getElem? hvals hget
    rw [hv]
    exact hhas

theorem atom_ok (hs : Setting p W) (hm : MachineOk p W m) (hL : LocalsHave p.env W L env) {a : Atom}
    {τ : Ty} (h : AtomTyped W L a τ) :
    Settles p W (fun v => ValueHas p.env W v τ) (atom p m env a) := by
  cases a with
  | temp t =>
      obtain ⟨v, hv, hhas⟩ := hL t τ h
      unfold atom
      dsimp only
      rw [hv]
      exact hhas
  | lit l =>
      cases l with
      | word w =>
          obtain rfl : τ = .word := h
          exact .word ⟨.word, rfl, .inl rfl⟩
      | flag b =>
          obtain rfl : τ = .flag := h
          exact .flag
  | top id index site => exact topValue_ok hs hm h

theorem atoms_ok (hs : Setting p W) (hm : MachineOk p W m) (hL : LocalsHave p.env W L env)
    {as : List Atom} {τs : List Ty} (h : AtomsTyped W L as τs) :
    Settles p W (fun vals => List.Forall₂ (ValueHas p.env W) vals τs) (atoms p m env as) := by
  induction h with
  | nil => exact .nil
  | cons ha _ ih =>
      unfold atoms
      rw [List.mapM_cons]
      exact (atom_ok hs hm hL ha).bind fun v hv => ih.bind fun vals hvals => .cons hv hvals

end Operands

/-! ### Primitives -/

section Primitives

variable {E : Env} {W : World} {m : Machine} {q : Prim}

/-- The type of a literal. -/
def literalType : Literal → Ty
  | .word _ => .word
  | .flag _ => .flag

theorem valueHas_ofLit (l : Literal) : ValueHas E W (.ofLit l) (literalType l) := by
  cases l with
  | word w => exact .word ⟨.word, rfl, .inl rfl⟩
  | flag b => exact .flag

/-- Values of the types of words and truth values are literals. -/
theorem exists_lits {vals : List Value} {τs : List Ty} (hE : E.Shaped)
    (h : List.Forall₂ (ValueHas E W) vals τs) (hτs : ∀ τ ∈ τs, τ = .word ∨ τ = .flag) :
    ∃ lits : List Literal, vals = lits.map .ofLit := by
  induction h with
  | nil => exact ⟨[], rfl⟩
  | cons hv _ ih =>
      obtain ⟨lits, rfl⟩ := ih fun τ hτ => hτs τ (.tail _ hτ)
      rcases hτs _ (.head _) with rfl | rfl
      · obtain ⟨w, rfl⟩ := hv.of_isWord hE ⟨.word, rfl, .inl rfl⟩
        exact ⟨.word w :: lits, rfl⟩
      · obtain ⟨b, rfl⟩ := hv.of_flag hE
        exact ⟨.flag b :: lits, rfl⟩

/-- A pure operation has a rule on all literals, except for a division. -/
theorem eval?_typed {op : PrimOp} {τs : List Ty} {τ : Ty} (hpure : op.purity = .pure)
    (hdiv : op ≠ .nzdiv) (huser : op ≠ .user) (htype : op.type = ⟨[], .tuple τs, τ⟩) :
    (∀ σ ∈ τs, σ = .word ∨ σ = .flag) ∧ ∀ (size : Int) (lits : List Literal),
      ∃ l, op.eval? size lits = some l ∧ τ = .tuple [literalType l] := by
  cases op
  case user => exact absurd rfl huser
  case nzdiv => exact absurd rfl hdiv
  all_goals first
    | (cases htype
       refine ⟨fun σ hσ => ?_, fun size lits => ⟨_, rfl, rfl⟩⟩
       simp only [List.mem_cons, List.not_mem_nil, or_false, or_self] at hσ
       simp [hσ])
    | cases hpure

theorem pureCall_lits (m : Machine) (q : Prim) (lits : List Literal) {l : Literal}
    (h : q.fold? m.size lits = some l) : m.pureCall q (lits.map .ofLit) = .ok [.ofLit l] := by
  have hlits : (lits.map Value.ofLit).mapM (m.operand q) = .ok lits := by
    clear h
    induction lits with
    | nil => rfl
    | cons l lits ih =>
        rw [List.map_cons, List.mapM_cons, ih]
        cases l <;> rfl
  unfold pureCall
  rw [hlits]
  dsimp only [Bind.bind, Except.bind]
  rw [h]
  rfl

/-- Does the machine evaluate an operation by its rule for literals? -/
def ByRule (op : PrimOp) : Prop :=
  op ∉ [.div, .nzdiv, .rem, .halt, .loop, .printWord, .user] ∧ op.access?.isNone

instance (op : PrimOp) : Decidable (ByRule op) := inferInstanceAs (Decidable (_ ∧ _))

theorem prim_byRule {q : Prim} (hop : ByRule q.op) (m : Machine) (vals : List Value) :
    m.prim q vals = (m.pureCall q vals).map fun vs => (vs, m) := by
  obtain ⟨hspecial, haccess⟩ := hop
  simp only [List.mem_cons, List.not_mem_nil, or_false, not_or] at hspecial
  unfold prim
  split
  case h_8 => rw [Option.isNone_iff_eq_none.mp haccess]
  all_goals simp_all

/-- A pure primitive with a rule gives what the rule gives for the values of its operands. -/
theorem operate_byRule {p : Program} {m : Machine} {env : Locals} {q : Prim} {args : List Atom}
    {inst : Option BlockType} {lits : List Literal} {l : Literal} (hop : ByRule q.op)
    (hpure : q.purity = .pure) (hargs : atoms p m env args = .ok (lits.map .ofLit))
    (hl : q.op.eval? m.size lits = some l) :
    operate p m env (.prim q args inst) = .ok (.values [.ofLit l], m) := by
  have hfold : q.fold? m.size lits = some l := (if_pos hpure).trans hl
  have hprim : m.prim q (lits.map .ofLit) = .ok ([.ofLit l], m) := by
    rw [prim_byRule hop, pureCall_lits m q lits hfold]
    rfl
  unfold operate
  dsimp only
  rw [hargs]
  dsimp only [Bind.bind, Except.bind]
  rw [hprim]
  rfl

/-- A primitive gives values of the right types and keeps what the machine knows, or fails for an
excused reason. -/
def PrimOk (E : Env) (W : World) (m : Machine) (τ : Ty) : Except Halt (List Value × Machine) → Prop
  | .ok (vals, m') => (∃ τs, τ = .tuple τs ∧ List.Forall₂ (ValueHas E W) vals τs) ∧
      m'.size = m.size ∧ m'.tops = m.tops
  | .error h => Halt.Excused h

theorem divide_ok (rem : Bool) (vals : List Value) :
    PrimOk E W m (.tuple [.word]) ((m.divide rem vals).map fun vs => (vs, m)) := by
  unfold divide
  dsimp only
  split
  · exact excused_fail m .divide
  · exact ⟨⟨_, rfl, .cons (.word ⟨.word, rfl, .inl rfl⟩) .nil⟩, rfl, rfl⟩

/-- On sixty-four bits a load gives one word. -/
theorem access_ok {op : PrimOp} {a : MemAccess} {τs : List Ty} {τ : Ty} (hsize : m.size = 64)
    (ha : op.access? = some a) (htype : op.type = ⟨[], .tuple τs, τ⟩) (vals : List Value) :
    PrimOk E W m τ (.ok (m.access a vals)) := by
  have hbits : ∀ n : Nat, (Ty.bits n).IsWord := fun n => ⟨.bit, rfl, .inr (.inr (.inr (.inl rfl)))⟩
  have hword : ∀ (n : Nat) (w : Word), List.Forall₂ (ValueHas E W) [.word w] [.bits n] :=
    fun n w => .cons (.word (hbits n)) .nil
  cases op <;> cases ha <;> cases htype <;> unfold access <;> dsimp only [if_true]
  all_goals first
    | exact ⟨⟨_, rfl, .nil⟩, rfl, rfl⟩
    | (rw [hsize]; exact ⟨⟨_, rfl, hword _ _⟩, rfl, rfl⟩)

theorem prim_ok {vals : List Value} {τs : List Ty} {τ : Ty} (hE : E.Shaped) (hsize : m.size = 64)
    (hq : PrimTyped q τs τ) (hvals : List.Forall₂ (ValueHas E W) vals τs) :
    PrimOk E W m τ (m.prim q vals) := by
  rcases hq with hop | hop | hop | ⟨hpurity, htype⟩
  · unfold Machine.prim
    rw [hop]
    exact excused_fail m (.prim _)
  · unfold Machine.prim
    rw [hop]
    exact excused_fail m .halt
  · unfold Machine.prim
    rw [hop]
    exact excused_fail m .loop
  · have hpure : q.op.access? = none → q.op ∉ [.div, .rem, .halt, .loop, .printWord] →
        q.op.purity = .pure := by
      cases q.op <;> simp [PrimOp.access?, PrimOp.purity]
    unfold Machine.prim
    split
    · rename_i hop
      rw [hop] at htype
      cases htype
      exact divide_ok false vals
    · rename_i hop
      rw [hop] at htype
      cases htype
      exact divide_ok false vals
    · rename_i hop
      rw [hop] at htype
      cases htype
      exact divide_ok true vals
    · exact excused_fail m .halt
    · exact excused_fail m .loop
    · rename_i hop
      rw [hop] at htype
      cases htype
      exact ⟨⟨_, rfl, .nil⟩, rfl, rfl⟩
    · exact excused_fail m (.prim _)
    · split
      · rename_i ha
        exact access_ok hsize ha htype vals
      · rename_i ha
        have hpure' := hpure ha (by simp_all)
        obtain ⟨hlits, heval⟩ := eval?_typed hpure' (by simp_all) (by simp_all) htype
        obtain ⟨lits, rfl⟩ := exists_lits hE hvals hlits
        obtain ⟨l, hl, rfl⟩ := heval m.size lits
        have hfold : q.fold? m.size lits = some l := by
          rw [Prim.fold?, hpurity, if_pos hpure', hl]
        rw [pureCall_lits m q lits hfold]
        exact ⟨⟨_, rfl, .cons (valueHas_ofLit l) .nil⟩, rfl, rfl⟩

end Primitives

/-! ### Tails -/

/-- Does a tail select the field of one constructor from a value of another? -/
def strays (p : Program) (m : Machine) (env : Locals) : Tail → Bool
  | .sel k field arg _ =>
    match atom p m env arg with
    | .ok (.data l fields) => l.name ≠ k.name && (fields[field.toNat]?).isSome
    | _ => false
  | _ => false

/-- A tail and temporaries of the types that it needs. -/
def TailOk (p : Program) (W : World) (τ : Ty) (t : Tail) (env : Locals) : Prop :=
  ∃ L, LocalsHave p.env W L env ∧ TailTyped p.env W L t τ

/-- A body and temporaries of the types that it needs. -/
def CodeOk (p : Program) (W : World) (τ : Ty) (c : Code) (env : Locals) : Prop :=
  ∃ L, LocalsHave p.env W L env ∧ CodeTyped p.env W L c τ

/-- Values of the types of a tuple. -/
def ValuesHave (p : Program) (W : World) (τ : Ty) (vals : List Value) : Prop :=
  ∃ τs, τ = .tuple τs ∧ List.Forall₂ (ValueHas p.env W) vals τs

/-- What an operation comes to has a type. -/
def EffectOk (p : Program) (W : World) (τ : Ty) : Effect → Prop
  | .values vals => ValuesHave p W τ vals
  | .body c env => ∃ code, c = some code ∧ CodeOk p W τ code env
  | .tail t env => ∃ tail, t = some tail ∧ TailOk p W τ tail env

section Tails

variable {p : Program} {W : World} {m : Machine} {L : LocalTypes} {env : Locals} {τ : Ty}

theorem MachineOk.congr {m' : Machine} (h : MachineOk p W m) (hsize : m'.size = m.size)
    (htops : m'.tops = m.tops) : MachineOk p W m' :=
  ⟨hsize.trans h.size, fun hl => h.tops (htops ▸ hl)⟩

theorem enter_ok (hs : Setting p W) (hm : MachineOk p W m) (hL : LocalsHave p.env W L env)
    {fn : Atom} {args : List Atom} {τs : List Ty} (hfn : AtomTyped W L fn (.func (.tuple τs) τ))
    (hargs : AtomsTyped W L args τs) :
    Settles p W (fun r => EffectOk p W τ r.1 ∧ MachineOk p W r.2) (enter p m env fn args) := by
  unfold enter
  refine (atom_ok hs hm hL hfn).bind fun v hv => ?_
  obtain ⟨id, fields, stored, rfl, hclosure, hfields⟩ := hv.of_func hs.shaped
  obtain ⟨d, k, tail, hd, hbody, htail, hparams, hlen, htyped⟩ := hs.coherent.closure hclosure
  refine (atoms_ok hs hm hL hargs).bind fun vals hvals => ?_
  dsimp only
  rw [hs.resolve, closure_eq hd hbody]
  dsimp only [orDefect, Bind.bind, Except.bind]
  have hfit : ¬ (k.args.length ≠ vals.length ∨ k.params.length ≠ fields.length) := by
    rw [hvals.length_eq, hfields.length_eq, hparams, hlen]
    simp
  rw [if_neg hfit, defn_eq hd]
  refine ⟨⟨tail, htail, _, ?_, htyped⟩, hm.congr rfl rfl⟩
  exact ((LocalsHave.nil []).assign hfields).assign hvals

theorem operate_ok (hs : Setting p W) (hm : MachineOk p W m) {t : Tail} (ht : TailOk p W τ t env)
    (hstray : strays p m env t = false) :
    Settles p W (fun r => EffectOk p W τ r.1 ∧ MachineOk p W r.2) (operate p m env t) := by
  obtain ⟨L, hL, ht⟩ := ht
  cases ht with
  | ret hargs =>
      exact (atoms_ok hs hm hL hargs).bind fun vals hvals => ⟨⟨_, rfl, hvals⟩, hm⟩
  | call hcall =>
      rename_i c
      obtain ⟨τs, hblock, hargs⟩ := hcall
      obtain ⟨d, b, code, hd, hbody, hcode, hlen, htyped⟩ := hs.coherent.block hblock
      refine (atoms_ok hs hm hL hargs).bind fun vals hvals => ?_
      dsimp only
      rw [hs.resolve, block_eq hd hbody, defn_eq hd]
      exact ⟨⟨code, hcode, _, (LocalsHave.nil []).assign hvals, htyped⟩, hm.congr rfl rfl⟩
  | prim hprim hargs =>
      rename_i q args inst τs
      refine (atoms_ok hs hm hL hargs).bind fun vals hvals => ?_
      have hok := prim_ok hs.shaped hm.size hprim hvals
      cases hr : m.prim q vals with
      | error h =>
          rw [hr] at hok
          exact hok
      | ok r =>
          rw [hr] at hok
          obtain ⟨hvals', hsize, htops⟩ := hok
          exact ⟨hvals', hm.congr hsize htops⟩
  | alloc hclosure hargs =>
      refine (atoms_ok hs hm hL hargs).bind fun vals hvals => ?_
      rw [hs.resolve]
      exact ⟨⟨_, rfl, .cons (.closure hclosure hvals) .nil⟩, hm⟩
  | data hcfun hargs =>
      exact (atoms_ok hs hm hL hargs).bind fun vals hvals =>
        ⟨⟨_, rfl, .cons (.data hcfun hvals) .nil⟩, hm⟩
  | enter hfn hargs => exact enter_ok hs hm hL hfn hargs
  | sel hcfun hfield harg =>
      rename_i k field arg inst stored result σ
      have hatom := atom_ok hs hm hL harg
      have hstray : ∀ l fields, atom p m env arg = .ok (.data l fields) →
          l.name = k.name ∨ fields[field.toNat]? = none := by
        intro l fields hv
        unfold strays at hstray
        dsimp only at hstray
        rw [hv] at hstray
        simpa [Classical.or_iff_not_imp_left] using hstray
      unfold operate
      dsimp only [Bind.bind, Except.bind]
      cases hv : atom p m env arg with
      | error s =>
          rw [hv] at hatom
          exact hatom
      | ok v =>
          rw [hv] at hatom
          obtain ⟨l, fields, stored', rfl, hcfun', hfields⟩ := hatom.of_isData (hs.shaped.isData hcfun)
          dsimp only
          cases hget : fields[field.toNat]? with
          | none => exact excused_fail m (.select _ _ _)
          | some f =>
              -- the value was built by the constructor whose field is asked for
              have hname : l.name = k.name := by
                rcases hstray l fields hv with h | h
                · exact h
                · rw [hget] at h
                  cases h
              obtain rfl : l = k := by
                have hl := hcfun'.1
                rw [hname, hcfun.1] at hl
                exact (Option.some.inj hl).symm
              obtain rfl := hs.shaped.settled hcfun hcfun'
              obtain ⟨f', hf', hhas⟩ := forall₂_getElem? hfields hfield
              rw [hget] at hf'
              cases hf'
              exact ⟨⟨_, rfl, .cons hhas .nil⟩, hm⟩

end Tails

/-! ### Branches -/

section Branches

variable {p : Program} {W : World} {m : Machine} {L : LocalTypes} {env : Locals} {τ : Ty}

theorem chooseFlag_ok (hs : Setting p W) (hm : MachineOk p W m) (hL : LocalsHave p.env W L env)
    {cond : Atom} {t f : BlockCall} (hcond : AtomTyped W L cond .flag) (ht : CallTyped W L t τ)
    (hf : CallTyped W L f τ) :
    Settles p W (fun c => CallTyped W L c τ) (chooseFlag p m env cond t f) := by
  unfold chooseFlag
  refine (atom_ok hs hm hL hcond).bind fun v hv => ?_
  obtain ⟨b, rfl⟩ := hv.of_flag hs.shaped
  cases b with
  | true => exact ht
  | false => exact hf

theorem chooseAlt_ok (hs : Setting p W) (hm : MachineOk p W m) (hL : LocalsHave p.env W L env)
    {scrut : Atom} {alts : List (Cfun × BlockCall)} {default : Option BlockCall} {σ : Ty}
    (hscrut : AtomTyped W L scrut σ) (hdata : σ.IsData)
    (halts : ∀ alt ∈ alts, CallTyped W L alt.2 τ)
    (hdefault : ∀ c, default = some c → CallTyped W L c τ) :
    Settles p W (fun c => CallTyped W L c τ) (chooseAlt p m env scrut alts default) := by
  unfold chooseAlt
  refine (atom_ok hs hm hL hscrut).bind fun v hv => ?_
  obtain ⟨k, fields, stored, rfl, -, -⟩ := hv.of_isData hdata
  dsimp only
  split
  · rename_i a c hfind
    exact halts _ (List.mem_of_find?_eq_some hfind)
  · exact hdefault _ rfl
  · exact excused_fail m (.alternative _)

end Branches

end Mil.Machine
