import Mil.Proofs.Machine.Evaluate
import Mil.Proofs.Machine.Operate
import Mil.Proofs.Mono.Track

/-!
Operations on copies. A program and one with copies of its definitions perform the same operations,
on values that differ only in which copy a closure is of. The outcome on the side of the copies
follows the outcome on the other side, with one exception: it may have to wait for a top-level value
that the other side has kept, because one definition has several copies and each computes its
values anew.
-/

namespace Mil

/-- Does an operation print or access memory? -/
def PrimOp.leavesTrace (op : PrimOp) : Bool := op = .printWord || op.access?.isSome

/-- Does a tail print or access memory by itself? -/
def Tail.leavesTrace : Tail → Bool
  | .prim q _ _ => q.op.leavesTrace
  | _ => false

namespace Machine

open Mono (Renames AtomCopy AtomsCopy CallCopy TailCopy CodeCopy BodyCopy PrimCopy)

/-- A value and one in which closures are of copies. -/
inductive ValueCopy (S : DefnId → DefnId → Prop) : Value → Value → Prop
  | word (w : Word) : ValueCopy S (.word w) (.word w)
  | flag (b : Bool) : ValueCopy S (.flag b) (.flag b)
  | closure {i j : DefnId} {fields fields' : List Value} (hserves : S i j)
      (hfields : List.Forall₂ (ValueCopy S) fields fields') :
      ValueCopy S (.closure i fields) (.closure j fields')
  | data {k : Cfun} {fields fields' : List Value}
      (hfields : List.Forall₂ (ValueCopy S) fields fields') :
      ValueCopy S (.data k fields) (.data k fields')

/-- Values, position by position. -/
def ValuesCopy (S : DefnId → DefnId → Prop) (vals vals' : List Value) : Prop :=
  List.Forall₂ (ValueCopy S) vals vals'

/-- What a machine shows to the outside: its memory and what it has printed. -/
def trace (m : Machine) : Memory × List Word := (m.memory, m.printed)

/-! ### Primitives -/

section Primitives

variable {S : DefnId → DefnId → Prop} {m m₂ m' : Machine} {q q₂ : Prim} {vals vals₂ vs : List Value}

theorem valueCopy_ofLit (l : Literal) : ValueCopy S (.ofLit l) (.ofLit l) := by
  cases l with
  | word w => exact .word w
  | flag b => exact .flag b

theorem ValueCopy.asWord {v v' : Value} (h : ValueCopy S v v') : v'.asWord = v.asWord := by
  cases h <;> rfl

theorem ValueCopy.lit? {v v' : Value} (h : ValueCopy S v v') : v'.lit? = v.lit? := by
  cases h <;> rfl

theorem ValuesCopy.map_asWord (h : ValuesCopy S vals vals₂) :
    vals₂.map Value.asWord = vals.map Value.asWord := by
  induction h with
  | nil => rfl
  | cons hv _ ih => rw [List.map_cons, List.map_cons, hv.asWord, ih]

theorem ValuesCopy.getElem?_asWord (h : ValuesCopy S vals vals₂) (i : Nat) :
    (vals₂[i]?).map Value.asWord = (vals[i]?).map Value.asWord := by
  rw [← List.getElem?_map, ← List.getElem?_map, h.map_asWord]

theorem ValuesCopy.head?_asWord (h : ValuesCopy S vals vals₂) :
    (vals₂.head?).map Value.asWord = (vals.head?).map Value.asWord := by
  cases h with
  | nil => rfl
  | cons hv _ => exact congrArg some hv.asWord

theorem valuesCopy_words (ws : List Word) : ValuesCopy S (ws.map .word) (ws.map .word) :=
  List.forall₂_same.mpr fun v hv => by
    obtain ⟨w, -, rfl⟩ := List.mem_map.mp hv
    exact .word w

theorem divide_copy (h : ValuesCopy S vals vals₂) (hsize : m₂.size = m.size) {rem : Bool}
    (hdiv : m.divide rem vals = .ok vs) : m₂.divide rem vals₂ = .ok vs ∧ ValuesCopy S vs vs := by
  unfold divide at hdiv ⊢
  dsimp only at hdiv ⊢
  rw [h.getElem?_asWord, h.getElem?_asWord, hsize]
  split at hdiv
  · cases hdiv
  · rename_i hy
    rw [if_neg hy]
    cases hdiv
    exact ⟨rfl, .cons (.word _) .nil⟩

theorem operands_copy (h : ValuesCopy S vals vals₂) {lits : List Literal}
    (hlits : vals.mapM (m.operand q) = .ok lits) : vals₂.mapM (m₂.operand q₂) = .ok lits := by
  induction h generalizing lits with
  | nil => exact hlits
  | @cons v v' _ _ hv _ ih =>
      rw [List.mapM_cons] at hlits ⊢
      obtain ⟨l, hl, hlits⟩ := Except.bind_eq_ok.mp hlits
      obtain ⟨ls, hls, hlits⟩ := Except.bind_eq_ok.mp hlits
      have hl' : m₂.operand q₂ v' = .ok l := by
        unfold operand at hl ⊢
        rw [hv.lit?]
        split at hl
        · exact hl
        · cases hl
      rw [hl', ih hls]
      exact hlits

theorem pureCall_copy (h : ValuesCopy S vals vals₂) (hq : PrimCopy q q₂) (hsize : m₂.size = m.size)
    (hcall : m.pureCall q vals = .ok vs) :
    m₂.pureCall q₂ vals₂ = .ok vs ∧ ValuesCopy S vs vs := by
  obtain ⟨lits, hlits, hcall⟩ := Except.bind_eq_ok.mp hcall
  have hfold : q₂.fold? m₂.size lits = q.fold? m.size lits := by
    rw [Prim.fold?, Prim.fold?, hq.purity, hq.op, hsize]
  unfold pureCall
  rw [operands_copy h hlits]
  dsimp only [Bind.bind, Except.bind]
  rw [hfold]
  split at hcall
  · cases hcall
    exact ⟨rfl, .cons (valueCopy_ofLit _) .nil⟩
  · cases hcall

/-- After an operation, nothing can be seen of it on either side, or the same on both. -/
def Echoes (traced : Bool) (m m₂ m' m₂' : Machine) : Prop :=
  (m'.trace = m.trace ∧ m₂'.trace = m₂.trace) ∨ (traced = true ∧ m₂'.trace = m'.trace)

theorem access_copy (h : ValuesCopy S vals vals₂) (hsize : m₂.size = m.size)
    (htrace : m₂.trace = m.trace) (a : MemAccess) :
    ValuesCopy S (m.access a vals).1 (m₂.access a vals₂).1 ∧
      (m₂.access a vals₂).2.trace = (m.access a vals).2.trace := by
  obtain ⟨hmemory, hprinted⟩ := Prod.mk.inj htrace
  have htail : vals₂.tail.map Value.asWord = vals.tail.map Value.asWord := by
    rw [List.map_tail, List.map_tail, h.map_asWord]
  unfold access
  dsimp only
  rw [h.head?_asWord, htail, hsize, hmemory]
  split
  · exact ⟨.nil, by rw [trace, trace, hprinted]⟩
  · exact ⟨valuesCopy_words _, htrace⟩

/-- A primitive gives the same on both sides. -/
theorem prim_copy (h : ValuesCopy S vals vals₂) (hq : PrimCopy q q₂) (hsize : m₂.size = m.size)
    (htrace : q.op.leavesTrace = true → m₂.trace = m.trace) (hprim : m.prim q vals = .ok (vs, m')) :
    ∃ vs₂ m₂', m₂.prim q₂ vals₂ = .ok (vs₂, m₂') ∧ ValuesCopy S vs vs₂ ∧
      Echoes q.op.leavesTrace m m₂ m' m₂' := by
  have hvalues {r r₂ : Except Halt (List Value)} (traced : Bool)
      (hr : r.map (fun vs => (vs, m)) = .ok (vs, m'))
      (hcopy : r = .ok vs → r₂ = .ok vs ∧ ValuesCopy S vs vs) :
      ∃ vs₂ m₂', r₂.map (fun vs => (vs, m₂)) = .ok (vs₂, m₂') ∧ ValuesCopy S vs vs₂ ∧
        Echoes traced m m₂ m' m₂' := by
    obtain ⟨vs', hok, heq⟩ := Except.map_eq_ok hr
    obtain ⟨rfl, rfl⟩ := Prod.mk.inj heq
    obtain ⟨hr₂, hvs⟩ := hcopy hok
    exact ⟨vs', m₂, by rw [hr₂]; rfl, hvs, .inl ⟨rfl, rfl⟩⟩
  unfold prim at hprim ⊢
  rw [hq.op]
  split at hprim
  · rename_i hop
    rw [hop]
    exact hvalues _ hprim (divide_copy h hsize)
  · rename_i hop
    rw [hop]
    exact hvalues _ hprim (divide_copy h hsize)
  · rename_i hop
    rw [hop]
    exact hvalues _ hprim (divide_copy h hsize)
  · cases hprim
  · cases hprim
  · rename_i hop
    rw [hop] at htrace ⊢
    obtain ⟨hmemory, hprinted⟩ := Prod.mk.inj (htrace rfl)
    cases hprim
    refine ⟨[], _, rfl, .nil, .inr ⟨rfl, ?_⟩⟩
    rw [trace, trace, h.head?_asWord, hsize, hmemory, hprinted]
  · cases hprim
  · split
    · rename_i a ha
      have htraced : q.op.leavesTrace = true := by
        rw [PrimOp.leavesTrace, ha]
        simp
      obtain ⟨hvs, htrace'⟩ := access_copy h hsize (htrace htraced) a
      rw [ha] at hprim
      rw [Except.ok.inj hprim] at hvs htrace'
      exact ⟨_, _, rfl, hvs, .inr ⟨htraced, htrace'⟩⟩
    · rename_i ha
      rw [ha] at hprim
      exact hvalues _ hprim (pureCall_copy h hq hsize)

end Primitives

/-! ### Outcomes -/

/-- What is said of the other side if an operation waits there: of a definition, its place and the
tail that computes its values. -/
abbrev Waiting := DefnId → Position → Tail → Prop

/-- An outcome on the side of the copies follows the outcome on the other side. It may be late. If
the other side waits for a top-level value, a copy of it is waited for; unless the waiting of the
other side does not count. -/
inductive Follows {α β : Type} (p : Program) (S : DefnId → DefnId → Prop) (live : Prop)
    (late : Waiting) (R : α → β → Prop) : Except Stall α → Except Stall β → Prop
  | ok {a : α} {b : β} (h : R a b) : Follows p S live late R (.ok a) (.ok b)
  | halt {h : Halt} {y : Except Stall β} : Follows p S live late R (.error (.halt h)) y
  | stall {i j : DefnId} {pos pos' : Position} {t t' : Tail} (hserves : S i j)
      (htail : TailCopy p S [] t t') :
      Follows p S live late R (.error (.top i pos (some t))) (.error (.top j pos' (some t')))
  | free {i : DefnId} {pos : Position} {t : Option Tail} {y : Except Stall β} (h : ¬ live) :
      Follows p S live late R (.error (.top i pos t)) y
  | late {x : Except Stall α} {j : DefnId} {pos : Position} {t : Tail} (h : late j pos t) :
      Follows p S live late R x (.error (.top j pos (some t)))

section Follows

variable {α β γ δ : Type} {p : Program} {S : DefnId → DefnId → Prop} {live : Prop} {late : Waiting}
  {R : α → β → Prop} {R' : γ → δ → Prop}

theorem Follows.bind {x : Except Stall α} {y : Except Stall β} {f : α → Except Stall γ}
    {g : β → Except Stall δ} (h : Follows p S live late R x y)
    (hfg : ∀ a b, R a b → Follows p S live late R' (f a) (g b)) :
    Follows p S live late R' (x >>= f) (y >>= g) := by
  cases h with
  | ok h => exact hfg _ _ h
  | halt => exact .halt
  | stall hserves htail => exact .stall hserves htail
  | free h => exact .free h
  | late h => exact .late h

end Follows

/-! ### Operands -/

/-- Two programs, the second with copies of definitions of the first. A definition that quantifies
nothing has one copy. -/
structure Copies (p q : Program) (S : DefnId → DefnId → Prop) : Prop where
  resolve : ∀ id, p.resolve id = id
  resolve' : ∀ id, q.resolve id = id
  impl : ∀ {i : DefnId} {d : Defn} {e : External}, p.defns[i]? = some d → d.body = .external e →
    e.impl = none
  defined : ∀ {i j : DefnId}, S i j → ∃ d, p.defns[i]? = some d
  copy : ∀ {i j : DefnId} {d : Defn}, S i j → p.defns[i]? = some d →
    (∃ e, d.body = .external e) ∨ ∃ d', q.defns[j]? = some d' ∧ BodyCopy p S d.body d'.body
  params : ∀ {i : DefnId} {d : Defn} {b : Block}, p.defns[i]? = some d → d.body = .block b →
    b.params.Nodup
  source : ∀ {i i' j : DefnId}, S i j → S i' j → i = i'
  unique : ∀ {i j j' : DefnId} {d : Defn}, S i j → S i j' → p.defns[i]? = some d →
    d.body.isPolymorphic = false → j = j'

/-- Machines on both sides, as far as operands are concerned. -/
structure Tied (p q : Program) (S : DefnId → DefnId → Prop) (live : Prop) (late : Waiting)
    (m m₂ : Machine) : Prop where
  size : m₂.size = m.size
  value : ∀ {i j : DefnId} {index index' : Nat}, S i j → index' = index ∨ Mono.External p i →
    Follows p S live late (ValueCopy S) (topValue p m i index) (topValue q m₂ j index')

section Operands

variable {p q : Program} {S : DefnId → DefnId → Prop} {live : Prop} {late : Waiting}
  {m m₂ : Machine} {ren : Renames} {env env₂ : Locals}

theorem atom_follows (ht : Tied p q S live late m m₂) (henv : ren.Carries (ValueCopy S) env env₂)
    {a a₂ : Atom} (ha : AtomCopy p S ren a a₂) :
    Follows p S live late (ValueCopy S) (atom p m env a) (atom q m₂ env₂ a₂) := by
  cases ha with
  | @temp t u hlookup =>
      unfold atom
      dsimp only
      cases hv : env.lookup t with
      | none => exact .halt
      | some v =>
          obtain ⟨v', hv', hcopy⟩ := henv t v hv u hlookup
          rw [hv']
          exact .ok hcopy
  | lit l => exact .ok (valueCopy_ofLit l)
  | top hserves hindex => exact ht.value hserves hindex

theorem atoms_follows (ht : Tied p q S live late m m₂) (henv : ren.Carries (ValueCopy S) env env₂)
    {as as₂ : List Atom} (has : AtomsCopy p S ren as as₂) :
    Follows p S live late (ValuesCopy S) (atoms p m env as) (atoms q m₂ env₂ as₂) := by
  induction has with
  | nil => exact .ok .nil
  | cons ha _ ih =>
      unfold atoms
      rw [List.mapM_cons, List.mapM_cons]
      exact (atom_follows ht henv ha).bind fun v v' hv => Follows.bind ih fun vs vs' hvs =>
        .ok (.cons hv hvs)

end Operands

/-! ### Operations and moves -/

/-- A job and a copy of it. -/
inductive JobCopy (p : Program) (S : DefnId → DefnId → Prop) : Job → Job → Prop
  | tail {ren : Renames} {t t₂ : Tail} {env env₂ : Locals} (ht : TailCopy p S ren t t₂)
      (henv : ren.Carries (ValueCopy S) env env₂) : JobCopy p S (.tail t env) (.tail t₂ env₂)
  | code {ren : Renames} {c c₂ : Code} {env env₂ : Locals} (hc : CodeCopy p S ren c c₂)
      (henv : ren.Carries (ValueCopy S) env env₂) : JobCopy p S (.code c env) (.code c₂ env₂)

/-- A move and a copy of it. -/
inductive MoveCopy (p : Program) (S : DefnId → DefnId → Prop) : Move → Move → Prop
  | values {vs vs₂ : List Value} (h : ValuesCopy S vs vs₂) : MoveCopy p S (.values vs) (.values vs₂)
  | job {j j₂ : Job} (h : JobCopy p S j j₂) : MoveCopy p S (.job j) (.job j₂)
  | bind {ren : Renames} {vars vars₂ : List Temp} {t t₂ : Tail} {env env₂ : Locals}
      {next next₂ : Code} (ht : TailCopy p S ren t t₂) (henv : ren.Carries (ValueCopy S) env env₂)
      (hlen : vars₂.length = vars.length) (hfresh : ren.Fresh vars₂)
      (hnext : CodeCopy p S (ren.extend vars vars₂) next next₂) :
      MoveCopy p S (.bind vars t env next) (.bind vars₂ t₂ env₂ next₂)

/-- What an operation has come to, and a copy of it. -/
inductive EffectCopy (p : Program) (S : DefnId → DefnId → Prop) : Effect → Effect → Prop
  | values {vs vs₂ : List Value} (h : ValuesCopy S vs vs₂) :
      EffectCopy p S (.values vs) (.values vs₂)
  | body {c c₂ : Code} {env env₂ : Locals} (h : JobCopy p S (.code c env) (.code c₂ env₂)) :
      EffectCopy p S (.body (some c) env) (.body (some c₂) env₂)
  | tail {t t₂ : Tail} {env env₂ : Locals} (h : JobCopy p S (.tail t env) (.tail t₂ env₂)) :
      EffectCopy p S (.tail (some t) env) (.tail (some t₂) env₂)

section Operations

variable {p q : Program} {S : DefnId → DefnId → Prop} {live : Prop} {late : Waiting}
  {m m₂ : Machine} {ren : Renames} {env env₂ : Locals}

theorem block_follows (hc : Copies p q S) {i j : DefnId} (hserves : S i j) :
    Follows p S live late (fun b b₂ => (BodyCopy p S (.block b) (.block b₂) ∧ b.params.Nodup) ∧
      (∃ d, p.defn i = .ok d) ∧ ∃ d, q.defn j = .ok d)
      (orDefect (p.block i)) (orDefect (q.block j)) := by
  unfold Program.block Program.defn
  cases hd : p.defns[i]? with
  | none => exact .halt
  | some d =>
      rcases hc.copy hserves hd with ⟨e, he⟩ | ⟨d', hd', hcopy⟩
      · dsimp only [Bind.bind, Except.bind]
        rw [he]
        exact .halt
      · rw [hd']
        dsimp only [Bind.bind, Except.bind]
        generalize hb : d.body = body, d'.body = body' at hcopy
        cases hcopy with
        | block h₁ h₂ h₃ h₄ h₅ h₆ =>
            exact .ok ⟨⟨.block h₁ h₂ h₃ h₄ h₅ h₆, hc.params hd hb⟩, ⟨d, rfl⟩, ⟨d', rfl⟩⟩
        | closure => exact .halt
        | top => exact .halt
        | external => exact .halt

theorem closure_follows (hc : Copies p q S) {i j : DefnId} (hserves : S i j) :
    Follows p S live late (fun k k₂ => BodyCopy p S (.closure k) (.closure k₂) ∧
      (∃ d, p.defn i = .ok d) ∧ ∃ d, q.defn j = .ok d)
      (orDefect (p.closure i)) (orDefect (q.closure j)) := by
  unfold Program.closure Program.defn
  cases hd : p.defns[i]? with
  | none => exact .halt
  | some d =>
      rcases hc.copy hserves hd with ⟨e, he⟩ | ⟨d', hd', hcopy⟩
      · dsimp only [Bind.bind, Except.bind]
        rw [he]
        exact .halt
      · rw [hd']
        dsimp only [Bind.bind, Except.bind]
        generalize d.body = body, d'.body = body' at hcopy
        cases hcopy with
        | block => exact .halt
        | closure h₁ h₂ h₃ h₄ h₅ h₆ h₇ h₈ => exact .ok ⟨.closure h₁ h₂ h₃ h₄ h₅ h₆ h₇ h₈, ⟨d, rfl⟩, ⟨d', rfl⟩⟩
        | top => exact .halt
        | external => exact .halt

/-- What operations come to on both sides. -/
def OutcomeCopy (p : Program) (S : DefnId → DefnId → Prop) (traced : Bool) (m m₂ : Machine)
    (r r₂ : Effect × Machine) : Prop :=
  EffectCopy p S r.1 r₂.1 ∧ Echoes traced m m₂ r.2 r₂.2

theorem enter_follows (hc : Copies p q S) (ht : Tied p q S live late m m₂)
    (henv : ren.Carries (ValueCopy S) env env₂) {fn fn₂ : Atom} {args args₂ : List Atom}
    (hfn : AtomCopy p S ren fn fn₂) (hargs : AtomsCopy p S ren args args₂) :
    Follows p S live late (OutcomeCopy p S false m m₂) (enter p m env fn args)
      (enter q m₂ env₂ fn₂ args₂) := by
  refine (atom_follows ht henv hfn).bind fun v v₂ hv => ?_
  cases hv with
  | word => exact .halt
  | flag => exact .halt
  | data => exact .halt
  | @closure i j fields fields₂ hserves hfields =>
      dsimp only
      refine (atoms_follows ht henv hargs).bind fun vals vals₂ hvals => ?_
      rw [hc.resolve, hc.resolve']
      refine (closure_follows hc hserves).bind fun k k₂ hk => ?_
      obtain ⟨hcopy, ⟨d, hd⟩, ⟨d', hd'⟩⟩ := hk
      cases hcopy with
      | closure hsource hcopy hparams hargs' hfresh hfresh' htail _ =>
          rw [hd, hd', hparams, hargs', ← hfields.length_eq, ← hvals.length_eq]
          split
          · exact .halt
          · rename_i hfit
            have hlen : vals.length = k.args.length := by omega
            have hlen' : fields.length = k.params.length := by omega
            rw [hsource, hcopy]
            refine .ok ⟨.tail (.tail htail ?_), .inl ⟨rfl, rfl⟩⟩
            exact ((Renames.Carries.nil [] []).extend hparams hlen' hfresh hfields).extend hargs'
              hlen hfresh' hvals

theorem operate_follows (hc : Copies p q S) (ht : Tied p q S live late m m₂)
    (henv : ren.Carries (ValueCopy S) env env₂) {t t₂ : Tail} (hcopy : TailCopy p S ren t t₂)
    (htrace : t.leavesTrace = true → m₂.trace = m.trace) :
    Follows p S live late (OutcomeCopy p S t.leavesTrace m m₂) (operate p m env t)
      (operate q m₂ env₂ t₂) := by
  cases hcopy with
  | ret hargs =>
      exact (atoms_follows ht henv hargs).bind fun vals vals₂ hvals =>
        .ok ⟨.values hvals, .inl ⟨rfl, rfl⟩⟩
  | @call c c₂ hcall =>
      refine (atoms_follows ht henv hcall.args).bind fun vals vals₂ hvals => ?_
      dsimp only
      rw [hc.resolve, hc.resolve']
      refine (block_follows hc hcall.serves).bind fun b b₂ hb => ?_
      obtain ⟨⟨hcopy, hnodup⟩, ⟨d, hd⟩, ⟨d', hd'⟩⟩ := hb
      rw [hd, hd']
      cases hcopy with
      | block hsource hcopy hlen hfresh hcode _ =>
          rw [hsource, hcopy]
          refine .ok ⟨.body (.code hcode ?_), .inl ⟨rfl, rfl⟩⟩
          exact Renames.carries_params hnodup hfresh hvals
  | @prim g g₂ args args₂ inst inst₂ hprim hargs =>
      refine (atoms_follows ht henv hargs).bind fun vals vals₂ hvals => ?_
      cases hr : m.prim g vals with
      | error h => exact .halt
      | ok r =>
          obtain ⟨vs, m'⟩ := r
          obtain ⟨vs₂, m₂', hr₂, hvs, hecho⟩ := prim_copy hvals hprim ht.size htrace hr
          rw [hr₂]
          exact .ok ⟨.values hvs, hecho⟩
  | alloc hserves hargs =>
      refine (atoms_follows ht henv hargs).bind fun vals vals₂ hvals => ?_
      rw [hc.resolve, hc.resolve']
      exact .ok ⟨.values (.cons (.closure hserves hvals) .nil), .inl ⟨rfl, rfl⟩⟩
  | data hargs =>
      exact (atoms_follows ht henv hargs).bind fun vals vals₂ hvals =>
        .ok ⟨.values (.cons (.data hvals) .nil), .inl ⟨rfl, rfl⟩⟩
  | enter hfn hargs => exact enter_follows hc ht henv hfn hargs
  | @sel k field arg arg₂ inst inst₂ harg =>
      refine (atom_follows ht henv harg).bind fun v v₂ hv => ?_
      cases hv with
      | word => exact .halt
      | flag => exact .halt
      | closure => exact .halt
      | @data k fields fields₂ hfields =>
          dsimp only
          cases hf : fields[field.toNat]? with
          | none => exact .halt
          | some f =>
              obtain ⟨f₂, hf₂, hcopy⟩ := forall₂_getElem? hfields.flip hf
              rw [hf₂]
              exact .ok ⟨.values (.cons hcopy .nil), .inl ⟨rfl, rfl⟩⟩

theorem chooseFlag_follows (ht : Tied p q S live late m m₂)
    (henv : ren.Carries (ValueCopy S) env env₂) {cond cond₂ : Atom} {t t₂ f f₂ : BlockCall}
    (hcond : AtomCopy p S ren cond cond₂) (htrue : CallCopy p S ren t t₂)
    (hfalse : CallCopy p S ren f f₂) :
    Follows p S live late (CallCopy p S ren) (chooseFlag p m env cond t f)
      (chooseFlag q m₂ env₂ cond₂ t₂ f₂) := by
  refine (atom_follows ht henv hcond).bind fun v v₂ hv => ?_
  cases hv with
  | word => exact .halt
  | closure => exact .halt
  | data => exact .halt
  | flag b =>
      cases b with
      | true => exact .ok htrue
      | false => exact .ok hfalse

theorem find?_alts {C : BlockCall → BlockCall → Prop} {alts alts₂ : List (Cfun × BlockCall)}
    (k : Cfun) (h : List.Forall₂ (fun a a' => a'.1 = a.1 ∧ C a.2 a'.2) alts alts₂) :
    Option.Rel (fun a a' => C a.2 a'.2) (alts.find? fun a => a.1.tag = k.tag)
      (alts₂.find? fun a => a.1.tag = k.tag) := by
  induction h with
  | nil => exact .none
  | @cons a a' _ _ ha _ ih =>
      rw [List.find?_cons, List.find?_cons, ha.1]
      split
      · exact .some ha.2
      · exact ih

theorem chooseAlt_follows (ht : Tied p q S live late m m₂)
    (henv : ren.Carries (ValueCopy S) env env₂) {scrut scrut₂ : Atom}
    {alts alts₂ : List (Cfun × BlockCall)} {default default₂ : Option BlockCall}
    (hscrut : AtomCopy p S ren scrut scrut₂)
    (halts : List.Forall₂ (fun a a' => a'.1 = a.1 ∧ CallCopy p S ren a.2 a'.2) alts alts₂)
    (hdefault : Option.Rel (CallCopy p S ren) default default₂) :
    Follows p S live late (CallCopy p S ren) (chooseAlt p m env scrut alts default)
      (chooseAlt q m₂ env₂ scrut₂ alts₂ default₂) := by
  refine (atom_follows ht henv hscrut).bind fun v v₂ hv => ?_
  cases hv with
  | word => exact .halt
  | flag => exact .halt
  | closure => exact .halt
  | @data k fields fields₂ _ =>
      dsimp only
      have hfind := find?_alts k halts
      generalize alts.find? (fun a => a.1.tag = k.tag) = r,
        alts₂.find? (fun a => a.1.tag = k.tag) = r₂ at hfind
      cases hfind with
      | some hcall => exact .ok hcall
      | none =>
          cases hdefault with
          | some hcall => exact .ok hcall
          | none => exact .halt

/-- Does a job print or access memory by itself? -/
def Job.leavesTrace : Job → Bool
  | .tail t _ => t.leavesTrace
  | .code _ _ => false

/-- A move of a copy follows the move of a job. -/
theorem move_follows (hc : Copies p q S) (ht : Tied p q S live late m m₂) {j j₂ : Job}
    (hj : JobCopy p S j j₂) (htrace : j.leavesTrace = true → m₂.trace = m.trace) :
    Follows p S live late
      (fun r r₂ => MoveCopy p S r.1 r₂.1 ∧ Echoes j.leavesTrace m m₂ r.2 r₂.2) (j.move p m)
      (j₂.move q m₂) := by
  cases hj with
  | tail hcopy henv =>
      refine (operate_follows hc ht henv hcopy htrace).bind fun r r₂ hr => ?_
      obtain ⟨e, m'⟩ := r
      obtain ⟨e₂, m₂'⟩ := r₂
      obtain ⟨heffect, hecho⟩ := hr
      dsimp only at heffect
      cases heffect with
      | values hvals => exact .ok ⟨.values hvals, hecho⟩
      | body hjob => exact .ok ⟨.job hjob, hecho⟩
      | tail hjob => exact .ok ⟨.job hjob, hecho⟩
  | code hcopy henv =>
      cases hcopy with
      | bind htail hlen hfresh hnext =>
          exact .ok ⟨.bind htail henv hlen hfresh hnext, .inl ⟨rfl, rfl⟩⟩
      | done htail => exact .ok ⟨.job (.tail htail henv), .inl ⟨rfl, rfl⟩⟩
      | branch hcond htrue hfalse =>
          exact (chooseFlag_follows ht henv hcond htrue hfalse).bind fun c c₂ hcall =>
            .ok ⟨.job (.tail (.call hcall) henv), .inl ⟨rfl, rfl⟩⟩
      | case hscrut halts hdefault =>
          exact (chooseAlt_follows ht henv hscrut halts hdefault).bind fun c c₂ hcall =>
            .ok ⟨.job (.tail (.call hcall) henv), .inl ⟨rfl, rfl⟩⟩

end Operations

end Machine

end Mil
