import Mil.Proofs.Machine.Ends
import Mil.Proofs.Machine.Preserve
import Mil.Proofs.Optimize.Copy
import Mil.Proofs.Optimize.Shrink

/-!
Operations that drop operands. A machine on the program without the parameters that are not needed
does in each step what a machine on the whole program does. What it holds is less: temporaries that
the rest of a body does not need may have no value, and closures store only the fields that they
need. An operand that is dropped had a value, so nothing is lost by not reading it.
-/

namespace Mil.Machine

open Optimize
open Needs (keep)

/-! ### Values -/

/-- A value, and what is left of it if closures store only what they need. -/
inductive ValueTrim (R : DefnId → Prop) (needs : Needs) : Value → Value → Prop
  | word (w : Word) : ValueTrim R needs (.word w) (.word w)
  | flag (b : Bool) : ValueTrim R needs (.flag b) (.flag b)
  | closure {id : DefnId} {fields fields' : List Value} {bits : List Bool} (hid : R id)
      (hbits : needs.lookup id = some bits) (hlen : fields.length = bits.length)
      (hfields : List.Forall₂ (ValueTrim R needs) (keep fields bits) fields') :
      ValueTrim R needs (.closure id fields) (.closure id fields')
  | data {k : Cfun} {fields fields' : List Value}
      (hfields : List.Forall₂ (ValueTrim R needs) fields fields') :
      ValueTrim R needs (.data k fields) (.data k fields')

/-- Values, position by position. -/
def ValuesTrim (R : DefnId → Prop) (needs : Needs) (vs vs' : List Value) : Prop :=
  List.Forall₂ (ValueTrim R needs) vs vs'

section Values

variable {R : DefnId → Prop} {needs : Needs}

theorem valueTrim_lit (l : Literal) : ValueTrim R needs (.ofLit l) (.ofLit l) := by
  cases l with
  | word w => exact .word w
  | flag b => exact .flag b

theorem valuesTrim_of_lits {vs : List Value} (h : ∀ v ∈ vs, v.lit?.isSome = true) :
    ValuesTrim R needs vs vs := by
  refine List.forall₂_same.mpr fun v hv => ?_
  have hlit := h v hv
  cases v with
  | word w => exact .word w
  | flag b => exact .flag b
  | closure => cases hlit
  | data => cases hlit

mutual

theorem ValueTrim.alike {v v' : Value} (h : ValueTrim R needs v v') : v.Alike v' := by
  cases v with
  | word w =>
      cases h
      exact .word w
  | flag b =>
      cases h
      exact .flag b
  | closure i fields =>
      cases h
      exact .closure _ _ _ _
  | data k fields =>
      cases h with
      | data hfields => exact .data (ValuesTrim.alike hfields)
termination_by sizeOf v

theorem ValuesTrim.alike {vs vs' : List Value} (h : ValuesTrim R needs vs vs') :
    List.Forall₂ Value.Alike vs vs' := by
  cases vs with
  | nil =>
      cases h
      exact .nil
  | cons v vs =>
      cases h with
      | cons hv hvs => exact .cons (ValueTrim.alike hv) (ValuesTrim.alike hvs)
termination_by sizeOf vs

end

mutual

theorem ValueTrim.render {v v' : Value} (h : ValueTrim R needs v v') : v'.render = v.render := by
  cases v with
  | word w =>
      cases h
      rfl
  | flag b =>
      cases h
      rfl
  | closure i fields =>
      cases h
      rfl
  | data k fields =>
      cases h with
      | data hfields =>
          have hrest := ValuesTrim.renderList hfields
          cases hfields with
          | nil => rfl
          | cons hv hvs =>
              rw [Value.renderList, Value.renderList] at hrest
              rw [Value.render, Value.render, hrest]
termination_by sizeOf v

theorem ValuesTrim.renderList {vs vs' : List Value} (h : ValuesTrim R needs vs vs') :
    Value.renderList vs' = Value.renderList vs := by
  cases vs with
  | nil =>
      cases h
      rfl
  | cons v vs =>
      cases h with
      | cons hv hvs =>
          rw [Value.renderList, Value.renderList, ValueTrim.render hv, ValuesTrim.renderList hvs]
termination_by sizeOf vs

end

theorem ValueTrim.looks {v v' : Value} (h : ValueTrim R needs v v') : v.Looks v' := by
  refine ⟨?_, ?_, h.render⟩
  · cases h <;> rfl
  · cases h <;> rfl

theorem ValuesTrim.looks {vs vs' : List Value} (h : ValuesTrim R needs vs vs') :
    List.Forall₂ Value.Looks vs vs' :=
  h.imp fun _ _ hv => hv.looks

mutual

/-- Nothing is lost of a value without closures. -/
theorem valueTrim_self {v : Value} (h : v.closureFree = true) : ValueTrim R needs v v := by
  cases v with
  | word w => exact .word w
  | flag b => exact .flag b
  | closure i fields => cases h
  | data k fields => exact .data (valuesTrim_self h)
termination_by sizeOf v

theorem valuesTrim_self {vs : List Value} (h : Value.closureFrees vs = true) :
    ValuesTrim R needs vs vs := by
  cases vs with
  | nil => exact .nil
  | cons v vs =>
      rw [Value.closureFrees, Bool.and_eq_true] at h
      exact .cons (valueTrim_self h.1) (valuesTrim_self h.2)
termination_by sizeOf vs

end

end Values

/-! ### Temporaries -/

/-- The temporaries among the operands have what is left of their values. -/
def LocalsTrim (R : DefnId → Prop) (needs : Needs) (as : List Atom) (env env' : Locals) : Prop :=
  ∀ t, .temp t ∈ as → ∀ v, env.lookup t = some v →
    ∃ v', env'.lookup t = some v' ∧ ValueTrim R needs v v'

section Locals

variable {R : DefnId → Prop} {needs : Needs} {as bs : List Atom} {env env' : Locals}

theorem LocalsTrim.nil (R : DefnId → Prop) (needs : Needs) (as : List Atom) :
    LocalsTrim R needs as [] [] := fun _ _ _ h => nomatch h

theorem LocalsTrim.mono (h : LocalsTrim R needs bs env env') (hsub : as ⊆ bs) :
    LocalsTrim R needs as env env' :=
  fun t ht => h t (hsub ht)

theorem LocalsTrim.cons (h : LocalsTrim R needs as env env') (t : Temp) {v v' : Value}
    (hv : ValueTrim R needs v v') : LocalsTrim R needs as ((t, v) :: env) ((t, v') :: env') := by
  intro u hu w hw
  rw [lookup_cons_ite] at hw ⊢
  split at hw
  · rename_i heq
    cases hw
    exact ⟨v', if_pos heq, hv⟩
  · rename_i hne
    rw [if_neg hne]
    exact h u hu w hw

/-- A temporary that is not needed gets no value. -/
theorem LocalsTrim.skip (h : LocalsTrim R needs as env env') {t : Temp} (ht : .temp t ∉ as)
    (v : Value) : LocalsTrim R needs as ((t, v) :: env) env' := by
  intro u hu w hw
  have hne : u ≠ t := fun heq => ht (heq ▸ hu)
  rw [lookup_cons_ite, if_neg hne] at hw
  exact h u hu w hw

theorem LocalsTrim.assign (h : LocalsTrim R needs as env env') (ts : List Temp) {vs vs' : List Value}
    (hvs : ValuesTrim R needs vs vs') :
    LocalsTrim R needs as (Machine.assign env ts vs) (Machine.assign env' ts vs') := by
  induction hvs generalizing ts env env' with
  | nil =>
      rw [Machine.assign, Machine.assign, List.zip_nil_right]
      exact h
  | cons hv _ ih =>
      cases ts with
      | nil => exact h
      | cons t ts =>
          rw [assign_cons, assign_cons]
          exact ih (h.cons t hv) ts

/-- Parameters that are not needed get no value. -/
theorem LocalsTrim.params (h : LocalsTrim R needs as env env') {params : List Temp}
    {bits : List Bool} {vs vs' : List Value} (hbits : params.length = bits.length)
    (hlen : vs.length = bits.length) (hvs : ValuesTrim R needs (keep vs bits) vs')
    (hnodup : params.Nodup)
    (hneeded : ∀ t ∈ params, .temp t ∈ as → (t, true) ∈ params.zip bits) :
    LocalsTrim R needs as (Machine.assign env params vs)
      (Machine.assign env' (keep params bits) vs') := by
  induction params generalizing env env' bits vs vs' with
  | nil => exact h
  | cons t params ih =>
      obtain _ | ⟨b, bits⟩ := bits
      · cases hbits
      obtain _ | ⟨v, vs⟩ := vs
      · cases hlen
      obtain ⟨ht, hnodup⟩ := List.nodup_cons.mp hnodup
      have hrest : ∀ u ∈ params, .temp u ∈ as → (u, true) ∈ params.zip bits := by
        intro u hu hmem
        rcases List.mem_cons.mp (hneeded u (.tail _ hu) hmem) with heq | hmem
        · exact absurd ((Prod.mk.inj heq).1 ▸ hu) ht
        · exact hmem
      rw [Needs.keep_cons] at hvs ⊢
      rw [assign_cons]
      cases b with
      | true =>
          cases hvs with
          | cons hv hvs =>
              rw [if_pos rfl, assign_cons]
              exact ih (h.cons t hv) (Nat.succ.inj hbits) (Nat.succ.inj hlen) hvs hnodup hrest
      | false =>
          refine ih (h.skip (fun hmem => ?_) v) (Nat.succ.inj hbits) (Nat.succ.inj hlen) hvs hnodup hrest
          rcases List.mem_cons.mp (hneeded t (.head _) hmem) with heq | hmem
          · cases (Prod.mk.inj heq).2
          · exact ht (List.of_mem_zip hmem).1

end Locals

/-! ### Operands -/

/-- The second program is the first without the parameters that the definitions of `R` do not need;
no external of these is without an implementation. -/
structure Leaner (p p' : Program) (R : DefnId → Prop) (needs : Needs) : Prop where
  region : Region p R
  resolve : ∀ id, p'.resolve id = id
  defns : ∀ {id : DefnId}, R id → ∃ d d', p.defns[id]? = some d ∧ p'.defns[id]? = some d' ∧
    DefnTrim needs id (Option.Rel (CodeTrim needs)) (Option.Rel (TailTrim needs)) d d'
  nodup : ∀ {id : DefnId} {d : Defn}, R id → p.defns[id]? = some d → d.body.params.Nodup
  needed : ∀ {id : DefnId} {d : Defn} {bits : List Bool}, R id → p.defns[id]? = some d →
    needs.lookup id = some bits → ∀ t ∈ d.body.params, .temp t ∈ needs.defnOperands d.body →
      (t, true) ∈ d.body.params.zip bits
  resolved : ∀ {id : DefnId} {d : Defn}, R id → p.defns[id]? = some d → d.body.unresolved = false

/-- The machines are in one place and show the same, and the second has what is left of the top-level
values of the first. -/
structure MachineTrim (R : DefnId → Prop) (needs : Needs) (m m' : Machine) : Prop where
  size : m'.size = m.size
  pos : m'.pos = m.pos
  trace : m'.trace = m.trace
  steps : m'.steps = m.steps
  tops : ∀ {id : DefnId} {vs : List Value}, R id → m.tops.lookup id = some vs →
    ∃ vs', m'.tops.lookup id = some vs' ∧ ValuesTrim R needs vs vs'

theorem Answers.imp_of_eq {α β : Type} {live : Prop} {late : Stall → Prop} {A B : α → β → Prop}
    {x : Except Stall α} {y : Except Stall β} (h : Answers live late A x y)
    (hAB : ∀ a b, x = .ok a → y = .ok b → A a b → B a b) : Answers live late B x y := by
  cases h with
  | ok h => exact .ok (hAB _ _ rfl rfl h)
  | failure f => exact .failure f
  | dead h => exact .dead h
  | defect => exact .defect
  | stall => exact .stall
  | late h => exact .late h

section Operands

variable {p p' : Program} {R : DefnId → Prop} {needs : Needs} {m m' : Machine} {live : Prop}
  {env env' : Locals}

theorem topTarget_trims (h : Leaner p p' R needs) (hm : MachineTrim R needs m m') {i : DefnId}
    (hi : R i) : Answers live (fun _ => False) (fun j j' => j' = j ∧ R j) (topTarget p m i)
      (topTarget p' m' i) := by
  obtain ⟨d, d', hd, hd', htrim⟩ := h.defns hi
  have hbody := htrim.body
  unfold topTarget
  dsimp only
  rw [h.region.resolve, h.resolve, hd, hd']
  dsimp only
  generalize hb : d.body = body at hbody
  generalize d'.body = body' at hbody
  cases hbody with
  | block => exact .ok ⟨rfl, hi⟩
  | closure => exact .ok ⟨rfl, hi⟩
  | top => exact .ok ⟨rfl, hi⟩
  | external e =>
      dsimp only
      cases himpl : e.impl with
      | none =>
          rw [htrim.name]
          exact fail_answers (fun _ => hm.pos) _
      | some j =>
          dsimp only
          rw [h.region.resolve, h.resolve]
          refine .ok ⟨rfl, h.region.refs hi hd j ?_⟩
          rw [hb, DefnBody.refs, himpl]
          exact .head _

theorem topValues_trims (hm : MachineTrim R needs m m') (hlive : live → m.active = [])
    {i : DefnId} (hi : R i) : Answers live (fun _ => False) (ValuesTrim R needs) (topValues p m i)
      (topValues p' m' i) := by
  unfold topValues
  cases hlookup : m.tops.lookup i with
  | some vs =>
      obtain ⟨vs', hlookup', hvs⟩ := hm.tops hi hlookup
      rw [hlookup']
      exact .ok hvs
  | none =>
      dsimp only
      split
      · exact .defect
      · split
        · split
          · rename_i hmem
            exact .dead fun h => List.not_mem_nil (hlive h ▸ hmem)
          · exact .stall
        · exact .defect

/-- An operand that is needed has what is left of its value. -/
theorem atom_trims (h : Leaner p p' R needs) (hm : MachineTrim R needs m m')
    (hlive : live → m.active = []) {as : List Atom} (henv : LocalsTrim R needs as env env') {a : Atom}
    (ha : a ∈ as) (hrefs : ∀ i, a.defn? = some i → R i) :
    Answers live (fun _ => False) (ValueTrim R needs) (atom p m env a) (atom p' m' env' a) := by
  cases a with
  | temp t =>
      unfold atom
      dsimp only
      cases hlookup : env.lookup t with
      | none => exact .defect
      | some v =>
          obtain ⟨v', hlookup', hv⟩ := henv t ha v hlookup
          rw [hlookup']
          exact .ok hv
  | lit l => exact .ok (valueTrim_lit l)
  | top i index site =>
      refine (topTarget_trims h hm (hrefs i rfl)).bind ?_
      rintro j _ ⟨rfl, hj⟩
      refine (topValues_trims hm hlive hj).bind fun vs vs' hvs => ?_
      cases hget : vs[index]? with
      | none => exact .defect
      | some v =>
          obtain ⟨v', hget', hv⟩ := forall₂_getElem? hvs.flip hget
          dsimp only
          rw [hget']
          exact .ok hv

/-- Reading an operand does not fail, while no top-level value is being computed. -/
theorem atom_ne_failure (h : Leaner p p' R needs) (hactive : m.active = []) {a : Atom}
    (hrefs : ∀ i, a.defn? = some i → R i) (f : Failure) :
    atom p m env a ≠ .error (.halt (.failure f)) := by
  intro hfail
  cases a with
  | temp t =>
      unfold atom at hfail
      dsimp only at hfail
      split at hfail <;> cases hfail
  | lit l => cases hfail
  | top i index site =>
      obtain ⟨d, -, hd, -⟩ := h.defns (hrefs i rfl)
      have hresolved := h.resolved (hrefs i rfl) hd
      rcases Except.bind_eq_error.mp hfail with hfail | ⟨j, -, hfail⟩
      · unfold topTarget at hfail
        dsimp only at hfail
        rw [h.region.resolve, hd] at hfail
        dsimp only at hfail
        split at hfail
        · rename_i e he
          split at hfail
          · cases hfail
          · rename_i hnone
            rw [he, DefnBody.unresolved, hnone] at hresolved
            cases hresolved
        · cases hfail
      · rcases Except.bind_eq_error.mp hfail with hfail | ⟨vs, -, hfail⟩
        · unfold topValues at hfail
          split at hfail
          · cases hfail
          · split at hfail
            · cases hfail
            · split at hfail
              · rw [hactive, if_neg List.not_mem_nil] at hfail
                cases hfail
              · cases hfail
        · split at hfail <;> cases hfail

theorem atoms_trims (h : Leaner p p' R needs) (hm : MachineTrim R needs m m')
    (hlive : live → m.active = []) {as bs : List Atom} (henv : LocalsTrim R needs bs env env')
    (hsub : as ⊆ bs) (hrefs : ∀ a ∈ as, ∀ i, a.defn? = some i → R i) :
    Answers live (fun _ => False) (ValuesTrim R needs) (atoms p m env as) (atoms p' m' env' as) :=
  atoms_answers (List.forall₂_same.mpr fun a ha => atom_trims h hm hlive henv (hsub ha) (hrefs a ha))

/-- The operands that are needed have what is left of their values, and the others are not missed. -/
theorem atoms_keep_trims (h : Leaner p p' R needs) (hm : MachineTrim R needs m m')
    (hlive : live → m.active = []) {as bs : List Atom} {bits : List Bool}
    (hlen : as.length = bits.length) (henv : LocalsTrim R needs bs env env')
    (hsub : keep as bits ⊆ bs) (hrefs : ∀ a ∈ as, ∀ i, a.defn? = some i → R i) :
    Answers live (fun _ => False)
      (fun vs vs' => vs.length = bits.length ∧ ValuesTrim R needs (keep vs bits) vs')
      (atoms p m env as) (atoms p' m' env' (keep as bits)) := by
  induction as generalizing bits with
  | nil =>
      obtain _ | ⟨b, bits⟩ := bits
      · exact .ok ⟨rfl, .nil⟩
      · cases hlen
  | cons a as ih =>
      obtain _ | ⟨b, bits⟩ := bits
      · cases hlen
      have hrefs' : ∀ x ∈ as, ∀ i, x.defn? = some i → R i := fun x hx => hrefs x (.tail _ hx)
      rw [Needs.keep_cons] at hsub ⊢
      unfold atoms
      cases b with
      | true =>
          rw [if_pos rfl] at hsub ⊢
          rw [List.mapM_cons, List.mapM_cons]
          refine (atom_trims h hm hlive henv (hsub (.head _)) (hrefs a (.head _))).bind fun v v' hv => ?_
          refine (ih (Nat.succ.inj hlen) (fun _ hx => hsub (.tail _ hx)) hrefs').bind ?_
          rintro vs vs' ⟨hlen, hvs⟩
          exact .ok ⟨congrArg Nat.succ hlen, .cons hv hvs⟩
      | false =>
          rw [if_neg Bool.false_ne_true] at hsub ⊢
          have hrest := ih (Nat.succ.inj hlen) hsub hrefs'
          rw [List.mapM_cons]
          cases ha : atom p m env a with
          | ok v =>
              show Answers _ _ _ (atoms p m env as >>= fun vs => .ok (v :: vs)) (atoms p' m' env' _)
              generalize atoms p m env as = x, atoms p' m' env' (keep as bits) = y at hrest ⊢
              cases hrest with
              | ok hvs => exact .ok ⟨congrArg Nat.succ hvs.1, hvs.2⟩
              | failure f => exact .failure f
              | dead h => exact .dead h
              | defect => exact .defect
              | stall => exact .stall
              | late h => exact h.elim
          | error s =>
              cases s with
              | top id pos t => exact .stall
              | halt e =>
                  cases e with
                  | defect d => exact .defect
                  | failure f =>
                      exact .dead fun hl => atom_ne_failure h (hlive hl) (hrefs a (.head _)) f ha

end Operands

/-! ### Operations -/

/-- A job, and what is left of it. -/
inductive JobTrim (R : DefnId → Prop) (needs : Needs) : Job → Job → Prop
  | tail {t t' : Tail} {env env' : Locals} (ht : TailTrim needs t t') (hrefs : ∀ i ∈ t.refs, R i)
      (henv : LocalsTrim R needs (needs.operands t) env env') :
      JobTrim R needs (.tail t env) (.tail t' env')
  | code {c c' : Code} {env env' : Locals} (hc : CodeTrim needs c c') (hrefs : ∀ i ∈ c.refs, R i)
      (henv : LocalsTrim R needs (needs.codeOperands c) env env') :
      JobTrim R needs (.code c env) (.code c' env')

/-- What an operation comes to, and what is left of it. -/
inductive EffectTrim (R : DefnId → Prop) (needs : Needs) : Effect → Effect → Prop
  | values {vs vs' : List Value} (h : ValuesTrim R needs vs vs') :
      EffectTrim R needs (.values vs) (.values vs')
  | body {c c' : Option Code} {env env' : Locals}
      (h : Option.Rel (fun c c' => JobTrim R needs (.code c env) (.code c' env')) c c') :
      EffectTrim R needs (.body c env) (.body c' env')
  | tail {t t' : Option Tail} {env env' : Locals}
      (h : Option.Rel (fun t t' => JobTrim R needs (.tail t env) (.tail t' env')) t t') :
      EffectTrim R needs (.tail t env) (.tail t' env')

/-- A move, and what is left of it. -/
inductive MoveTrim (R : DefnId → Prop) (needs : Needs) : Move → Move → Prop
  | values {vs vs' : List Value} (h : ValuesTrim R needs vs vs') :
      MoveTrim R needs (.values vs) (.values vs')
  | job {j j' : Job} (h : JobTrim R needs j j') : MoveTrim R needs (.job j) (.job j')
  | bind {vars : List Temp} {t t' : Tail} {env env' : Locals} {next next' : Code}
      (ht : JobTrim R needs (.tail t env) (.tail t' env'))
      (hnext : ∀ vs vs', ValuesTrim R needs vs vs' →
        JobTrim R needs (.code next (assign env vars vs)) (.code next' (assign env' vars vs'))) :
      MoveTrim R needs (.bind vars t env next) (.bind vars t' env' next')

/-- What comes of a step on either machine. -/
def StepTrim {α : Type} (A : α → α → Prop) (R : DefnId → Prop) (needs : Needs) (r r' : α × Machine) :
    Prop :=
  A r.1 r'.1 ∧ MachineTrim R needs r.2 r'.2

section Operations

variable {p p' : Program} {R : DefnId → Prop} {needs : Needs} {m m' : Machine} {live : Prop}
  {env env' : Locals}

theorem operands_of_none {t : Tail} (h : t.target? = none) : needs.operands t = t.atoms := by
  rw [Needs.operands, h]

theorem keep_subset_operands {t : Tail} {id : DefnId} {bits : List Bool} (ht : t.target? = some id)
    (hbits : needs.lookup id = some bits) : keep t.atoms bits ⊆ needs.operands t := by
  rw [Needs.operands, ht]
  dsimp only
  rw [hbits]
  exact List.subset_append_left _ _

theorem refs_of_atoms {t : Tail} (h : ∀ i ∈ t.refs, R i) :
    ∀ a ∈ t.atoms, ∀ i, a.defn? = some i → R i :=
  fun a ha i hi => h i (List.mem_append_left _ (List.mem_filterMap.mpr ⟨a, ha, hi⟩))

theorem MachineTrim.still {m₁ m₁' : Machine} (hm : MachineTrim R needs m m') (h : Still m m₁)
    (h' : Still m' m₁') (hpos : m₁'.pos = m₁.pos) (htrace : m₁'.trace = m₁.trace) :
    MachineTrim R needs m₁ m₁' where
  size := h'.size.trans (hm.size.trans h.size.symm)
  pos := hpos
  trace := htrace
  steps := h'.steps.trans (hm.steps.trans h.steps.symm)
  tops hi hlookup := by
    rw [h.tops] at hlookup
    rw [h'.tops]
    exact hm.tops hi hlookup

/-- A body or tail that is called is at the place of its definition. -/
theorem MachineTrim.at (hm : MachineTrim R needs m m') {pos pos' : Position} (hpos : pos' = pos) :
    MachineTrim R needs { m with pos } { m' with pos := pos' } :=
  ⟨hm.size, hpos, hm.trace, hm.steps, hm.tops⟩

theorem prim_trims (hm : MachineTrim R needs m m') (q : Prim) {vs vs' : List Value}
    (hvs : ValuesTrim R needs vs vs') :
    Answers live (fun _ => False) (StepTrim (ValuesTrim R needs) R needs) (orHalt (m.prim q vs))
      (orHalt (m'.prim q vs')) := by
  refine (prim_answers hvs.looks hm.size (fun _ => hm.pos) fun _ => hm.trace).imp_of_eq ?_
  rintro ⟨us, m₁⟩ ⟨us', m₁'⟩ hprim hprim' ⟨⟨heq, hecho, hpos⟩, hlits⟩
  cases heq
  exact ⟨valuesTrim_of_lits hlits, hm.still (still_prim (orHalt_eq_ok hprim))
    (still_prim (orHalt_eq_ok hprim')) (hpos hm.pos) (hecho.trace_eq hm.trace)⟩

/-- The body of a block on the operands that it needs. -/
theorem Leaner.block (h : Leaner p p' R needs) {id : DefnId} {d : Defn} {b : Block} (hid : R id)
    (hd : p.defns[id]? = some d) (hb : d.body = .block b) :
    ∃ d' b' bits, p'.defns[id]? = some d' ∧ d'.body = .block b' ∧ d'.name = d.name ∧
      d'.pos = d.pos ∧ needs.lookup id = some bits ∧ b.params.length = bits.length ∧
      b'.params = keep b.params bits ∧
      ∀ {vs vs' : List Value}, vs.length = bits.length → ValuesTrim R needs (keep vs bits) vs' →
        Option.Rel (fun c c' => JobTrim R needs (.code c (assign [] b.params vs))
          (.code c' (assign [] b'.params vs'))) b.body b'.body := by
  obtain ⟨e, d', he, hd', htrim⟩ := h.defns hid
  cases hd.symm.trans he
  have hbody := htrim.body
  have hnodup := h.nodup hid hd
  have hneeded (bits : List Bool) := @h.needed _ _ bits hid hd
  have hrefs := h.region.refs hid hd
  generalize hb' : d'.body = body' at hbody
  rw [hb] at hbody hnodup hneeded hrefs
  cases hbody with
  | @block _ b' bits hbits hlen hparams hcode =>
      refine ⟨d', b', bits, hd', hb', htrim.name, htrim.pos, hbits, hlen, hparams, fun hvs htrims => ?_⟩
      have hneeded := hneeded bits hbits
      rw [Needs.defnOperands] at hneeded
      rw [DefnBody.refs] at hrefs
      rw [hparams]
      generalize b.body = code at hcode hneeded hrefs
      generalize b'.body = code' at hcode
      cases hcode with
      | none => exact .none
      | some hc =>
          exact .some (.code hc hrefs
            ((LocalsTrim.nil R needs _).params hlen hvs htrims hnodup hneeded))

/-- The tail of a closure on the fields that it needs. -/
theorem Leaner.closure (h : Leaner p p' R needs) {id : DefnId} {d : Defn} {k : Closure} (hid : R id)
    (hd : p.defns[id]? = some d) (hk : d.body = .closure k) :
    ∃ d' k' bits, p'.defns[id]? = some d' ∧ d'.body = .closure k' ∧ d'.name = d.name ∧
      d'.pos = d.pos ∧ needs.lookup id = some bits ∧ k.params.length = bits.length ∧
      k'.params = keep k.params bits ∧ k'.args = k.args ∧
      ∀ {fields fields' vs vs' : List Value}, fields.length = bits.length →
        ValuesTrim R needs (keep fields bits) fields' → ValuesTrim R needs vs vs' →
        Option.Rel (fun t t' => JobTrim R needs
          (.tail t (assign (assign [] k.params fields) k.args vs))
          (.tail t' (assign (assign [] k'.params fields') k'.args vs'))) k.tail k'.tail := by
  obtain ⟨e, d', he, hd', htrim⟩ := h.defns hid
  cases hd.symm.trans he
  have hbody := htrim.body
  have hnodup := h.nodup hid hd
  have hneeded (bits : List Bool) := @h.needed _ _ bits hid hd
  have hrefs := h.region.refs hid hd
  generalize hk' : d'.body = body' at hbody
  rw [hk] at hbody hnodup hneeded hrefs
  cases hbody with
  | @closure _ k' bits hbits hlen hparams hargs htail =>
      refine ⟨d', k', bits, hd', hk', htrim.name, htrim.pos, hbits, hlen, hparams, hargs,
        fun hfields htrims hvs => ?_⟩
      have hneeded := hneeded bits hbits
      rw [Needs.defnOperands] at hneeded
      rw [DefnBody.refs] at hrefs
      rw [hparams, hargs]
      generalize k.tail = tail at htail hneeded hrefs
      generalize k'.tail = tail' at htail
      cases htail with
      | none => exact .none
      | some ht =>
          exact .some (.tail ht hrefs
            (((LocalsTrim.nil R needs _).params hlen hfields htrims hnodup hneeded).assign _ hvs))

/-- A block is called with the operands that it needs. -/
theorem call_trims (h : Leaner p p' R needs) (hm : MachineTrim R needs m m') {id : DefnId}
    {bits : List Bool} (hid : R id) (hbits : needs.lookup id = some bits) {vs vs' : List Value}
    (hlen : vs.length = bits.length) (hvs : ValuesTrim R needs (keep vs bits) vs') :
    Answers live (fun _ => False) (StepTrim (EffectTrim R needs) R needs)
      (do
        let b ← orDefect (p.block id)
        let d ← orDefect (p.defn id)
        return (.body b.body (assign [] b.params vs), { m with pos := d.pos }))
      (do
        let b ← orDefect (p'.block id)
        let d ← orDefect (p'.defn id)
        return (.body b.body (assign [] b.params vs'), { m' with pos := d.pos })) := by
  cases hblock : p.block id with
  | error e => exact .defect
  | ok b =>
      obtain ⟨d, hd, hb⟩ := exists_of_block hblock
      obtain ⟨d', b', bits', hd', hb', -, hpos, hbits', -, -, hjob⟩ := h.block hid hd hb
      cases hbits.symm.trans hbits'
      rw [defn_eq hd, block_eq hd' hb', defn_eq hd']
      exact .ok ⟨.body (hjob hlen hvs), hm.at hpos⟩

theorem nameOf_eq {id : DefnId} {d d' : Defn} (hd : p.defns[id]? = some d)
    (hd' : p'.defns[id]? = some d') (hname : d'.name = d.name) : p'.nameOf id = p.nameOf id := by
  rw [Program.nameOf, Program.nameOf, hd, hd', Option.map_some, Option.map_some, hname]

/-- A closure is entered with the fields that it needs. -/
theorem enter_trims (h : Leaner p p' R needs) (hm : MachineTrim R needs m m')
    (hlive : live → m.active = []) {fn : Atom} {args : List Atom}
    (hrefs : ∀ i ∈ (Tail.enter fn args).refs, R i)
    (henv : LocalsTrim R needs (fn :: args) env env') :
    Answers live (fun _ => False) (StepTrim (EffectTrim R needs) R needs) (enter p m env fn args)
      (enter p' m' env' fn args) := by
  have hatoms := refs_of_atoms hrefs
  refine (atom_trims h hm hlive henv (.head _) (hatoms fn (.head _))).bind fun v v' hv => ?_
  have hrender := hv.render
  have hpos : live → m'.pos = m.pos := fun _ => hm.pos
  cases hv with
  | word w => exact fail_answers hpos _
  | flag b => exact fail_answers hpos _
  | data hfields =>
      dsimp only
      rw [hrender]
      exact fail_answers hpos _
  | @closure id fields fields' bits hid hbits hlen hfields =>
      dsimp only
      refine (atoms_trims h hm hlive henv (List.subset_cons_self _ _)
        fun a ha => hatoms a (.tail _ ha)).bind fun vs vs' hvs => ?_
      rw [h.region.resolve, h.resolve]
      cases hclosure : p.closure id with
      | error e => exact .defect
      | ok k =>
          obtain ⟨d, hd, hk⟩ := exists_of_closure hclosure
          obtain ⟨d', k', bits', hd', hk', hname, hpos', hbits', hparams, hparams', hargs, hjob⟩ :=
            h.closure hid hd hk
          cases hbits.symm.trans hbits'
          rw [closure_eq hd' hk', defn_eq hd, defn_eq hd', nameOf_eq hd hd' hname]
          have hfits : k.params.length = fields.length := hparams.trans hlen.symm
          have hfits' : k'.params.length = fields'.length := by
            rw [hparams', ← hfields.length_eq, Needs.length_keep hparams, Needs.length_keep hlen]
          have hcount : vs'.length = vs.length := hvs.length_eq.symm
          dsimp only [orDefect, Bind.bind, Except.bind]
          by_cases hlen' : k.args.length = vs.length
          · have hok : ¬ (k.args.length ≠ vs.length ∨ k.params.length ≠ fields.length) := by
              simp [hlen', hfits]
            have hok' : ¬ (k'.args.length ≠ vs'.length ∨ k'.params.length ≠ fields'.length) := by
              simp [hargs, hcount, hlen', hfits']
            rw [if_neg hok, if_neg hok']
            exact .ok ⟨.tail (hjob hlen hfields hvs), hm.at hpos'⟩
          · rw [if_pos (.inl hlen'), if_pos (.inl (by rwa [hargs, hcount])), hcount]
            exact fail_answers hpos _

/-- An operation on operands of which less is left does the same with them. -/
theorem operate_trims (h : Leaner p p' R needs) (hm : MachineTrim R needs m m')
    (hlive : live → m.active = []) {t t' : Tail} (ht : TailTrim needs t t')
    (hrefs : ∀ i ∈ t.refs, R i) (henv : LocalsTrim R needs (needs.operands t) env env') :
    Answers live (fun _ => False) (StepTrim (EffectTrim R needs) R needs) (operate p m env t)
      (operate p' m' env' t') := by
  have hatoms := refs_of_atoms hrefs
  cases ht with
  | call hc =>
      cases hc with
      | @intro id args bits inst inst' hbits hlen =>
          refine (atoms_keep_trims h hm hlive hlen henv
            (keep_subset_operands (t := .call ⟨id, args, inst⟩) rfl hbits) hatoms).bind ?_
          rintro vs vs' ⟨hlen, hvs⟩
          dsimp only
          rw [h.region.resolve, h.resolve]
          exact call_trims h hm (hrefs id (List.mem_append_right _ (.head _))) hbits hlen hvs
  | @alloc id args bits inst inst' hbits hlen =>
      refine (atoms_keep_trims h hm hlive hlen henv
        (keep_subset_operands (t := .alloc id args inst) rfl hbits) hatoms).bind ?_
      rintro vs vs' ⟨hlen, hvs⟩
      rw [h.region.resolve, h.resolve]
      have hid : R id := hrefs id (List.mem_append_right _ (.head _))
      exact .ok ⟨.values (.cons (.closure hid hbits hlen hvs) .nil), hm⟩
  | same hnone =>
      rw [operands_of_none hnone] at henv
      cases t with
      | call c => cases hnone
      | alloc id args inst => cases hnone
      | ret args =>
          refine (atoms_trims h hm hlive henv (List.Subset.refl _) hatoms).bind fun vs vs' hvs => ?_
          exact .ok ⟨.values hvs, hm⟩
      | prim q args inst =>
          refine (atoms_trims h hm hlive henv (List.Subset.refl _) hatoms).bind fun vs vs' hvs => ?_
          refine (prim_trims hm q hvs).bind fun r r' hr => ?_
          exact .ok ⟨.values hr.1, hr.2⟩
      | data k args inst =>
          refine (atoms_trims h hm hlive henv (List.Subset.refl _) hatoms).bind fun vs vs' hvs => ?_
          exact .ok ⟨.values (.cons (.data hvs) .nil), hm⟩
      | enter fn args => exact enter_trims h hm hlive hrefs henv
      | sel k field arg inst =>
          refine (atom_trims h hm hlive henv (.head _) (hatoms arg (.head _))).bind fun v v' hv => ?_
          have hrender := hv.render
          have hpos : live → m'.pos = m.pos := fun _ => hm.pos
          cases hv with
          | word w => exact fail_answers hpos _
          | flag b => exact fail_answers hpos _
          | closure =>
              dsimp only
              rw [hrender]
              exact fail_answers hpos _
          | @data _ fields fields' hfields =>
              dsimp only
              cases hget : fields'[field.toNat]? with
              | some f' =>
                  obtain ⟨f, hget', hf⟩ := forall₂_getElem? hfields hget
                  rw [hget']
                  exact .ok ⟨.values (.cons hf .nil), hm⟩
              | none =>
                  have hget' : fields[field.toNat]? = none := by
                    rw [List.getElem?_eq_none_iff] at hget ⊢
                    rwa [hfields.length_eq]
                  rw [hget', hrender]
                  exact fail_answers hpos _

/-- A branch makes the same call. -/
theorem chooseFlag_trims (h : Leaner p p' R needs) (hm : MachineTrim R needs m m')
    (hlive : live → m.active = []) {as : List Atom} (henv : LocalsTrim R needs as env env')
    {cond : Atom} (hcond : cond ∈ as) (hrefs : ∀ i, cond.defn? = some i → R i)
    {C : BlockCall → BlockCall → Prop} {c c' e e' : BlockCall} (hc : C c c') (he : C e e') :
    Answers live (fun _ => False) C (chooseFlag p m env cond c e) (chooseFlag p' m' env' cond c' e') := by
  refine (atom_trims h hm hlive henv hcond hrefs).bind fun v v' hv => ?_
  have hrender := hv.render
  have hpos : live → m'.pos = m.pos := fun _ => hm.pos
  cases hv with
  | word w => exact fail_answers hpos _
  | closure =>
      dsimp only
      rw [hrender]
      exact fail_answers hpos _
  | data =>
      dsimp only
      rw [hrender]
      exact fail_answers hpos _
  | flag b =>
      cases b with
      | true => exact .ok hc
      | false => exact .ok he

theorem chooseAlt_trims (h : Leaner p p' R needs) (hm : MachineTrim R needs m m')
    (hlive : live → m.active = []) {as : List Atom} (henv : LocalsTrim R needs as env env')
    {scrut : Atom} (hscrut : scrut ∈ as) (hrefs : ∀ i, scrut.defn? = some i → R i)
    {C : BlockCall → BlockCall → Prop} {alts alts' : List (Cfun × BlockCall)}
    {default default' : Option BlockCall}
    (halts : List.Forall₂ (fun a a' => a'.1 = a.1 ∧ C a.2 a'.2) alts alts')
    (hdefault : Option.Rel C default default') :
    Answers live (fun _ => False) C (chooseAlt p m env scrut alts default)
      (chooseAlt p' m' env' scrut alts' default') := by
  refine (atom_trims h hm hlive henv hscrut hrefs).bind fun v v' hv => ?_
  have hrender := hv.render
  have hpos : live → m'.pos = m.pos := fun _ => hm.pos
  cases hv with
  | word w => exact fail_answers hpos _
  | flag b => exact fail_answers hpos _
  | closure =>
      dsimp only
      rw [hrender]
      exact fail_answers hpos _
  | @data k fields fields' _ =>
      dsimp only
      have hfind := find?_alts k halts
      generalize alts.find? (fun a => a.1.tag = k.tag) = r,
        alts'.find? (fun a => a.1.tag = k.tag) = r' at hfind
      cases hfind with
      | some hcall => exact .ok hcall
      | none =>
          cases hdefault with
          | some hcall => exact .ok hcall
          | none => exact fail_answers hpos _

end Operations

end Mil.Machine
