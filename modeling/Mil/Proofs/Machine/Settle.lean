import Mathlib.Algebra.GroupWithZero.Nat
import Mil.Proofs.Machine.Answer
import Mil.Proofs.Machine.Replay

/-!
Top-level values that are there when a job needs them. A machine that has all the top-level values it
needs never stalls, and what it does with a job is a derivation that follows the job alone, be its
outcome values or a failure. The values themselves come from a table that is settled: at the bottom are
the values that a machine starts with, and each entry above was computed in silence from the entries
below it.

Such a derivation can be played on a machine that lags behind the table. That machine computes the
entries it needs on its way, each once, and otherwise does the same; so its steps are those of the
derivation and the cost of what it computed.
-/

namespace Mil.Machine

/-! ### Where a run leads -/

/-- The machine comes from one place to another: whatever budget remains there, the run goes on in
the same way. -/
def Reaches (p : Program) (x y : Next × Machine) : Prop :=
  ∃ a, ∀ n, loop p (a + n) x.1 x.2 = loop p n y.1 y.2

/-- The run ends with a result, whatever budget remains. -/
def Leads (p : Program) (x : Next × Machine) (r : Except Halt (List Value)) (m : Machine) : Prop :=
  ∃ a, ∀ n, loop p (a + n) x.1 x.2 = (r, m)

section Runs

variable {p : Program} {x y z : Next × Machine} {r r' : Except Halt (List Value)} {m m' : Machine}

theorem Reaches.refl (p : Program) (x : Next × Machine) : Reaches p x x :=
  ⟨0, fun n => by rw [Nat.zero_add]⟩

theorem Reaches.trans (h : Reaches p x y) (h' : Reaches p y z) : Reaches p x z := by
  obtain ⟨a, ha⟩ := h
  obtain ⟨b, hb⟩ := h'
  exact ⟨a + b, fun n => by rw [Nat.add_assoc, ha, hb]⟩

theorem Reaches.of_eq (h : x = y) : Reaches p x y := h ▸ .refl p x

/-- Without fuel, a tail that comes next is counted and performed. -/
theorem reaches_tail (hfuel : m.fuel ≤ 0) (t : Tail) (env : Locals) (stack : List Frame) :
    Reaches p (.tail (some t) env stack, m) (Job.go p m.tick stack (.tail t env)) :=
  ⟨1, fun n => by rw [Nat.add_comm]; exact loop_succ hfuel⟩

/-- A job that another one comes to is taken up. -/
theorem reaches_job (hfuel : m.fuel ≤ 0) (j : Job) (stack : List Frame) :
    Reaches p ((Move.job j).go p m stack) (j.go p (m.taking j) stack) := by
  cases j with
  | tail t env => exact reaches_tail hfuel t env stack
  | code c env => exact .refl p _

/-- A failure ends the run. -/
theorem go_of_failure {j : Job} {f : Failure} (h : j.move p m = .error (.halt (.failure f)))
    (stack : List Frame) : j.go p m stack = (.halt (.failure f), m) := by
  cases j with
  | tail t env =>
      rcases Except.bind_eq_error.mp h with hop | ⟨⟨e, m₁⟩, -, h⟩
      · rw [Job.go, perform, hop]
        rfl
      · -- what an operation comes to is missing only where an invariant is broken
        rcases Except.bind_eq_error.mp h with hmv | ⟨mv, -, h⟩
        · unfold Effect.move at hmv
          split at hmv <;> cases hmv
        · cases h
  | code c env =>
      cases c with
      | bind vars t next => cases h
      | done t => cases h
      | branch cond t f =>
          rcases Except.bind_eq_error.mp h with hcall | ⟨call, -, h⟩
          · rw [Job.go, enterCode, hcall]
            rfl
          · cases h
      | case scrut alts default =>
          rcases Except.bind_eq_error.mp h with hcall | ⟨call, -, h⟩
          · rw [Job.go, enterCode, hcall]
            rfl
          · cases h

theorem Leads.of_reaches (h : Leads p y r m) (hr : Reaches p x y) : Leads p x r m := by
  obtain ⟨a, ha⟩ := hr
  obtain ⟨b, hb⟩ := h
  exact ⟨a + b, fun n => by rw [Nat.add_assoc, ha, hb]⟩

theorem Leads.after (h : Leads p x r m) (hr : Reaches p x y) : Leads p y r m := by
  obtain ⟨a, ha⟩ := h
  obtain ⟨b, hb⟩ := hr
  exact ⟨a, fun n => by rw [← hb, Nat.add_left_comm]; exact ha _⟩

theorem Leads.unique (h : Leads p x r m) (h' : Leads p x r' m') : r = r' ∧ m = m' := by
  obtain ⟨a, ha⟩ := h
  obtain ⟨b, hb⟩ := h'
  have heq := (ha b).symm.trans ((congrArg (loop p · x.1 x.2) (Nat.add_comm a b)).trans (hb a))
  exact Prod.mk.inj heq

theorem leads_finish (p : Program) (vals : List Value) (m : Machine) :
    Leads p (.finish vals, m) (.ok vals) m :=
  ⟨0, fun n => by cases n <;> rfl⟩

theorem leads_halt (p : Program) (h : Halt) (m : Machine) : Leads p (.halt h, m) (.error h) m :=
  ⟨0, fun n => by cases n <;> rfl⟩

end Runs

/-! ### Derivations without stalls -/

/-- A job comes to values or to a failure without waiting for a top-level value. If the derivation is
quiet, none of its operations prints or accesses memory. -/
inductive Comes (p : Program) (quiet : Prop) :
    Machine → Job → Except Failure (List Value) → Machine → Prop
  | values {m m' : Machine} {j : Job} {vs : List Value} (hquiet : quiet → j.leavesTrace = false)
      (hmove : j.move p m = .ok (.values vs, m')) : Comes p quiet m j (.ok vs) m'
  | fails {m : Machine} {j : Job} {f : Failure}
      (hmove : j.move p m = .error (.halt (.failure f))) : Comes p quiet m j (.error f) m
  | job {m m₁ m' : Machine} {j j' : Job} {r : Except Failure (List Value)}
      (hquiet : quiet → j.leavesTrace = false) (hmove : j.move p m = .ok (.job j', m₁))
      (hrest : Comes p quiet (m₁.taking j') j' r m') : Comes p quiet m j r m'
  | bind {m m₁ m₂ m' : Machine} {j : Job} {vars : List Temp} {t : Tail} {env : Locals} {next : Code}
      {vs : List Value} {r : Except Failure (List Value)} (hquiet : quiet → j.leavesTrace = false)
      (hmove : j.move p m = .ok (.bind vars t env next, m₁))
      (htail : Comes p quiet m₁.tick (.tail t env) (.ok vs) m₂) (hlen : vs.length = vars.length)
      (hnext : Comes p quiet m₂ (.code next (assign env vars vs)) r m') : Comes p quiet m j r m'
  | breaks {m m₁ m' : Machine} {j : Job} {vars : List Temp} {t : Tail} {env : Locals} {next : Code}
      {f : Failure} (hquiet : quiet → j.leavesTrace = false)
      (hmove : j.move p m = .ok (.bind vars t env next, m₁))
      (htail : Comes p quiet m₁.tick (.tail t env) (.error f) m') : Comes p quiet m j (.error f) m'

/-- Whatever values the first has, the second has too. -/
def Tops.Le (T T' : Tops) : Prop := ∀ i vs, T.lookup i = some vs → T'.lookup i = some vs

theorem Tops.Le.refl (T : Tops) : T.Le T := fun _ _ h => h

theorem Tops.Le.trans {T₁ T₂ T₃ : Tops} (h : T₁.Le T₂) (h' : T₂.Le T₃) : T₁.Le T₃ :=
  fun i vs hi => h' i vs (h i vs hi)

section Comes

variable {p : Program} {quiet : Prop} {m m' : Machine} {j : Job} {r : Except Failure (List Value)}

theorem Comes.steady (h : Comes p quiet m j r m') : Steady m m' := by
  induction h with
  | values _ hmove => exact steady_move hmove
  | fails _ => exact .refl _
  | @job _ m₁ _ _ j' _ _ hmove _ ih => exact ((steady_move hmove).trans (.taking m₁ j')).trans ih
  | @bind _ m₁ _ _ _ _ _ _ _ _ _ _ hmove _ _ _ ih₁ ih₂ =>
      exact (((steady_move hmove).trans (.tick m₁)).trans ih₁).trans ih₂
  | @breaks _ m₁ _ _ _ _ _ _ _ _ hmove _ ih =>
      exact ((steady_move hmove).trans (.tick m₁)).trans ih

/-- Nothing can be seen of a quiet derivation. -/
theorem Comes.silent (h : Comes p quiet m j r m') (hq : quiet) : m'.trace = m.trace := by
  induction h with
  | values hquiet hmove => exact trace_of_move (hquiet hq) hmove
  | fails _ => rfl
  | @job _ m₁ _ _ j' _ hquiet hmove _ ih =>
      rw [ih, ← trace_of_move (hquiet hq) hmove]
      cases j' <;> rfl
  | bind hquiet hmove _ _ _ ih₁ ih₂ =>
      rw [ih₂, ih₁, ← trace_of_move (hquiet hq) hmove]
      rfl
  | breaks hquiet hmove _ ih =>
      rw [ih, ← trace_of_move (hquiet hq) hmove]
      rfl

/-! ### Machines with more values -/

/-- The second machine has all values that the first has. -/
structure Beyond (m m₂ : Machine) : Prop where
  size : m₂.size = m.size
  tops : Tops.Le m.tops m₂.tops

theorem Beyond.steady {m₁ m₂ m₂₁ : Machine} (h : Beyond m m₂) (hs : Steady m m₁)
    (hs₂ : Steady m₂ m₂₁) : Beyond m₁ m₂₁ :=
  ⟨hs₂.size.trans (h.size.trans hs.size.symm), by rw [hs.tops, hs₂.tops]; exact h.tops⟩

/-- On a machine with more values an operand has the value it had. While nothing is being computed
and the machines are in one place, it also fails in the way it failed. -/
theorem atom_beyond {live : Prop} {m₂ : Machine} {env : Locals} (hm : Beyond m m₂)
    (hlive : live → m.active = [] ∧ m₂.pos = m.pos) (a : Atom) :
    Answers live (fun _ => False) Eq (atom p m env a) (atom p m₂ env a) := by
  cases a with
  | temp t => exact .refl _
  | lit l => exact .refl _
  | top id index site =>
      unfold atom
      dsimp only
      unfold topValue
      refine Answers.bind (R := Eq) ?_ fun id id₂ hid => ?_
      · unfold topTarget
        dsimp only
        split
        · split
          · split
            · exact .ok rfl
            · exact fail_answers (fun h => (hlive h).2) _
          · exact .ok rfl
        · exact .ok rfl
      · subst hid
        refine Answers.bind (R := Eq) ?_ fun vals vals₂ hvals => ?_
        · unfold topValues
          cases hlookup : m.tops.lookup id with
          | some vals =>
              rw [hm.tops id vals hlookup]
              exact .ok rfl
          | none =>
              dsimp only
              split
              · exact .defect
              · split
                · split
                  · rename_i hmem
                    exact .dead fun h => List.not_mem_nil ((hlive h).1 ▸ hmem)
                  · exact .stall
                · exact .defect
        · subst hvals
          exact .refl _

/-- A move on a machine with more values. -/
theorem move_beyond {m₂ : Machine} {mv : Move} (hmove : j.move p m = .ok (mv, m'))
    (hm : Beyond m m₂) (htrace : j.leavesTrace = true → m₂.trace = m.trace) :
    ∃ m₂', j.move p m₂ = .ok (mv, m₂') ∧ Beyond m' m₂' ∧ Echoes j.leavesTrace m m₂ m' m₂' ∧
      (m₂.pos = m.pos → m₂'.pos = m'.pos) ∧ m₂'.steps + m.steps = m₂.steps + m'.steps := by
  have h := move_answers hm.size (fun h : False => h.elim) htrace
    fun a _ => atom_beyond (p := p) hm (fun h : False => h.elim) a
  rw [hmove] at h
  generalize hmove₂ : j.move p m₂ = y at h
  cases h with
  | @ok _ b h =>
      obtain ⟨mv₂, m₂'⟩ := b
      obtain ⟨hmv, hecho, hpos⟩ := h
      dsimp only at hmv
      subst hmv
      refine ⟨m₂', rfl, hm.steady (steady_move hmove) (steady_move hmove₂), hecho, hpos, ?_⟩
      rw [(still_move hmove).steps, (still_move hmove₂).steps]
  | late h => exact h.elim

theorem Echoes.trace_eq {traced : Bool} {m m₂ m' m₂' : Machine} (h : Echoes traced m m₂ m' m₂')
    (htrace : m₂.trace = m.trace) : m₂'.trace = m'.trace := by
  rcases h with ⟨h, h₂⟩ | ⟨-, h⟩
  · rw [h₂, htrace, h]
  · exact h

theorem steps_taking (m : Machine) (j : Job) : (m.taking j).steps = m.steps + j.weight := by
  cases j <;> rfl

theorem steps_tick (m : Machine) : m.tick.steps = m.steps + 1 := rfl

theorem pos_taking (m : Machine) (j : Job) : (m.taking j).pos = m.pos := by
  cases j <;> rfl

/-- A derivation of values can be followed on a machine with more values. If it is quiet, the memory
and what was printed do not matter. -/
theorem Comes.transfer {m₂ : Machine} {vs : List Value} (h : Comes p quiet m j r m')
    (hr : r = .ok vs) (hm : Beyond m m₂) (htrace : quiet ∨ m₂.trace = m.trace) :
    ∃ m₂', Comes p quiet m₂ j r m₂' ∧ (m₂.trace = m.trace → m₂'.trace = m'.trace) ∧
      (m₂.pos = m.pos → m₂'.pos = m'.pos) ∧ m₂'.steps + m.steps = m₂.steps + m'.steps := by
  have htraced {j : Job} {m m₂ : Machine} (hquiet : quiet → j.leavesTrace = false)
      (htrace : quiet ∨ m₂.trace = m.trace) (h : j.leavesTrace = true) : m₂.trace = m.trace := by
    rcases htrace with hq | htrace
    · rw [hquiet hq] at h
      cases h
    · exact htrace
  induction h generalizing m₂ vs with
  | values hquiet hmove =>
      obtain ⟨m₂', hmove₂, -, hecho, hpos, hsteps⟩ := move_beyond hmove hm (htraced hquiet htrace)
      exact ⟨m₂', .values hquiet hmove₂, hecho.trace_eq, hpos, hsteps⟩
  | fails => cases hr
  | @job m m₁ m' j j' r hquiet hmove _ ih =>
      obtain ⟨m₂₁, hmove₂, hm₁, hecho, hpos, hsteps⟩ :=
        move_beyond hmove hm (htraced hquiet htrace)
      obtain ⟨m₂', hcomes, htrace', hpos', hsteps'⟩ := ih hr
        (hm₁.steady (.taking m₁ j') (.taking m₂₁ j'))
        (htrace.imp_right fun h => by rw [trace_taking, trace_taking, hecho.trace_eq h])
      rw [trace_taking, trace_taking] at htrace'
      rw [pos_taking, pos_taking] at hpos'
      rw [steps_taking, steps_taking] at hsteps'
      exact ⟨m₂', .job hquiet hmove₂ hcomes, fun h => htrace' (hecho.trace_eq h),
        fun h => hpos' (hpos h), by omega⟩
  | @bind m m₁ m₃ m' j vars t env next vs' r hquiet hmove htail hlen _ ih₁ ih₂ =>
      obtain ⟨m₂₁, hmove₂, hm₁, hecho, hpos, hsteps⟩ :=
        move_beyond hmove hm (htraced hquiet htrace)
      have hm₁ := hm₁.steady (.tick m₁) (.tick m₂₁)
      obtain ⟨m₂₂, htail₂, htrace₁, hpos₁, hsteps₁⟩ :=
        ih₁ rfl hm₁ (htrace.imp_right hecho.trace_eq)
      obtain ⟨m₂', hnext₂, htrace₂, hpos₂, hsteps₂⟩ := ih₂ hr
        (hm₁.steady htail.steady htail₂.steady)
        (htrace.imp_right fun h => htrace₁ (hecho.trace_eq h))
      rw [steps_tick, steps_tick] at hsteps₁
      exact ⟨m₂', .bind hquiet hmove₂ htail₂ hlen hnext₂,
        fun h => htrace₂ (htrace₁ (hecho.trace_eq h)), fun h => hpos₂ (hpos₁ (hpos h)), by omega⟩
  | breaks => cases hr

end Comes

/-! ### Settled tables -/

/-- The values of a top-level definition, with the steps that it took to compute them. -/
structure Entry where
  id : DefnId
  vals : List Value
  cost : Nat

/-- Entries, the newest first. -/
abbrev Table := List Entry

namespace Table

/-- The values of a table. -/
def tops (T : Table) : Tops := T.map fun e => (e.id, e.vals)

/-- The steps that it took to compute all values of a table. -/
def cost (T : Table) : Nat := (T.map Entry.cost).sum

/-- Values that are there from the start, as entries that cost nothing. -/
def given (T : Tops) : Table := T.map fun e => ⟨e.1, e.2, 0⟩

@[simp] theorem tops_given (T : Tops) : tops (given T) = T := by
  rw [tops, given, List.map_map]
  exact List.map_id T

theorem isSome_lookup_of_mem_given {T : Tops} {e : Entry} (h : e ∈ given T) :
    (T.lookup e.id).isSome := by
  obtain ⟨⟨i, vs⟩, hmem, rfl⟩ := List.mem_map.mp h
  exact lookup_isSome_iff_mem.mpr (List.mem_map_of_mem hmem)

@[simp] theorem cost_cons (e : Entry) (T : Table) : cost (e :: T) = e.cost + cost T := by
  rw [cost, List.map_cons, List.sum_cons, ← cost]

theorem cost_append (S T : Table) : cost (S ++ T) = cost S + cost T := by
  rw [cost, List.map_append, List.sum_append, ← cost, ← cost]

@[simp] theorem cost_given (T : Tops) : cost (given T) = 0 := by
  induction T with
  | nil => rfl
  | cons e T ih => rw [given, List.map_cons, cost_cons, ← given, ih]

theorem lookup_cons (e : Entry) (T : Table) (i : DefnId) :
    (tops (e :: T)).lookup i = if i = e.id then some e.vals else (tops T).lookup i := by
  rw [tops, List.map_cons, lookup_cons_ite]
  rfl

theorem le_cons {e : Entry} {T : Table} (h : (tops T).lookup e.id = none) :
    Tops.Le (tops T) (tops (e :: T)) := by
  intro i vs hi
  rw [lookup_cons, if_neg]
  · exact hi
  · rintro rfl
    rw [h] at hi
    cases hi

end Table

/-- The values of the machine `m₀` are there from the start. Each entry above them is computed in silence
from the entries below it, and no definition gets a second one. -/
inductive Settled (p : Program) (m₀ : Machine) : Table → Prop
  | given : Settled p m₀ (Table.given m₀.tops)
  | cons {e : Entry} {T : Table} {d : Defn} {tl : TopLevel} {t : Tail} {m m' : Machine}
      (h : Settled p m₀ T) (hnew : (Table.tops T).lookup e.id = none)
      (hd : p.defns[e.id]? = some d) (hbody : d.body = .top tl) (htail : tl.tail = some t)
      (hsize : m.size = m₀.size) (htops : m.tops = Table.tops T)
      (hrun : Comes p True m (.tail t []) (.ok e.vals) m') (hcost : e.cost + m.steps = m'.steps + 1) :
      Settled p m₀ (e :: T)

/-- The entry of the table was computed from the older ones. -/
structure Computed (p : Program) (m₀ : Machine) (T : Table) (e : Entry) (older : Table) : Prop where
  mem : e ∈ T
  subset : older ⊆ T
  shorter : older.length < T.length
  le : Tops.Le older.tops T.tops
  lookup : T.tops.lookup e.id = some e.vals
  settled : Settled p m₀ older
  new : older.tops.lookup e.id = none
  run : ∃ d tl t w w', p.defns[e.id]? = some d ∧ d.body = .top tl ∧ tl.tail = some t ∧
    w.size = m₀.size ∧ w.tops = older.tops ∧ Comes p True w (.tail t []) (.ok e.vals) w' ∧
    e.cost + w.steps = w'.steps + 1

section Settled

variable {p : Program} {m₀ : Machine} {T : Table}

/-- The values from the start stay. -/
theorem Settled.le_given (h : Settled p m₀ T) : Tops.Le m₀.tops T.tops := by
  induction h with
  | given =>
      rw [Table.tops_given]
      exact .refl _
  | cons _ hnew _ _ _ _ _ _ _ ih => exact ih.trans (Table.le_cons hnew)

theorem Computed.cons {e e' : Entry} {older : Table} (h : Computed p m₀ T e older)
    (hnew : T.tops.lookup e'.id = none) : Computed p m₀ (e' :: T) e older :=
  { h with
    mem := .tail _ h.mem
    subset := fun _ he => .tail _ (h.subset he)
    shorter := Nat.lt_succ_of_lt h.shorter
    le := h.le.trans (Table.le_cons hnew)
    lookup := Table.le_cons hnew _ _ h.lookup }

/-- Values of a table are there from the start, or belong to an entry that was computed. -/
theorem Settled.find (h : Settled p m₀ T) {i : DefnId} {vs : List Value}
    (hi : T.tops.lookup i = some vs) : m₀.tops.lookup i = some vs ∨
      ∃ e older, e.id = i ∧ e.vals = vs ∧ Computed p m₀ T e older := by
  induction h with
  | given =>
      rw [Table.tops_given] at hi
      exact .inl hi
  | @cons e T d tl t w w' hT hnew hd hbody htail hsize htops hrun hcost ih =>
      by_cases heq : i = e.id
      · have hlookup := Table.lookup_cons e T e.id
        rw [if_pos rfl] at hlookup
        subst heq
        exact .inr ⟨e, T, rfl, Option.some.inj (hlookup.symm.trans hi), .head _, fun _ => .tail _,
          Nat.lt_succ_self _, Table.le_cons hnew, hlookup, hT, hnew, d, tl, t, w, w', hd, hbody, htail,
          hsize, htops, hrun, hcost⟩
      · rw [Table.lookup_cons, if_neg heq] at hi
        exact (ih hi).imp_right fun ⟨e', older, hid, hvals, hcomputed⟩ =>
          ⟨e', older, hid, hvals, hcomputed.cons hnew⟩

/-- The entries that were computed are different, and their definitions have no values from the start. -/
theorem Settled.exists_computed (h : Settled p m₀ T) : ∃ C : Table, T = C ++ Table.given m₀.tops ∧
    C.Nodup ∧ ∀ e ∈ C, m₀.tops.lookup e.id = none ∧ T.tops.lookup e.id = some e.vals := by
  induction h with
  | given => exact ⟨[], rfl, .nil, nofun⟩
  | @cons e T _ _ _ _ _ hT hnew _ _ _ _ _ _ _ ih =>
      obtain ⟨C, hC, hnodup, hnone⟩ := ih
      have hlookup := Table.lookup_cons e T e.id
      rw [if_pos rfl] at hlookup
      have hgiven : m₀.tops.lookup e.id = none := by
        cases hi : m₀.tops.lookup e.id with
        | none => rfl
        | some vs =>
            rw [hT.le_given _ _ hi] at hnew
            cases hnew
      refine ⟨e :: C, congrArg (e :: ·) hC, List.nodup_cons.mpr ⟨fun hmem => ?_, hnodup⟩,
        List.forall_mem_cons.mpr ⟨⟨hgiven, hlookup⟩, fun e' he' => ⟨(hnone e' he').1,
          Table.le_cons hnew _ _ (hnone e' he').2⟩⟩⟩
      rw [(hnone e hmem).2] at hnew
      cases hnew

/-- An entry whose definition has no values from the start gives the values of the definition. -/
theorem Settled.lookup_of_mem (h : Settled p m₀ T) {e : Entry} (he : e ∈ T)
    (hnone : m₀.tops.lookup e.id = none) : T.tops.lookup e.id = some e.vals := by
  obtain ⟨C, hC, -, hall⟩ := h.exists_computed
  rcases List.mem_append.mp (hC ▸ he) with he | he
  · exact (hall e he).2
  · have hsome := Table.isSome_lookup_of_mem_given he
    rw [hnone] at hsome
    cases hsome

end Settled

/-! ### Derivations for machines that have not computed everything -/

/-- The machine with the values of a table at hand. -/
def under (m : Machine) (T : Table) : Machine := { m with tops := T.tops, active := [] }

/-- With the values of the table at hand, the job comes to its outcome in `k` steps, from a machine
where `m` is to one where `m'` is. -/
def Warm (p : Program) (quiet : Prop) (T : Table) (m : Machine) (j : Job)
    (r : Except Failure (List Value)) (m' : Machine) (k : Nat) : Prop :=
  ∀ w, Beyond (m.under T) w → w.active = [] → w.trace = m.trace → w.pos = m.pos →
    ∃ w', Comes p quiet w j r w' ∧ w'.trace = m'.trace ∧ w'.pos = m'.pos ∧ w'.steps = w.steps + k

section Warm

variable {p : Program} {quiet : Prop} {S T : Table} {m m₁ m₂ m' : Machine} {j : Job}
  {r : Except Failure (List Value)} {k k' : Nat}

theorem Warm.mono (h : Warm p quiet S m j r m' k) (hle : Tops.Le S.tops T.tops) :
    Warm p quiet T m j r m' k :=
  fun w hw => h w ⟨hw.size, hle.trans hw.tops⟩

/-- Only the word size, the place and what can be seen of a machine matter. -/
theorem Warm.congr (h : Warm p quiet T m₁ j r m' k) (hsize : m₁.size = m.size)
    (htrace : m₁.trace = m.trace) (hpos : m₁.pos = m.pos) : Warm p quiet T m j r m' k :=
  fun w hw hactive htrace' hpos' => h w ⟨hw.size.trans hsize.symm, hw.tops⟩ hactive
    (htrace'.trans htrace.symm) (hpos'.trans hpos.symm)

theorem beyond_of_tops {w : Machine} (htops : m.tops = S.tops) (hle : Tops.Le S.tops T.tops)
    (hw : Beyond (m.under T) w) : Beyond m w :=
  ⟨hw.size, htops ▸ hle.trans hw.tops⟩

theorem warm_values {vs : List Value} (hquiet : quiet → j.leavesTrace = false)
    (hmove : j.move p m = .ok (.values vs, m')) (htops : m.tops = T.tops) :
    Warm p quiet T m j (.ok vs) m' 0 := by
  intro w hw _ htrace hpos
  obtain ⟨w', hmove', -, hecho, hpos', hsteps⟩ :=
    move_beyond hmove (beyond_of_tops htops (.refl _) hw) fun _ => htrace
  exact ⟨w', .values hquiet hmove', hecho.trace_eq htrace, hpos' hpos, (still_move hmove').steps⟩

/-- A failure is the same with more values, unless something was being computed. -/
theorem warm_fails {f : Failure} (hmove : j.move p m = .error (.halt (.failure f)))
    (htops : m.tops = T.tops) (hactive : m.active = []) : Warm p quiet T m j (.error f) m 0 := by
  intro w hw _ htrace hpos
  have hm := beyond_of_tops htops (.refl _) hw
  have h := move_answers (j := j) hm.size (fun _ : True => hpos) (fun _ => htrace)
    fun a _ => atom_beyond (p := p) hm (fun _ => ⟨hactive, hpos⟩) a
  rw [hmove] at h
  generalize hmove' : j.move p w = y at h
  cases h with
  | failure => exact ⟨w, .fails hmove', htrace, hpos, rfl⟩
  | dead h => exact absurd trivial h
  | late h => exact h.elim

theorem warm_job {j' : Job} (hquiet : quiet → j.leavesTrace = false)
    (hmove : j.move p m = .ok (.job j', m₁)) (htops : m.tops = S.tops)
    (hle : Tops.Le S.tops T.tops) (h : Warm p quiet T (m₁.taking j') j' r m' k) :
    Warm p quiet T m j r m' (j'.weight + k) := by
  intro w hw hactive htrace hpos
  obtain ⟨w₁, hmove', hw₁, hecho, hpos₁, hsteps₁⟩ :=
    move_beyond hmove (beyond_of_tops htops hle hw) fun _ => htrace
  have hs := (steady_move hmove').trans (.taking w₁ j')
  obtain ⟨w', hcomes, htrace', hpos', hsteps'⟩ := h (w₁.taking j')
    ⟨(hw₁.steady (.taking m₁ j') (.taking w₁ j')).size, by rw [hs.tops]; exact hw.tops⟩
    (hs.active.trans hactive) (by rw [trace_taking, trace_taking, hecho.trace_eq htrace])
    (by rw [pos_taking, pos_taking, hpos₁ hpos])
  refine ⟨w', .job hquiet hmove' hcomes, htrace', hpos', ?_⟩
  rw [hsteps', steps_taking, (still_move hmove').steps, Nat.add_assoc]

theorem warm_bind {vars : List Temp} {t : Tail} {env : Locals} {next : Code} {vs : List Value}
    (hquiet : quiet → j.leavesTrace = false) (hmove : j.move p m = .ok (.bind vars t env next, m₁))
    (htops : m.tops = S.tops) (hle : Tops.Le S.tops T.tops)
    (htail : Warm p quiet T m₁.tick (.tail t env) (.ok vs) m₂ k) (hsize : m₂.size = m₁.size)
    (hlen : vs.length = vars.length)
    (hnext : Warm p quiet T m₂ (.code next (assign env vars vs)) r m' k') :
    Warm p quiet T m j r m' (k + 1 + k') := by
  intro w hw hactive htrace hpos
  obtain ⟨w₁, hmove', hw₁, hecho, hpos₁, hsteps₁⟩ :=
    move_beyond hmove (beyond_of_tops htops hle hw) fun _ => htrace
  have hs := (steady_move hmove').trans (.tick w₁)
  obtain ⟨w₂, hcomes, htrace₂, hpos₂, hsteps₂⟩ := htail w₁.tick
    ⟨hw₁.size, by rw [hs.tops]; exact hw.tops⟩ (hs.active.trans hactive) (hecho.trace_eq htrace)
    (hpos₁ hpos)
  have hs₂ := hs.trans hcomes.steady
  obtain ⟨w', hcomes', htrace', hpos', hsteps'⟩ := hnext w₂
    ⟨hcomes.steady.size.trans (hw₁.size.trans hsize.symm), by rw [hs₂.tops]; exact hw.tops⟩
    (hs₂.active.trans hactive) htrace₂ hpos₂
  refine ⟨w', .bind hquiet hmove' hcomes hlen hcomes', htrace', hpos', ?_⟩
  rw [hsteps', hsteps₂, steps_tick, (still_move hmove').steps]
  omega

theorem warm_breaks {vars : List Temp} {t : Tail} {env : Locals} {next : Code} {f : Failure}
    (hquiet : quiet → j.leavesTrace = false) (hmove : j.move p m = .ok (.bind vars t env next, m₁))
    (htops : m.tops = S.tops) (hle : Tops.Le S.tops T.tops)
    (htail : Warm p quiet T m₁.tick (.tail t env) (.error f) m' k) :
    Warm p quiet T m j (.error f) m' (k + 1) := by
  intro w hw hactive htrace hpos
  obtain ⟨w₁, hmove', hw₁, hecho, hpos₁, hsteps₁⟩ :=
    move_beyond hmove (beyond_of_tops htops hle hw) fun _ => htrace
  have hs := (steady_move hmove').trans (.tick w₁)
  obtain ⟨w₂, hcomes, htrace₂, hpos₂, hsteps₂⟩ := htail w₁.tick
    ⟨hw₁.size, by rw [hs.tops]; exact hw.tops⟩ (hs.active.trans hactive) (hecho.trace_eq htrace)
    (hpos₁ hpos)
  refine ⟨w₂, .breaks hquiet hmove' hcomes, htrace₂, hpos₂, ?_⟩
  rw [hsteps₂, steps_tick, (still_move hmove').steps]
  omega

end Warm

end Mil.Machine
