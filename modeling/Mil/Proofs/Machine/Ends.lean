import Mathlib.Algebra.Order.BigOperators.Group.List
import Mathlib.Algebra.Order.Group.Nat
import Mil.Proofs.Machine.Evaluate
import Mil.Proofs.Machine.Region

/-!
What every transition leaves alone, and runs that end. The bound on the steps does not change, a
transition counts one step, and what was printed stays printed. From a run that ends with values or a
failure a derivation is read off that finds the values of top-level definitions in a table, namely in
the one that the run leaves behind; its steps are those of the run less the cost of the table. From a
derivation and its table in turn a run is read off that takes no more than the steps of both.
-/

namespace Mil.Machine

/-! ### Later states -/

/-- A later state of a machine: so many more tails have been counted, and nothing that was printed is
gone. -/
structure Onward (n : Nat) (m m' : Machine) : Prop where
  fuel : m'.fuel = m.fuel
  steps : m'.steps = m.steps + n
  printed : m.printed <:+ m'.printed

theorem Onward.refl (m : Machine) : Onward 0 m m := ⟨rfl, rfl, List.suffix_refl _⟩

theorem Onward.trans {n k : Nat} {m m₁ m₂ : Machine} (h : Onward n m m₁) (h' : Onward k m₁ m₂) :
    Onward (n + k) m m₂ where
  fuel := h'.fuel.trans h.fuel
  steps := by rw [h'.steps, h.steps, Nat.add_assoc]
  printed := h.printed.trans h'.printed

theorem Still.onward {m m' : Machine} (h : Still m m') : Onward 0 m m' := ⟨h.fuel, h.steps, h.printed⟩

section Transitions

variable {p : Program} {m : Machine} {stack : List Frame}

theorem onward_onStall (m : Machine) (s : Stall) (resume : Option Resume) (stack : List Frame) :
    Onward 0 m (onStall m s resume stack).2 := by
  cases s with
  | halt h => exact .refl m
  | top id pos t => exact ⟨rfl, rfl, List.suffix_refl _⟩

theorem onward_enterCode (p : Program) (m : Machine) (c : Code) (env : Locals) (stack : List Frame) :
    Onward 0 m (enterCode p m c env stack).2 := by
  cases c with
  | bind vars t next => exact .refl m
  | done t => exact .refl m
  | branch cond t f =>
      unfold enterCode
      dsimp only
      split
      · exact .refl m
      · exact onward_onStall _ _ _ _
  | case scrut alts default =>
      unfold enterCode
      dsimp only
      split
      · exact .refl m
      · exact onward_onStall _ _ _ _

theorem onward_enterBody (p : Program) (m : Machine) (c : Option Code) (env : Locals)
    (stack : List Frame) : Onward 0 m (enterBody p m c env stack).2 := by
  cases c with
  | none => exact .refl m
  | some c => exact onward_enterCode p m c env stack

/-- A tail is performed, provided that what waits for its values takes them on. -/
theorem onward_perform_of (hdeliver : ∀ m vals, Onward 0 m (deliver p stack m vals).2) (m : Machine)
    (t : Tail) (env : Locals) : Onward 0 m (perform p m t env stack).2 := by
  unfold perform
  split
  · exact onward_onStall _ _ _ _
  · rename_i hop
    exact (still_operate hop).onward.trans (hdeliver _ _)
  · rename_i hop
    exact (still_operate hop).onward.trans (onward_enterBody _ _ _ _ _)
  · rename_i hop
    exact (still_operate hop).onward

theorem onward_deliver (p : Program) (stack : List Frame) (m : Machine) (vals : List Value) :
    Onward 0 m (deliver p stack m vals).2 := by
  induction stack generalizing m vals with
  | nil => exact .refl m
  | cons frame stack ih =>
      cases frame with
      | bind vars next env =>
          unfold deliver
          split
          · exact .refl m
          · exact onward_enterCode _ _ _ _ _
      | top id saved resume =>
          have hkeep : Onward 0 m (m.keeping id saved vals) := ⟨rfl, rfl, List.suffix_refl _⟩
          cases resume with
          | none => exact hkeep.trans (ih _ _)
          | some resume =>
              cases resume with
              | code c env => exact hkeep.trans (onward_enterCode _ _ _ _ _)
              | operation t env => exact hkeep.trans (onward_perform_of ih _ t env)

theorem onward_perform (p : Program) (m : Machine) (t : Tail) (env : Locals) (stack : List Frame) :
    Onward 0 m (perform p m t env stack).2 :=
  onward_perform_of (onward_deliver p stack) m t env

theorem onward_go (p : Program) (m : Machine) (stack : List Frame) (j : Job) :
    Onward 0 m (j.go p m stack).2 := by
  cases j with
  | tail t env => exact onward_perform _ _ _ _ _
  | code c env => exact onward_enterCode _ _ _ _ _

theorem onward_step (p : Program) (m : Machine) (t : Option Tail) (env : Locals)
    (stack : List Frame) : Onward 1 m (step p m t env stack).2 := by
  have htick : Onward 1 m m.tick := ⟨rfl, rfl, List.suffix_refl _⟩
  unfold step
  dsimp only
  split
  · exact htick
  · cases t with
    | some t => exact htick.trans (onward_perform _ _ _ _ _)
    | none => exact htick

theorem onward_loop (p : Program) (n : Nat) (c : Next) (m : Machine) :
    ∃ k, Onward k m (loop p n c m).2 := by
  induction n generalizing c m with
  | zero => cases c <;> exact ⟨0, .refl m⟩
  | succ n ih =>
      cases c with
      | finish vals => exact ⟨0, .refl m⟩
      | halt h => exact ⟨0, .refl m⟩
      | tail t env stack =>
          obtain ⟨k, hk⟩ := ih (step p m t env stack).1 (step p m t env stack).2
          exact ⟨1 + k, (onward_step p m t env stack).trans hk⟩

theorem onward_start (p : Program) (m : Machine) (id : DefnId) (args : List Value) :
    Onward 0 m (start p m id args).2 := by
  unfold start
  dsimp only
  split
  · exact .refl m
  · rename_i d _
    have hpos : Onward 0 m { m with pos := d.pos } := ⟨rfl, rfl, List.suffix_refl _⟩
    split
    · split
      · exact hpos
      · exact hpos.trans (onward_enterBody _ _ _ _ _)
    · split
      · exact hpos
      · exact hpos.trans (onward_onStall _ _ _ _)
    · exact hpos

end Transitions

/-! ### Steps are counted up -/

section Steps

variable {p : Program} {m mf : Machine} {stack : List Frame} {r : Except Halt (List Value)}

theorem Leads.steps_le {x : Next × Machine} (h : Leads p x r mf) : x.2.steps ≤ mf.steps := by
  obtain ⟨a, ha⟩ := h
  obtain ⟨k, hk⟩ := onward_loop p (a + 0) x.1 x.2
  rw [ha 0] at hk
  exact hk.steps ▸ Nat.le_add_right _ _

theorem steps_go (p : Program) (m : Machine) (stack : List Frame) (j : Job) :
    (j.go p m stack).2.steps = m.steps :=
  (onward_go p m stack j).steps

/-- A job that breaks an invariant ends the run. -/
theorem leads_defect (hfuel : m.fuel ≤ 0) {j : Job} {d : Defect}
    (h : j.move p m = .error (.halt (.defect d))) (stack : List Frame) :
    ∃ m', Leads p (j.go p m stack) (.error (.defect d)) m' := by
  cases j with
  | tail t env =>
      rcases Except.bind_eq_error.mp h with hop | ⟨⟨e, m₁⟩, hop, h⟩
      · rw [Job.go, perform, hop]
        exact ⟨_, leads_halt p _ _⟩
      · rw [Job.go, perform, hop]
        rcases Except.bind_eq_error.mp h with hmv | ⟨mv, -, h⟩
        · unfold Effect.move at hmv
          split at hmv <;> cases hmv
          · exact ⟨_, leads_halt p _ _⟩
          · -- a tail that is missing is noticed only when it is counted
            have hnot : ¬ (0 < m₁.fuel ∧ m₁.fuel < ((m₁.steps + 1 : Nat) : Int)) := by
              rw [(still_operate hop).fuel]
              omega
            refine ⟨m₁.tick, 1, fun n => ?_⟩
            rw [Nat.add_comm, loop, step]
            dsimp only
            rw [if_neg hnot]
            cases n <;> rfl
        · cases h
  | code c env =>
      cases c with
      | bind vars t next => cases h
      | done t => cases h
      | branch cond t f =>
          rcases Except.bind_eq_error.mp h with hcall | ⟨call, -, h⟩
          · rw [Job.go, enterCode, hcall]
            exact ⟨_, leads_halt p _ _⟩
          · cases h
      | case scrut alts default =>
          rcases Except.bind_eq_error.mp h with hcall | ⟨call, -, h⟩
          · rw [Job.go, enterCode, hcall]
            exact ⟨_, leads_halt p _ _⟩
          · cases h

end Steps

/-! ### From runs to derivations -/

/-- The machine is at rest, and the table that is settled over it has the values of all top-level
definitions of the region. -/
structure Covers (p : Program) (m₀ : Machine) (R : DefnId → Prop) (T : Table) : Prop
    extends AtRest m₀ where
  region : Region p R
  within : TopsWithin R m₀.tops
  settled : Settled p m₀ T
  full : ∀ {id : DefnId} {d : Defn} {tl : TopLevel}, R id → p.defns[id]? = some d →
    d.body = .top tl → ∃ vs, T.tops.lookup id = some vs

/-- What can be reached in a linked program is a region. There is a table of its values over every
machine that has or can provide them. -/
theorem exists_covers {p : Program} {m₀ : Machine} (hp : p.Linked) (h : Provided p m₀)
    (hwithin : TopsWithin (· ∈ p.reachable) m₀.tops) : ∃ T, Covers p m₀ (· ∈ p.reachable) T := by
  have hresolve := Program.resolve_of_whole hp.whole
  obtain ⟨T, hT, hfull⟩ := h.exists_table hresolve
  exact ⟨T, h.toAtRest, ⟨hresolve, hp.refs⟩, hwithin, hT, fun hid hd hb => hfull _ hid _ _ hd hb⟩

section Runs

variable {p : Program} {m₀ : Machine} {R : DefnId → Prop} {S T : Table} {m mf : Machine} {j : Job}
  {r : Except Halt (List Value)}

/-- What a job comes to on a machine, with the steps of a derivation that finds its values in the
table that the machine has in the end. -/
structure Unwinds (p : Program) (m₀ : Machine) (T S S' : Table) (m : Machine) (j : Job)
    (o : Except Failure (List Value)) (m' : Machine) (k : Nat) : Prop where
  ahead : Ahead p m₀ T S S' m m'
  steps : m'.steps + S.cost = m.steps + k + S'.cost
  warm : Warm p False S' m j o m' k

/-- A run that does not end with a broken invariant begins with a derivation of its job. -/
theorem exists_unwinds (hT : Covers p m₀ R T) {stack : List Frame} (h : Lags p m₀ T S m)
    (hactive : m.active = []) (hj : j.Within R) (hr : ∀ d, r ≠ .error (.defect d))
    (hleads : Leads p (j.go p m stack) r mf) :
    ∃ o S' m' k, Unwinds p m₀ T S S' m j o m' k ∧ Leads p (handOn p stack m' o) r mf := by
  induction hn : 2 * (mf.steps - m.steps) + j.weight using Nat.strong_induction_on
    generalizing S m j stack with
  | h n ih =>
      have hquiet {j : Job} : False → j.leavesTrace = false := False.elim
      have htops : TopsWithin R m.tops := h.tops ▸ h.settled.within hT.region hT.within
      have hle := hleads.steps_le
      rw [steps_go] at hle
      cases hmove : j.move p m with
      | error s =>
          cases s with
          | halt e =>
              cases e with
              | defect d =>
                  obtain ⟨m', hleads'⟩ := leads_defect h.fuel hmove stack
                  exact absurd (hleads.unique hleads').1 (hr d)
              | failure f =>
                  rw [go_of_failure hmove] at hleads
                  exact ⟨.error f, S, m, 0, ⟨.refl h, rfl, warm_fails hmove h.tops hactive⟩, hleads⟩
          | top id pos t =>
              obtain ⟨-, -, d, tl, hd, hbody, -⟩ := errs_move _ _ hmove
              obtain ⟨vs, hvs⟩ := hT.full (hT.region.stall hj hmove) hd hbody
              obtain ⟨S₁, m₁, hahead, htrace, hpos, hsteps, hlt, -, hreach⟩ :=
                settle_top hT.settled (fun _ _ hold => plays hold) h hmove hvs
              have hleads₁ := hleads.after (hreach stack)
              have hle₁ := hleads₁.steps_le
              rw [steps_go] at hle₁
              obtain ⟨o, S', m', k, hu, hrest⟩ := ih _ (by omega) hahead.lags
                (hahead.active.trans hactive) hj hleads₁ rfl
              have hsteps' := hu.steps
              exact ⟨o, S', m', k, ⟨hahead.trans hu.ahead, by omega,
                hu.warm.congr (hahead.lags.size_eq.trans h.size_eq.symm) htrace hpos⟩, hrest⟩
      | ok x =>
          obtain ⟨mv, m₁⟩ := x
          have hmv := hT.region.move htops hj hmove
          have hs := steady_move hmove
          have hsteps₁ := (still_move hmove).steps
          rw [go_of_move hmove] at hleads
          cases mv with
          | values vs =>
              exact ⟨.ok vs, S, m₁, 0, ⟨(Ahead.refl h).steady hs, by omega,
                warm_values hquiet hmove h.tops⟩, hleads⟩
          | job j' =>
              have hs' := hs.trans (.taking m₁ j')
              have hleads₁ := hleads.after (reaches_job (hs.fuel ▸ h.fuel) j' stack)
              have hle₁ := hleads₁.steps_le
              rw [steps_go, steps_taking] at hle₁
              have hlt : 2 * (mf.steps - (m₁.taking j').steps) + j'.weight < n := by
                rw [steps_taking]
                cases j' with
                | tail t env =>
                    simp only [Job.weight] at hle₁ ⊢
                    omega
                | code c env =>
                    have hweight := weight_of_move hmove
                    show 2 * (mf.steps - m₁.steps) + 0 < n
                    omega
              obtain ⟨o, S', m', k, hu, hrest⟩ := ih _ hlt (h.steady hs') (hs'.active.trans hactive)
                hmv hleads₁ rfl
              have hsteps' := hu.steps
              rw [steps_taking] at hsteps'
              exact ⟨o, S', m', j'.weight + k, ⟨((Ahead.refl h).steady hs').trans hu.ahead, by omega,
                warm_job hquiet hmove h.tops hu.ahead.le hu.warm⟩, hrest⟩
          | bind vars t env next =>
              have hs' := hs.trans (.tick m₁)
              have hleads₁ := hleads.after (reaches_tail (hs.fuel ▸ h.fuel) t env _)
              have hle₁ := hleads₁.steps_le
              rw [steps_go, steps_tick] at hle₁
              obtain ⟨o, S₂, m₂, k, hu, hrest⟩ := ih _
                (by rw [steps_tick]; simp only [Job.weight]; omega) (h.steady hs')
                (hs'.active.trans hactive) hmv.1 hleads₁ rfl
              have hsteps₂ := hu.steps
              have hcost := hu.ahead.cost
              rw [steps_tick] at hsteps₂
              have hahead₂ := ((Ahead.refl h).steady hs').trans hu.ahead
              cases o with
              | error f =>
                  exact ⟨.error f, S₂, m₂, k + 1, ⟨hahead₂, by omega,
                    warm_breaks hquiet hmove h.tops hu.ahead.le hu.warm⟩, hrest⟩
              | ok vs =>
                  by_cases hlen : vs.length = vars.length
                  · rw [handOn, deliver, if_neg (not_not.mpr hlen)] at hrest
                    have hle₂ := hrest.steps_le
                    rw [(onward_enterCode _ _ _ _ _).steps, Nat.add_zero] at hle₂
                    -- the values that were bound are of the region, since they come from a derivation
                    obtain ⟨w', hcomes, -⟩ := hu.warm (m₁.tick.under S₂) ⟨rfl, .refl _⟩ rfl rfl rfl
                    have hvals := hcomes.within hT.region
                      (show TopsWithin R S₂.tops from hu.ahead.lags.settled.within hT.region hT.within)
                      hmv.1 vs rfl
                    obtain ⟨o, S', m', k', hu', hrest'⟩ := ih _
                      (by simp only [Job.weight]; omega) (j := .code next (assign env vars vs))
                      hu.ahead.lags (hahead₂.active.trans hactive)
                      ⟨hmv.2, hmv.1.2.assign vars hvals⟩ hrest rfl
                    have hsteps' := hu'.steps
                    exact ⟨o, S', m', k + 1 + k', ⟨hahead₂.trans hu'.ahead, by omega,
                      warm_bind hquiet hmove h.tops (hu.ahead.le.trans hu'.ahead.le)
                        (hu.warm.mono hu'.ahead.le)
                        (hu.ahead.lags.size_eq.trans (h.steady hs).size_eq.symm) hlen hu'.warm⟩, hrest'⟩
                  · rw [handOn, deliver, if_pos hlen] at hrest
                    exact absurd (hrest.unique (leads_halt p _ _)).1 (hr _)

end Runs

/-! ### Runs of blocks -/

/-- An outcome as the end of a run. -/
def ending : Except Failure (List Value) → Except Halt (List Value)
  | .ok vs => .ok vs
  | .error f => .error (.failure f)

/-- A run of a definition, without a bound on its steps, ends with values or with a failure, and
leaves a machine. -/
def Ends (p : Program) (m : Machine) (id : DefnId) (args : List Value)
    (o : Except Failure (List Value)) (m' : Machine) : Prop :=
  Leads p (start p m id args) (ending o) m'

section Blocks

variable {p : Program} {m₀ : Machine} {R : DefnId → Prop} {S T : Table} {m m' : Machine} {j : Job}
  {o : Except Failure (List Value)}

theorem ending_injective {o o' : Except Failure (List Value)} (h : ending o = ending o') : o = o' := by
  cases o <;> cases o' <;> cases h <;> rfl

theorem ending_ne_defect (o : Except Failure (List Value)) (d : Defect) :
    ending o ≠ .error (.defect d) := by
  cases o <;> exact nofun

/-- An outcome that nothing waits for ends the run. -/
theorem leads_handOn (p : Program) (m : Machine) (o : Except Failure (List Value)) :
    Leads p (handOn p [] m o) (ending o) m := by
  cases o with
  | ok vs => exact leads_finish p vs m
  | error f => exact leads_halt p _ m

theorem loop_add {n : Nat} {c : Next} {vals : List Value} (h : loop p n c m = (.ok vals, m'))
    (k : Nat) : loop p (n + k) c m = (.ok vals, m') := by
  induction n generalizing c m with
  | zero =>
      cases c with
      | finish vs => cases k <;> exact h
      | halt e => cases h
      | tail t env stack => cases h
  | succ n ih =>
      rw [Nat.add_right_comm]
      cases c with
      | finish vs => exact h
      | halt e => cases h
      | tail t env stack => exact ih h

theorem Returns.ends {id : DefnId} {args vals : List Value} (h : Returns p m id args vals m') :
    Ends p m id args (.ok vals) m' := by
  obtain ⟨n, hloop⟩ := h
  exact ⟨n, fun k => loop_add hloop k⟩

theorem Ends.returns {id : DefnId} {args vals : List Value} (h : Ends p m id args (.ok vals) m') :
    Returns p m id args vals m' := by
  obtain ⟨n, hloop⟩ := h
  exact ⟨n, hloop 0⟩

/-- A block whose run ends on as many values as it takes has a body. -/
theorem Ends.exists_body (hresolve : ∀ id, p.resolve id = id) {id : DefnId} {d : Defn} {b : Block}
    (hd : p.defns[id]? = some d) (hb : d.body = .block b) {args : List Value}
    (hlen : args.length = b.params.length) (h : Ends p m id args o m') : ∃ c, b.body = some c := by
  cases hbody : b.body with
  | some c => exact ⟨c, rfl⟩
  | none =>
      unfold Ends start Program.defn at h
      dsimp only at h
      rw [hresolve, hd] at h
      dsimp only at h
      rw [hb] at h
      dsimp only at h
      rw [if_neg (not_not.mpr hlen), hbody] at h
      exact absurd (h.unique (leads_halt p _ _)).1 (ending_ne_defect o _)

/-- A run of a block of a region is a run of its body, which is a job of the region. -/
theorem Ends.leads_body (hregion : Region p R) {id : DefnId} {d : Defn} {b : Block} (hid : R id)
    (hd : p.defns[id]? = some d) (hb : d.body = .block b) {args : List Value}
    (hargs : ∀ v ∈ args, v.Within R) (hlen : args.length = b.params.length)
    (h : Ends p m id args o m') : ∃ c, b.body = some c ∧
      (Job.code c (assign [] b.params args)).Within R ∧
      Leads p (Job.go p { m with pos := d.pos } [] (.code c (assign [] b.params args))) (ending o) m' := by
  obtain ⟨c, hc⟩ := h.exists_body hregion.resolve hd hb hlen
  unfold Ends at h
  rw [start_block (hregion.resolve _) hd hb hc hlen] at h
  exact ⟨c, hc, ⟨hregion.body hid hd hb hc, (LocalsWithin.nil R).assign _ hargs⟩, h⟩

/-- What was computed for a table that comes from another one cost no more than the other. -/
theorem Settled.cost_le (hS : Settled p m₀ S) (hT : Settled p m₀ T)
    (hsub : ∀ e ∈ S, e ∈ Table.given m₀.tops ∨ e ∈ T) : S.cost ≤ T.cost := by
  obtain ⟨C, rfl, hnodup, hnone⟩ := hS.exists_computed
  obtain ⟨D, rfl, -, -⟩ := hT.exists_computed
  have hsub : C ⊆ D := by
    intro e he
    have hgiven : e ∉ Table.given m₀.tops := by
      intro hmem
      have hsome := Table.isSome_lookup_of_mem_given hmem
      rw [(hnone e he).1] at hsome
      cases hsome
    exact (List.mem_append.mp ((hsub e (List.mem_append_left _ he)).resolve_left hgiven)).resolve_right
      hgiven
  obtain ⟨U, hperm, hsublist⟩ := hnodup.subperm hsub
  rw [Table.cost_append, Table.cost_append]
  refine Nat.add_le_add_right ?_ _
  calc Table.cost C = Table.cost U := (hperm.map Entry.cost).sum_eq.symm
    _ ≤ Table.cost D := (hsublist.map Entry.cost).sum_le_sum fun _ _ => Nat.zero_le _

/-- A run of a job on a machine at rest, as a derivation from the table that the run leaves behind. -/
theorem exists_comes (hT : Covers p m₀ R T) {pos : Position} (hj : j.Within R)
    (h : Leads p (j.go p { m₀ with pos } []) (ending o) m) :
    ∃ S w', Settled p m₀ S ∧ Comes p False ({ m₀ with pos }.under S) j o w' ∧
      w'.trace = m.trace ∧ m.steps = w'.steps + S.cost := by
  obtain ⟨o', S, m', k, hu, hleads⟩ :=
    exists_unwinds hT (hT.lags hT.settled pos) hT.active hj (ending_ne_defect o) h
  obtain ⟨hr, rfl⟩ := hleads.unique (leads_handOn p m' o')
  cases ending_injective hr
  obtain ⟨w', hcomes, htrace, -, hsteps⟩ := hu.warm ({ m₀ with pos }.under S) ⟨rfl, .refl _⟩ rfl rfl rfl
  have hsteps' := hu.steps
  have hunder : (({ m₀ with pos } : Machine).under S).steps = m₀.steps := rfl
  have hpos : ({ m₀ with pos } : Machine).steps = m₀.steps := rfl
  rw [Table.cost_given] at hsteps'
  exact ⟨S, w', hu.ahead.lags.settled, hcomes, htrace, by omega⟩

/-- A derivation from a settled table, as a run on a machine at rest. -/
theorem Comes.leads {quiet : Prop} {w w' : Machine} (h : Comes p quiet w j o w') (hm : AtRest m₀)
    (hT : Settled p m₀ T) (hsize : w.size = m₀.size) (htops : w.tops = T.tops) (hactive : w.active = [])
    {pos : Position} (htrace : w.trace = m₀.trace) (hpos : w.pos = pos) :
    ∃ m, Leads p (j.go p { m₀ with pos } []) (ending o) m ∧ m.trace = w'.trace ∧
      m.steps + w.steps ≤ w'.steps + m₀.steps + T.cost := by
  obtain ⟨S, m, k, hahead, hk, htrace', -, hsteps, hreach, -⟩ :=
    plays hT h hsize htops hactive (hm.lags hT pos) htrace.symm hpos.symm
  have hcost := hahead.lags.settled.cost_le hT hahead.source
  have hsame : ({ m₀ with pos } : Machine).steps = m₀.steps := rfl
  rw [Table.cost_given] at hsteps
  exact ⟨m, (leads_handOn p m o).of_reaches (hreach []), htrace', by omega⟩

end Blocks

end Mil.Machine
