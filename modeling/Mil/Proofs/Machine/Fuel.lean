import Mil.Proofs.Machine.Ends

/-!
Two runs that differ in their fuel. No operation reads the fuel, so two machines that differ in nothing
else take the same transitions for as long as neither has used up its own. The run with less fuel is
therefore the run with more, or a beginning of it that ends for want of fuel.
-/

namespace Mil.Machine

/-- The same machine with another bound on its steps. -/
def withFuel (m : Machine) (fuel : Int) : Machine := { m with fuel }

/-- What came out beside a machine, beside the machine with another bound. -/
def refuel {α : Type} (fuel : Int) (x : α × Machine) : α × Machine := (x.1, x.2.withFuel fuel)

/-! ### Operations do not read the fuel -/

section Operations

variable {p : Program} {m : Machine} {env : Locals} (F : Int)

theorem prim_withFuel (q : Prim) (args : List Value) :
    (m.withFuel F).prim q args = refuel F <$> m.prim q args := by
  have hsame (r : Except Halt (List Value)) :
      r.map (fun vs => (vs, m.withFuel F)) = refuel F <$> r.map fun vs => (vs, m) := by
    cases r <;> rfl
  unfold prim
  split
  · exact hsame _
  · exact hsame _
  · exact hsame _
  · rfl
  · rfl
  · rfl
  · rfl
  · split
    · unfold access
      dsimp only
      split <;> rfl
    · exact hsame _

theorem enter_withFuel (fn : Atom) (args : List Atom) :
    enter p (m.withFuel F) env fn args = refuel F <$> enter p m env fn args := by
  unfold enter
  rw [map_bind]
  refine bind_congr fun v => ?_
  cases v with
  | closure id fields =>
      dsimp only
      rw [map_bind]
      refine bind_congr fun vals => ?_
      rw [map_bind]
      refine bind_congr fun k => ?_
      split
      · rfl
      · rw [map_bind]
        rfl
  | word w | flag b | data k fields => rfl

theorem operate_withFuel (t : Tail) :
    operate p (m.withFuel F) env t = refuel F <$> operate p m env t := by
  cases t with
  | enter fn args => exact enter_withFuel F fn args
  | ret args | alloc id args inst | data k args inst =>
      unfold operate
      rw [map_bind]
      rfl
  | call c =>
      unfold operate
      simp only [map_bind]
      rfl
  | prim q args inst =>
      unfold operate
      simp only [map_bind]
      refine bind_congr fun vals => ?_
      rw [prim_withFuel]
      cases m.prim q vals <;> rfl
  | sel k field arg inst =>
      unfold operate
      rw [map_bind]
      refine bind_congr fun v => ?_
      cases v with
      | data k' fields =>
          dsimp only
          cases fields[field.toNat]? <;> rfl
      | word w | flag b | closure id fields => rfl

end Operations

/-! ### Transitions do not read the fuel until it is used up -/

section Transitions

variable {p : Program} {m : Machine} {stack : List Frame} (F : Int)

theorem onStall_withFuel (s : Stall) (resume : Option Resume) (stack : List Frame) :
    onStall (m.withFuel F) s resume stack = refuel F (onStall m s resume stack) := by
  cases s <;> rfl

theorem enterCode_withFuel (c : Code) (env : Locals) (stack : List Frame) :
    enterCode p (m.withFuel F) c env stack = refuel F (enterCode p m c env stack) := by
  cases c with
  | bind vars t next => rfl
  | done t => rfl
  | branch cond t f =>
      have hsame : chooseFlag p (m.withFuel F) env cond t f = chooseFlag p m env cond t f := rfl
      unfold enterCode
      dsimp only
      rw [hsame]
      split
      · rfl
      · exact onStall_withFuel F _ _ _
  | case scrut alts default =>
      have hsame : chooseAlt p (m.withFuel F) env scrut alts default =
          chooseAlt p m env scrut alts default := rfl
      unfold enterCode
      dsimp only
      rw [hsame]
      split
      · rfl
      · exact onStall_withFuel F _ _ _

theorem enterBody_withFuel (c : Option Code) (env : Locals) (stack : List Frame) :
    enterBody p (m.withFuel F) c env stack = refuel F (enterBody p m c env stack) := by
  cases c with
  | none => rfl
  | some c => exact enterCode_withFuel F c env stack

/-- A tail is performed alike, provided that what waits for its values takes them on alike. -/
theorem perform_withFuel_of (hdeliver : ∀ m vals,
    deliver p stack (withFuel m F) vals = refuel F (deliver p stack m vals)) (m : Machine) (t : Tail)
    (env : Locals) : perform p (m.withFuel F) t env stack = refuel F (perform p m t env stack) := by
  unfold perform
  rw [operate_withFuel]
  cases operate p m env t with
  | error s => exact onStall_withFuel F s _ stack
  | ok x =>
      obtain ⟨e, m₁⟩ := x
      cases e with
      | values vals => exact hdeliver m₁ vals
      | body c env => exact enterBody_withFuel F c env stack
      | tail t env => rfl

theorem deliver_withFuel (m : Machine) (vals : List Value) :
    deliver p stack (m.withFuel F) vals = refuel F (deliver p stack m vals) := by
  induction stack generalizing m vals with
  | nil => rfl
  | cons frame stack ih =>
      cases frame with
      | bind vars next env =>
          unfold deliver
          split
          · rfl
          · exact enterCode_withFuel F _ _ _
      | top id saved resume =>
          cases resume with
          | none => exact ih (m.keeping id saved vals) vals
          | some resume =>
              cases resume with
              | code c env => exact enterCode_withFuel (m := m.keeping id saved vals) F c env stack
              | operation t env => exact perform_withFuel_of F ih (m.keeping id saved vals) t env

theorem perform_withFuel (m : Machine) (t : Tail) (env : Locals) :
    perform p (m.withFuel F) t env stack = refuel F (perform p m t env stack) :=
  perform_withFuel_of F (deliver_withFuel F) m t env

/-- A tail is counted and evaluated alike if it is within both bounds. -/
theorem step_withFuel (h : ¬ (0 < m.fuel ∧ m.fuel < ((m.steps + 1 : Nat) : Int)))
    (hF : ¬ (0 < F ∧ F < ((m.steps + 1 : Nat) : Int))) (t : Option Tail) (env : Locals) :
    step p (m.withFuel F) t env stack = refuel F (step p m t env stack) := by
  unfold step
  rw [if_neg h, if_neg (by exact hF)]
  cases t with
  | some t => exact perform_withFuel F m.tick t env
  | none => rfl

theorem start_withFuel (m : Machine) (id : DefnId) (args : List Value) :
    start p (m.withFuel F) id args = refuel F (start p m id args) := by
  unfold start
  dsimp only
  split
  · rfl
  · rename_i d _
    split
    · split
      · rfl
      · exact enterBody_withFuel (m := { m with pos := d.pos }) F _ _ _
    · have hsame : topValues p { m.withFuel F with pos := d.pos } (p.resolve id) =
          topValues p { m with pos := d.pos } (p.resolve id) := rfl
      rw [hsame]
      split
      · rfl
      · exact onStall_withFuel (m := { m with pos := d.pos }) F _ _ _
    · rfl

end Transitions

/-! ### Two runs -/

/-- A run has ended because it used up its fuel. -/
def OutOfFuel (F : Int) (r : Except Halt (List Value)) : Prop :=
  ∃ pos, r = .error (.failure ⟨pos, .runtime, "out of fuel after " ++ toString F ++ " steps"⟩)

/-- What a run with less fuel is, beside the same run with more: the same, with no more steps than its
fuel, or a beginning of it that has used up the fuel. -/
inductive Beside (F F' : Int) (short long : Except Halt (List Value) × Machine) : Prop
  | same (heq : long = refuel F' short) (hfuel : short.2.fuel = F) (hsteps : short.2.steps ≤ F)
  | short (hout : OutOfFuel F short.1) (hsteps : F < long.2.steps)
      (hprinted : short.2.printed <:+ long.2.printed)

section Runs

variable {p : Program} {m : Machine} {F F' : Int}

/-- A machine that has evaluated as many tails as its fuel allows fails at the next one. -/
theorem step_of_spent (hF : 0 < F) (hfuel : m.fuel = F) (hspent : ¬ ((m.steps + 1 : Nat) : Int) ≤ F)
    (t : Option Tail) (env : Locals) (stack : List Frame) :
    step p m t env stack = (.halt m.tick.outOfFuel, m.tick) := by
  have hout : 0 < m.fuel ∧ m.fuel < ((m.steps + 1 : Nat) : Int) := ⟨hfuel ▸ hF, by omega⟩
  unfold step
  dsimp only
  rw [if_pos hout]
  rfl

/-- Two machines that differ in their fuel, of which neither has used up its own, go on side by side.
The induction is on the steps that the machine with less fuel has left. -/
theorem loop_beside (hF : 0 < F) (hle : F ≤ F') {n n' : Nat} {c : Next} (hfuel : m.fuel = F)
    (hsteps : m.steps ≤ F) (hn : F < m.steps + n) (hn' : F' < m.steps + n') :
    Beside F F' (loop p n c m) (loop p n' c (m.withFuel F')) := by
  induction n generalizing n' c m with
  | zero => omega
  | succ n ih =>
      cases n' with
      | zero => omega
      | succ n' =>
          cases c with
          | finish vals => exact .same rfl hfuel hsteps
          | halt h => exact .same rfl hfuel hsteps
          | tail t env stack =>
              by_cases hspent : ((m.steps + 1 : Nat) : Int) ≤ F
              · have hstep := onward_step p m t env stack
                have hcount := hstep.steps
                rw [loop, loop, step_withFuel F' (by omega) (by omega)]
                generalize step p m t env stack = x at hstep hcount
                exact ih (hstep.fuel.trans hfuel) (by rw [hcount]; exact hspent) (by omega) (by omega)
              · -- only the machine with more fuel may go on from here
                have hlong := onward_step p (m.withFuel F') t env stack
                obtain ⟨k, hk⟩ := onward_loop p n' (step p (m.withFuel F') t env stack).1
                  (step p (m.withFuel F') t env stack).2
                have hall := hlong.trans hk
                have hcount := hall.steps
                have hzero : (m.withFuel F').steps = m.steps := rfl
                rw [loop, loop, step_of_spent hF hfuel hspent]
                cases n with
                | zero | succ n =>
                    refine .short ⟨m.pos, ?_⟩ (by dsimp only; omega) hall.printed
                    rw [← hfuel]
                    rfl

theorem run_of_start {id : DefnId} {args : List Value} {c : Next} {m₁ : Machine}
    (h : start p { m with printed := [], active := [] } id args = (c, m₁)) : run p m id args =
      ((loop p m₁.budget c m₁).1, { (loop p m₁.budget c m₁).2 with active := [] }) := by
  rw [run, h]

/-- A run of a machine that has not used up its fuel, beside the run with more fuel. -/
theorem run_beside (hF : 0 < F) (hle : F ≤ F') (hfuel : m.fuel = F) (hsteps : m.steps ≤ F)
    (id : DefnId) (args : List Value) :
    Beside F F' (run p m id args) (run p (m.withFuel F') id args) := by
  have honward := onward_start p { m with printed := [], active := [] } id args
  have hlong := start_withFuel (p := p) F' { m with printed := [], active := [] } id args
  rcases hshort : start p { m with printed := [], active := [] } id args with ⟨c, m₁⟩
  rw [hshort] at honward hlong
  have hfuel₁ : m₁.fuel = F := honward.fuel.trans hfuel
  have hsteps₁ : m₁.steps = m.steps := honward.steps
  have hbudget : m₁.budget = (F - m.steps).toNat + 1 := by
    rw [budget, hfuel₁, hsteps₁, if_pos hF]
  have hbudget' : (m₁.withFuel F').budget = (F' - m.steps).toNat + 1 := by
    rw [← hsteps₁]
    exact if_pos (by exact hF.trans_le hle)
  have hloop : Beside F F' (loop p m₁.budget c m₁)
      (loop p (m₁.withFuel F').budget c (m₁.withFuel F')) :=
    loop_beside hF hle hfuel₁ (by omega) (by omega) (by omega)
  rw [run_of_start hshort, run_of_start hlong]
  cases hloop with
  | same heq hf hs =>
      dsimp only [refuel]
      rw [heq]
      exact .same rfl hf hs
  | short hout hs hp => exact .short hout hs hp

/-- Fuel decides only how far a run gets. A run that does not use up its fuel is the same with more; a
run with more that does not need it is the same with less; otherwise the run with less fuel fails for
want of it, and what it has printed is the beginning of what the other one prints. -/
theorem run_fuel (p : Program) (size : Int) (id : DefnId) (args : List Value) (hF : 0 < F)
    (hle : F ≤ F') {short long : Except Halt (List Value) × Machine}
    (hshort : run p (new size F) id args = short) (hlong : run p (new size F') id args = long) :
    (¬ OutOfFuel F short.1 → long = (short.1, short.2.withFuel F')) ∧
    (long.2.steps ≤ F → short = (long.1, long.2.withFuel F)) ∧
    (¬ long.2.steps ≤ F →
      OutOfFuel F short.1 ∧ short.2.printed.reverse <+: long.2.printed.reverse) := by
  have hbeside : Beside F F' short long :=
    hshort ▸ hlong ▸ run_beside (p := p) (m := new size F) hF hle rfl (by exact hF.le) id args
  cases hbeside with
  | same heq hfuel hsteps =>
      have hback : short = (long.1, long.2.withFuel F) := by
        rw [heq, ← hfuel]
        rfl
      exact ⟨fun _ => heq, fun _ => hback, fun hmore => absurd (heq ▸ hsteps) hmore⟩
  | short hout hsteps hprinted =>
      exact ⟨fun hnot => absurd hout hnot, fun hfew => absurd hsteps (not_lt.mpr hfew),
        fun _ => ⟨hout, List.reverse_prefix.mpr hprinted⟩⟩

end Runs

/-- A program whose block prints its argument and goes on with the next number. -/
def countUp : Program :=
  { Program.empty with
    defns := #[{ Defn.new "count" .unknown (.block (.new [0] (some
      (.bind [] (.prim (.builtin .printWord) [.temp 0] none)
        (.bind [1] (.prim (.builtin .add) [.temp 0, .word 1] none)
          (.done (.call ⟨0, [.temp 1], none⟩))))))) with entry := true }]
    entries := [0] }

theorem run_fuel_countUp : (0 : Int) < 4 ∧ (4 : Int) ≤ 8 ∧
    OutOfFuel 4 (run countUp (new 64 4) 0 [.word 1]).1 ∧
    (run countUp (new 64 4) 0 [.word 1]).2.printed.reverse <+:
      (run countUp (new 64 8) 0 [.word 1]).2.printed.reverse ∧
    (run countUp (new 64 4) 0 [.word 1]).2.printed.reverse = [1, 2] ∧
    (run countUp (new 64 8) 0 [.word 1]).2.printed.reverse = [1, 2, 3] := by
  have hmore : (run countUp (new 64 8) 0 [.word 1]).2.steps = 9 := by rfl
  have hfour : (0 : Int) < 4 := by decide
  have height : (4 : Int) ≤ 8 := by decide
  have hends := (run_fuel countUp 64 0 [.word 1] hfour height rfl rfl).2.2 (by rw [hmore]; decide)
  exact ⟨hfour, height, hends.1, hends.2, by rfl, by rfl⟩

end Mil.Machine
