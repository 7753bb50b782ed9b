import Mil.Proofs.Machine.Evaluate

/-!
The history of a machine, one small transition after the other, over any number of calls. A call that
fails gives up what it was doing frame by frame, and with each top-level definition on the way the mark
that it is being computed. Nothing else removes the marks when a call fails, and no call removes them
when it starts. What a run comes to is reached by such transitions.
-/

namespace Mil.Machine

/-- What a machine is doing: it counts a tail, performs one, enters a body, hands values on, gives up
what remains to be done, or has ended its last call. -/
inductive Doing
  | count (t : Option Tail) (env : Locals) (stack : List Frame)
  | perform (t : Tail) (env : Locals) (stack : List Frame)
  | body (c : Option Code) (env : Locals) (stack : List Frame)
  | hand (vals : List Value) (stack : List Frame)
  | unwind (h : Halt) (stack : List Frame)
  | ended (r : Except Halt (List Value))

/-- The values of a top-level definition are to be computed, or the call fails. -/
def stalled (m : Machine) (s : Stall) (resume : Option Resume) (stack : List Frame) :
    Doing × Machine :=
  match s with
  | .halt h => (.unwind h stack, m)
  | .top id pos t =>
    (.count t [] (.top id m.pos resume :: stack), { m with pos, active := id :: m.active })

/-- What remains to be done is taken up again. -/
def takeUp (vals : List Value) (stack : List Frame) : Option Resume → Doing
  | none => .hand vals stack
  | some (.code c env) => .body (some c) env stack
  | some (.operation t env) => .perform t env stack

/-- One transition. -/
def advance (p : Program) : Doing × Machine → Doing × Machine
  | (.count t env stack, m) =>
    if 0 < m.fuel ∧ m.fuel < ((m.steps + 1 : Nat) : Int) then (.unwind m.tick.outOfFuel stack, m.tick)
    else match t with
      | some t => (.perform t env stack, m.tick)
      | none => (.unwind (.defect .missingTail) stack, m.tick)
  | (.perform t env stack, m) =>
    match operate p m env t with
    | .error s => stalled m s (some (.operation t env)) stack
    | .ok (.values vals, m) => (.hand vals stack, m)
    | .ok (.body c env, m) => (.body c env stack, m)
    | .ok (.tail t env, m) => (.count t env stack, m)
  | (.body none _ stack, m) => (.unwind (.defect .missingBody) stack, m)
  | (.body (some (.bind vars t next)) env stack, m) =>
    (.count (some t) env (.bind vars next env :: stack), m)
  | (.body (some (.done t)) env stack, m) => (.count (some t) env stack, m)
  | (.body (some (.branch cond t f)) env stack, m) =>
    match chooseFlag p m env cond t f with
    | .ok call => (.count (some (.call call)) env stack, m)
    | .error s => stalled m s (some (.code (.branch cond t f) env)) stack
  | (.body (some (.case scrut alts default)) env stack, m) =>
    match chooseAlt p m env scrut alts default with
    | .ok call => (.count (some (.call call)) env stack, m)
    | .error s => stalled m s (some (.code (.case scrut alts default) env)) stack
  | (.hand vals [], m) => (.ended (.ok vals), m)
  | (.hand vals (.bind vars next env :: stack), m) =>
    if vals.length ≠ vars.length then
      (.unwind (.defect (.bindingCount vars.length vals.length)) stack, m)
    else (.body (some next) (assign env vars vals) stack, m)
  | (.hand vals (.top id saved resume :: stack), m) =>
    (takeUp vals stack resume, m.keeping id saved vals)
  | (.unwind h [], m) => (.ended (.error h), m)
  | (.unwind h (.bind _ _ _ :: stack), m) => (.unwind h stack, m)
  | (.unwind h (.top id _ _ :: stack), m) =>
    (.unwind h stack, { m with active := m.active.erase id })
  | (.ended r, m) => (.ended r, m)

/-- The start of a call. -/
def begin (p : Program) (m : Machine) (id : DefnId) (args : List Value) : Doing × Machine :=
  match p.defn (p.resolve id) with
  | .error e => (.unwind (.defect e) [], m)
  | .ok d =>
    match d.body with
    | .block b =>
      if args.length ≠ b.params.length then
        (.unwind ({ m with pos := d.pos }.fail (d.name ++ " expects " ++ toString b.params.length
          ++ " arguments, got " ++ toString args.length)) [], { m with pos := d.pos })
      else (.body b.body (assign [] b.params args) [], { m with pos := d.pos })
    | .top _ =>
      match topValues p { m with pos := d.pos } (p.resolve id) with
      | .ok vals => (.hand vals [], { m with pos := d.pos })
      | .error s => stalled { m with pos := d.pos } s none []
    | _ => (.unwind ({ m with pos := d.pos }.fail (d.name ++ " cannot be run")) [],
        { m with pos := d.pos })

/-- The top-level definition whose values are there, so that its computation is complete. -/
def Doing.completed : Doing → List DefnId
  | .hand _ (.top id _ _ :: _) => [id]
  | _ => []

/-- From one moment to a later one. The top-level definitions whose computation has been completed in
between are listed in their order. A run without fuel is given up after a large number of steps. -/
inductive Goes (p : Program) (x : Doing × Machine) : List DefnId → Doing × Machine → Prop
  | refl : Goes p x [] x
  | advance {log : List DefnId} {y : Doing × Machine} (h : Goes p x log y) :
      Goes p x (log ++ y.1.completed) (advance p y)
  | giveUp {log : List DefnId} {t : Option Tail} {env : Locals} {stack : List Frame} {m : Machine}
      (h : Goes p x log (.count t env stack, m)) : Goes p x log (.unwind m.outOfFuel stack, m)
  | call {log : List DefnId} {r : Except Halt (List Value)} {m : Machine}
      (h : Goes p x log (.ended r, m)) (id : DefnId) (args : List Value) :
      Goes p x log (begin p { m with printed := [] } id args)

/-- From one moment to a later one of the same call. -/
inductive Proceeds (p : Program) (x : Doing × Machine) : List DefnId → Doing × Machine → Prop
  | refl : Proceeds p x [] x
  | advance {log : List DefnId} {y : Doing × Machine} (h : Proceeds p x log y) :
      Proceeds p x (log ++ y.1.completed) (advance p y)
  | giveUp {log : List DefnId} {t : Option Tail} {env : Locals} {stack : List Frame} {m : Machine}
      (h : Proceeds p x log (.count t env stack, m)) : Proceeds p x log (.unwind m.outOfFuel stack, m)

section Goes

variable {p : Program} {x y z : Doing × Machine}

theorem Goes.trans {l l' : List DefnId} (h : Goes p x l y) (h' : Goes p y l' z) :
    Goes p x (l ++ l') z := by
  induction h' with
  | refl => rwa [List.append_nil]
  | advance _ ih =>
      rw [← List.append_assoc]
      exact .advance ih
  | giveUp _ ih => exact .giveUp ih
  | call _ id args ih => exact .call ih id args

theorem Proceeds.goes {l : List DefnId} (h : Proceeds p x l y) : Goes p x l y := by
  induction h with
  | refl => exact .refl
  | advance _ ih => exact .advance ih
  | giveUp _ ih => exact .giveUp ih

theorem Proceeds.trans {l l' : List DefnId} (h : Proceeds p x l y) (h' : Proceeds p y l' z) :
    Proceeds p x (l ++ l') z := by
  induction h' with
  | refl => rwa [List.append_nil]
  | advance _ ih =>
      rw [← List.append_assoc]
      exact .advance ih
  | giveUp _ ih => exact .giveUp ih

theorem Proceeds.head {l : List DefnId} (h : Proceeds p (Machine.advance p x) l y) :
    Proceeds p x (x.1.completed ++ l) y :=
  (Proceeds.advance .refl).trans h

/-! ### Runs are histories -/

/-- What comes next in a run, as what the machine is doing. A run that ends at once has not given up
what remained to be done. -/
inductive Shows : Next → Doing → Prop
  | tail (t : Option Tail) (env : Locals) (stack : List Frame) :
      Shows (.tail t env stack) (.count t env stack)
  | finish (vals : List Value) : Shows (.finish vals) (.ended (.ok vals))
  | halt (h : Halt) (stack : List Frame) : Shows (.halt h) (.unwind h stack)

/-- A transition of a run is reached from a moment. -/
def Arrives (p : Program) (x : Doing × Machine) (c : Next × Machine) : Prop :=
  ∃ log d, Proceeds p x log (d, c.2) ∧ Shows c.1 d

theorem Arrives.head {c : Next × Machine} (h : Arrives p (Machine.advance p x) c) :
    Arrives p x c := by
  obtain ⟨log, d, hproceeds, hshows⟩ := h
  exact ⟨_, d, hproceeds.head, hshows⟩

theorem arrives_stalled (m : Machine) (s : Stall) (resume : Option Resume) (stack : List Frame) :
    Arrives p (stalled m s resume stack) (onStall m s resume stack) := by
  cases s with
  | halt h => exact ⟨[], _, .refl, .halt h stack⟩
  | top id pos t => exact ⟨[], _, .refl, .tail _ _ _⟩

theorem arrives_enterCode (m : Machine) (c : Code) (env : Locals) (stack : List Frame) :
    Arrives p (.body (some c) env stack, m) (enterCode p m c env stack) := by
  apply Arrives.head
  cases c with
  | bind vars t next => exact ⟨[], _, .refl, .tail _ _ _⟩
  | done t => exact ⟨[], _, .refl, .tail _ _ _⟩
  | branch cond t f =>
      unfold enterCode advance
      dsimp only
      cases chooseFlag p m env cond t f with
      | ok call => exact ⟨[], _, .refl, .tail _ _ _⟩
      | error s => exact arrives_stalled _ _ _ _
  | case scrut alts default =>
      unfold enterCode advance
      dsimp only
      cases chooseAlt p m env scrut alts default with
      | ok call => exact ⟨[], _, .refl, .tail _ _ _⟩
      | error s => exact arrives_stalled _ _ _ _

theorem arrives_enterBody (m : Machine) (c : Option Code) (env : Locals) (stack : List Frame) :
    Arrives p (.body c env stack, m) (enterBody p m c env stack) := by
  cases c with
  | none => exact Arrives.head ⟨[], _, .refl, .halt _ stack⟩
  | some c => exact arrives_enterCode m c env stack

/-- A tail is performed, provided that what waits for its values takes them on. -/
theorem arrives_perform_of {stack : List Frame}
    (hdeliver : ∀ m vals, Arrives p (.hand vals stack, m) (deliver p stack m vals)) (m : Machine)
    (t : Tail) (env : Locals) : Arrives p (.perform t env stack, m) (perform p m t env stack) := by
  apply Arrives.head
  unfold perform advance
  dsimp only
  cases operate p m env t with
  | error s => exact arrives_stalled _ _ _ _
  | ok r =>
      obtain ⟨e, m₁⟩ := r
      cases e with
      | values vals => exact hdeliver m₁ vals
      | body c env => exact arrives_enterBody m₁ c env stack
      | tail t env => exact ⟨[], _, .refl, .tail _ _ _⟩

theorem arrives_deliver (stack : List Frame) (m : Machine) (vals : List Value) :
    Arrives p (.hand vals stack, m) (deliver p stack m vals) := by
  induction stack generalizing m vals with
  | nil => exact Arrives.head ⟨[], _, .refl, .finish vals⟩
  | cons frame stack ih =>
      apply Arrives.head
      cases frame with
      | bind vars next env =>
          unfold deliver advance
          dsimp only
          split
          · exact ⟨[], _, .refl, .halt _ stack⟩
          · exact arrives_enterCode _ _ _ _
      | top id saved resume =>
          cases resume with
          | none => exact ih _ _
          | some resume =>
              cases resume with
              | code c env => exact arrives_enterCode _ _ _ _
              | operation t env => exact arrives_perform_of ih _ t env

theorem arrives_step (m : Machine) (t : Option Tail) (env : Locals) (stack : List Frame) :
    Arrives p (.count t env stack, m) (step p m t env stack) := by
  apply Arrives.head
  unfold step advance
  dsimp only
  split
  · exact ⟨[], _, .refl, .halt _ stack⟩
  · cases t with
    | some t => exact arrives_perform_of (arrives_deliver stack) m.tick t env
    | none => exact ⟨[], _, .refl, .halt _ stack⟩

theorem arrives_start (m : Machine) (id : DefnId) (args : List Value) :
    Arrives p (begin p m id args) (start p m id args) := by
  unfold start begin
  dsimp only
  cases p.defn (p.resolve id) with
  | error e => exact ⟨[], _, .refl, .halt _ []⟩
  | ok d =>
      dsimp only
      cases d.body with
      | block b =>
          dsimp only
          split
          · exact ⟨[], _, .refl, .halt _ []⟩
          · exact arrives_enterBody _ _ _ _
      | top t =>
          dsimp only
          cases topValues p { m with pos := d.pos } (p.resolve id) with
          | ok vals => exact Arrives.head ⟨[], _, .refl, .finish vals⟩
          | error s => exact arrives_stalled _ _ _ _
      | closure k | external e => exact ⟨[], _, .refl, .halt _ []⟩

/-- The top-level definitions that are being computed, the innermost first. -/
def evaluating : List Frame → List DefnId
  | [] => []
  | .bind _ _ _ :: stack => evaluating stack
  | .top id _ _ :: stack => id :: evaluating stack

/-- A call that fails takes the marks away from all that it was computing, and does nothing else. -/
theorem proceeds_unwind (h : Halt) (stack : List Frame) (m : Machine) :
    Proceeds p (.unwind h stack, m) [] (.ended (.error h),
      { m with active := (evaluating stack).foldl List.erase m.active }) := by
  induction stack generalizing m with
  | nil => exact .advance .refl
  | cons frame stack ih =>
      cases frame with
      | bind vars next env => exact Proceeds.head (ih m)
      | top id saved resume => exact Proceeds.head (ih { m with active := m.active.erase id })

theorem proceeds_loop {c : Next} {d : Doing} (hd : Shows c d) (n : Nat) (m : Machine) :
    ∃ log m', Proceeds p (d, m) log (.ended (loop p n c m).1, m') ∧
      { m' with active := [] } = { (loop p n c m).2 with active := [] } := by
  induction n generalizing c d m with
  | zero =>
      cases hd with
      | tail t env stack =>
          exact ⟨[], _, (Proceeds.giveUp .refl).trans (proceeds_unwind _ stack m), rfl⟩
      | finish vals => exact ⟨[], m, .refl, rfl⟩
      | halt h stack => exact ⟨[], _, proceeds_unwind h stack m, rfl⟩
  | succ n ih =>
      cases hd with
      | tail t env stack =>
          obtain ⟨log, d', hstep, hshows⟩ := arrives_step (p := p) m t env stack
          obtain ⟨log', m', hrest, heq⟩ := ih hshows (step p m t env stack).2
          exact ⟨log ++ log', m', hstep.trans hrest, heq⟩
      | finish vals => exact ⟨[], m, .refl, rfl⟩
      | halt h stack => exact ⟨[], _, proceeds_unwind h stack m, rfl⟩

/-- A call on a machine that computes nothing comes to what the run comes to, but for the marks. -/
theorem proceeds_run {m : Machine} (hactive : m.active = []) (id : DefnId) (args : List Value) :
    ∃ log m', Proceeds p (begin p { m with printed := [] } id args) log
        (.ended (run p m id args).1, m') ∧ { m' with active := [] } = (run p m id args).2 := by
  have hclear : { m with printed := [], active := [] } = ({ m with printed := [] } : Machine) := by
    rw [← hactive]
  obtain ⟨log, d, hstart, hshows⟩ := arrives_start (p := p) { m with printed := [] } id args
  rw [run, hclear]
  generalize start p { m with printed := [] } id args = x at hstart hshows
  obtain ⟨c, m₁⟩ := x
  obtain ⟨log', m', hloop, heq⟩ := proceeds_loop (p := p) hshows m₁.budget m₁
  exact ⟨log ++ log', m', hstart.trans hloop, heq⟩

end Goes

end Mil.Machine
