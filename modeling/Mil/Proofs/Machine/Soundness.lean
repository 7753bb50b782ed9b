import Mil.Proofs.Machine.Evaluate
import Mil.Proofs.Machine.Operate

/-!
Whole runs on values of the right types. The frames that wait for values are read at a set of types:
the values that come back to them have all of these types at once, because the tail of a polymorphic
top-level definition is evaluated once, for all its uses. A run of a block then gives values of its
result type or ends for an excused reason, as long as no operation of it strays.
-/

namespace Mil.Machine

/-! ### Straying runs -/

/-- Does an operation that is taken up again stray while values are handed on? -/
def deliverStrays (p : Program) : List Frame → Machine → List Value → Bool
  | [], _, _ => false
  | .bind _ _ _ :: _, _, _ => false
  | .top id saved resume :: stack, m, vals =>
    let m := { m with
      pos := saved, tops := (id, vals) :: m.tops, active := m.active.erase id }
    match resume with
    | none => deliverStrays p stack m vals
    | some (.code _ _) => false
    | some (.operation t env) =>
      strays p m env t ||
        match operate p m env t with
        | .ok (.values vals, m) => deliverStrays p stack m vals
        | _ => false

/-- Does a tail stray, or what is taken up again after it? -/
def performStrays (p : Program) (m : Machine) (t : Tail) (env : Locals) (stack : List Frame) : Bool :=
  strays p m env t ||
    match operate p m env t with
    | .ok (.values vals, m) => deliverStrays p stack m vals
    | _ => false

/-- Does an operation of a step stray? -/
def stepStrays (p : Program) (m : Machine) (t : Option Tail) (env : Locals) (stack : List Frame) :
    Bool :=
  let m := { m with steps := m.steps + 1 }
  if 0 < m.fuel ∧ m.fuel < m.steps then false
  else
    match t with
    | some t => performStrays p m t env stack
    | none => false

/-- Does an operation of the rest of a run stray? -/
def loopStrays (p : Program) : Nat → Next → Machine → Bool
  | _, .finish _, _ => false
  | _, .halt _, _ => false
  | 0, .tail _ _ _, _ => false
  | budget + 1, .tail t env stack, m =>
    let (next, m') := step p m t env stack
    stepStrays p m t env stack || loopStrays p budget next m'

/-- Does an operation of a run stray? -/
def runStrays (p : Program) (m : Machine) (id : DefnId) (args : List Value) : Bool :=
  let m := { m with printed := [], active := [] }
  let (next, m) := start p m id args
  loopStrays p m.budget next m

/-! ### Frames -/

/-- What waits for a top-level value has a type. -/
def ResumeOk (p : Program) (W : World) (τ : Ty) : Resume → Prop
  | .operation t env => TailOk p W τ t env
  | .code c env => CodeOk p W τ c env

/-- A body that waits for values of some types. -/
def BindOk (p : Program) (W : World) (τs : List Ty) (τ : Ty) (vars : List Temp) (next : Code)
    (env : Locals) : Prop :=
  vars.length = τs.length ∧
    ∃ L : LocalTypes, LocalsHave p.env W L env ∧ CodeTyped p.env W (L.bind vars τs) next τ

/-- Frames that lead from values of all the types of a set to values of the type `ρ`. -/
inductive StackOk (p : Program) (W : World) (ρ : Ty) : (Ty → Prop) → List Frame → Prop
  | nil {T : Ty → Prop} (hρ : T ρ) : StackOk p W ρ T []
  | bind {T T' : Ty → Prop} {vars : List Temp} {next : Code} {env : Locals} {stack : List Frame}
      (hbind : ∀ τ, T' τ → ∃ τs, T (.tuple τs) ∧ BindOk p W τs τ vars next env)
      (hstack : StackOk p W ρ T' stack) : StackOk p W ρ T (.bind vars next env :: stack)
  | top {T T' : Ty → Prop} {id : DefnId} {saved : Position} {resume : Resume} {stack : List Frame}
      (hsome : ∃ τs, W.tops id τs) (htops : ∀ τs, W.tops id τs → T (.tuple τs))
      (hresume : ∀ τ, T' τ → ResumeOk p W τ resume) (hstack : StackOk p W ρ T' stack) :
      StackOk p W ρ T (.top id saved (some resume) :: stack)

/-- What comes next leads to values of the type `ρ`. -/
def NextOk (p : Program) (W : World) (ρ : Ty) : Next → Prop
  | .tail t env stack => ∃ T tail, t = some tail ∧ (∀ τ, T τ → TailOk p W τ tail env) ∧
      StackOk p W ρ T stack
  | .finish vals => ValuesHave p W ρ vals
  | .halt h => Halt.Excused h

/-- A state of a run that leads to values of the type `ρ`. -/
def StateOk (p : Program) (W : World) (ρ : Ty) (s : Next × Machine) : Prop :=
  NextOk p W ρ s.1 ∧ MachineOk p W s.2

section Frames

variable {p : Program} {W : World} {m : Machine} {ρ : Ty} {T : Ty → Prop} {stack : List Frame}
  {env : Locals}

theorem StackOk.exists_type (h : StackOk p W ρ T stack) : ∃ τ, T τ := by
  induction h with
  | nil hρ => exact ⟨ρ, hρ⟩
  | bind hbind _ ih =>
      obtain ⟨τ, hτ⟩ := ih
      obtain ⟨τs, hτs, -⟩ := hbind τ hτ
      exact ⟨_, hτs⟩
  | top hsome htops _ _ _ =>
      obtain ⟨τs, hτs⟩ := hsome
      exact ⟨_, htops τs hτs⟩

theorem onStall_ok (hm : MachineOk p W m) {s : Stall} {resume : Resume} (hs : StallOk p W s)
    (hresume : ∀ τ, T τ → ResumeOk p W τ resume) (hstack : StackOk p W ρ T stack) :
    StateOk p W ρ (onStall m s (some resume) stack) := by
  cases s with
  | halt h => exact ⟨hs, hm⟩
  | top id pos t =>
      obtain ⟨hsome, tail, rfl, htyped⟩ := hs
      refine ⟨⟨fun τ => ∃ τs, τ = .tuple τs ∧ W.tops id τs, tail, rfl, ?_, ?_⟩, hm.congr rfl rfl⟩
      · rintro τ ⟨τs, rfl, hτs⟩
        exact ⟨[], .nil [], htyped τs hτs⟩
      · exact .top hsome (fun τs hτs => ⟨τs, rfl, hτs⟩) hresume hstack

/-- The call that a branch makes has every type of the branch. -/
theorem choice_ok (hm : MachineOk p W m) {c : Code} {r : Except Stall BlockCall}
    (hc : ∀ τ, T τ → CodeOk p W τ c env) (hstack : StackOk p W ρ T stack) :
    (∀ τ, T τ → Settles p W (fun call => TailOk p W τ (.call call) env) r) →
    StateOk p W ρ (match r with
      | .ok call => (.tail (some (.call call)) env stack, m)
      | .error s => onStall m s (some (.code c env)) stack) := by
  intro hr
  cases r with
  | error s =>
      obtain ⟨τ, hτ⟩ := hstack.exists_type
      exact onStall_ok hm (hr τ hτ) hc hstack
  | ok call => exact ⟨⟨T, _, rfl, hr, hstack⟩, hm⟩

theorem enterCode_ok (hs : Setting p W) (hm : MachineOk p W m) {c : Code}
    (hc : ∀ τ, T τ → CodeOk p W τ c env) (hstack : StackOk p W ρ T stack) :
    StateOk p W ρ (enterCode p m c env stack) := by
  cases c with
  | bind vars t next =>
      -- the tail has every type at which the rest of the body can take its values
      refine ⟨⟨fun σ => TailOk p W σ t env, t, rfl, fun _ h => h, .bind ?_ hstack⟩, hm⟩
      intro τ hτ
      obtain ⟨L, hL, hcode⟩ := hc τ hτ
      cases hcode with
      | bind htail hlen hnext => exact ⟨_, ⟨L, hL, htail⟩, hlen, L, hL, hnext⟩
  | done t =>
      refine ⟨⟨T, t, rfl, fun τ hτ => ?_, hstack⟩, hm⟩
      obtain ⟨L, hL, hcode⟩ := hc τ hτ
      cases hcode with
      | done htail => exact ⟨L, hL, htail⟩
  | branch cond t f =>
      have hchoose : ∀ τ, T τ → Settles p W (fun call => TailOk p W τ (.call call) env)
          (chooseFlag p m env cond t f) := by
        intro τ hτ
        obtain ⟨L, hL, hcode⟩ := hc τ hτ
        cases hcode with
        | branch hcond ht hf =>
            exact (chooseFlag_ok hs hm hL hcond ht hf).imp fun call hcall => ⟨L, hL, .call hcall⟩
      exact choice_ok hm hc hstack hchoose
  | case scrut alts default =>
      have hchoose : ∀ τ, T τ → Settles p W (fun call => TailOk p W τ (.call call) env)
          (chooseAlt p m env scrut alts default) := by
        intro τ hτ
        obtain ⟨L, hL, hcode⟩ := hc τ hτ
        cases hcode with
        | case hscrut hdata halts hdefault =>
            exact (chooseAlt_ok hs hm hL hscrut hdata halts hdefault).imp
              fun call hcall => ⟨L, hL, .call hcall⟩
      exact choice_ok hm hc hstack hchoose

theorem enterBody_ok (hs : Setting p W) (hm : MachineOk p W m) {c : Option Code}
    (hc : ∀ τ, T τ → ∃ code, c = some code ∧ CodeOk p W τ code env)
    (hstack : StackOk p W ρ T stack) : StateOk p W ρ (enterBody p m c env stack) := by
  obtain ⟨τ₀, hτ₀⟩ := hstack.exists_type
  obtain ⟨code, rfl, -⟩ := hc τ₀ hτ₀
  refine enterCode_ok hs hm (fun τ hτ => ?_) hstack
  obtain ⟨code', hcode', hok⟩ := hc τ hτ
  cases hcode'
  exact hok

/-- What an operation comes to is handed on, if `d` hands on values. -/
theorem outcome_ok (hs : Setting p W) (hm : MachineOk p W m) {t : Tail}
    {d : Machine → List Value → Next × Machine} (ht : ∀ τ, T τ → TailOk p W τ t env)
    (hstray : strays p m env t = false) (hstack : StackOk p W ρ T stack)
    (hd : ∀ vals m', operate p m env t = .ok (.values vals, m') → MachineOk p W m' →
      (∀ τ, T τ → ValuesHave p W τ vals) → StateOk p W ρ (d m' vals)) :
    StateOk p W ρ (match operate p m env t with
      | .error s => onStall m s (some (.operation t env)) stack
      | .ok (.values vals, m) => d m vals
      | .ok (.body c env, m) => enterBody p m c env stack
      | .ok (.tail t env, m) => (.tail t env stack, m)) := by
  obtain ⟨τ₀, hτ₀⟩ := hstack.exists_type
  have hall := fun τ hτ => operate_ok hs hm (ht τ hτ) hstray
  cases hr : operate p m env t with
  | error s =>
      have hstall := hall τ₀ hτ₀
      rw [hr] at hstall
      exact onStall_ok hm hstall ht hstack
  | ok r =>
      obtain ⟨effect, m'⟩ := r
      rw [hr] at hall
      have hm' : MachineOk p W m' := (hall τ₀ hτ₀).2
      cases effect with
      | values vals => exact hd vals m' hr hm' fun τ hτ => (hall τ hτ).1
      | body c env' => exact enterBody_ok hs hm' (fun τ hτ => (hall τ hτ).1) hstack
      | tail t' env' =>
          obtain ⟨tail, rfl, -⟩ := (hall τ₀ hτ₀).1
          refine ⟨⟨T, tail, rfl, fun τ hτ => ?_, hstack⟩, hm'⟩
          obtain ⟨tail', htail', hok⟩ := (hall τ hτ).1
          cases htail'
          exact hok

/-- A computed top-level value is kept. -/
theorem MachineOk.keep {id : DefnId} {vals : List Value} (hm : MachineOk p W m)
    (hvals : ∀ τs, W.tops id τs → List.Forall₂ (ValueHas p.env W) vals τs) (saved : Position)
    (active : List DefnId) :
    MachineOk p W { m with pos := saved, tops := (id, vals) :: m.tops, active := active } := by
  refine ⟨hm.size, fun {id' vals'} hl => ?_⟩
  change ((id, vals) :: m.tops).lookup id' = some vals' at hl
  rw [List.lookup_cons] at hl
  split at hl
  · rename_i heq
    obtain rfl := eq_of_beq heq
    cases hl
    exact hvals
  · exact hm.tops hl

theorem deliver_ok (hs : Setting p W) (hm : MachineOk p W m) {vals : List Value}
    (hstack : StackOk p W ρ T stack) (hvals : ∀ τ, T τ → ValuesHave p W τ vals)
    (hstray : deliverStrays p stack m vals = false) : StateOk p W ρ (deliver p stack m vals) := by
  induction hstack generalizing m vals with
  | nil hρ => exact ⟨hvals ρ hρ, hm⟩
  | @bind T T' vars next env stack hbind hstack ih =>
      have hcode : ∀ τ, T' τ → vals.length = vars.length ∧
          CodeOk p W τ next (assign env vars vals) := by
        intro τ hτ
        obtain ⟨τs, hτs, hlen, L, hL, hnext⟩ := hbind τ hτ
        obtain ⟨τs', heq, hhave⟩ := hvals _ hτs
        cases heq
        exact ⟨hhave.length_eq.trans hlen.symm, _, hL.assign hhave, hnext⟩
      obtain ⟨τ₀, hτ₀⟩ := hstack.exists_type
      unfold deliver
      rw [if_neg (not_not.mpr (hcode τ₀ hτ₀).1)]
      exact enterCode_ok hs hm (fun τ hτ => (hcode τ hτ).2) hstack
  | @top T T' id saved resume stack hsome htops hresume hstack ih =>
      have hkeep : ∀ τs, W.tops id τs → List.Forall₂ (ValueHas p.env W) vals τs := by
        intro τs hτs
        obtain ⟨τs', heq, hhave⟩ := hvals _ (htops τs hτs)
        cases heq
        exact hhave
      have hm' := hm.keep hkeep saved (m.active.erase id)
      cases resume with
      | code c env => exact enterCode_ok hs hm' hresume hstack
      | operation t env =>
          unfold deliverStrays at hstray
          dsimp only at hstray
          rw [Bool.or_eq_false_iff] at hstray
          refine outcome_ok hs hm' hresume hstray.1 hstack fun vals' m' hr hm'' hvals' => ?_
          have hrest := hstray.2
          rw [hr] at hrest
          exact ih hm'' hvals' hrest

end Frames

/-! ### Runs -/

section Runs

variable {p : Program} {W : World} {m : Machine} {ρ : Ty}

theorem perform_ok (hs : Setting p W) (hm : MachineOk p W m) {T : Ty → Prop} {t : Tail}
    {env : Locals} {stack : List Frame} (ht : ∀ τ, T τ → TailOk p W τ t env)
    (hstack : StackOk p W ρ T stack) (hstray : performStrays p m t env stack = false) :
    StateOk p W ρ (perform p m t env stack) := by
  unfold performStrays at hstray
  rw [Bool.or_eq_false_iff] at hstray
  refine outcome_ok hs hm ht hstray.1 hstack fun vals m' hr hm' hvals => ?_
  have hrest := hstray.2
  rw [hr] at hrest
  exact deliver_ok hs hm' hstack hvals hrest

theorem step_ok (hs : Setting p W) (hm : MachineOk p W m) {t : Option Tail} {env : Locals}
    {stack : List Frame} (ht : NextOk p W ρ (.tail t env stack))
    (hstray : stepStrays p m t env stack = false) : StateOk p W ρ (step p m t env stack) := by
  obtain ⟨T, tail, rfl, htail, hstack⟩ := ht
  have hm' : MachineOk p W { m with steps := m.steps + 1 } := hm.congr rfl rfl
  unfold step
  unfold stepStrays at hstray
  dsimp only at hstray ⊢
  split
  · exact ⟨excused_fail _ (.fuel _), hm'⟩
  · rename_i hfuel
    rw [if_neg hfuel] at hstray
    exact perform_ok hs hm' htail hstack hstray

/-- A run gives values of a type, or ends for an excused reason. -/
def OutcomeOk (p : Program) (W : World) (ρ : Ty) : Except Halt (List Value) → Prop
  | .ok vals => ValuesHave p W ρ vals
  | .error h => Halt.Excused h

theorem loop_ok (hs : Setting p W) (hm : MachineOk p W m) {budget : Nat} {next : Next}
    (hnext : NextOk p W ρ next) (hstray : loopStrays p budget next m = false) :
    OutcomeOk p W ρ (loop p budget next m).1 ∧ MachineOk p W (loop p budget next m).2 := by
  induction budget generalizing next m with
  | zero =>
      cases next with
      | finish vals => exact ⟨hnext, hm⟩
      | halt h => exact ⟨hnext, hm⟩
      | tail t env stack => exact ⟨excused_fail m (.fuel _), hm⟩
  | succ budget ih =>
      cases next with
      | finish vals => exact ⟨hnext, hm⟩
      | halt h => exact ⟨hnext, hm⟩
      | tail t env stack =>
          unfold loopStrays at hstray
          dsimp only at hstray
          rw [Bool.or_eq_false_iff] at hstray
          obtain ⟨hnext', hm'⟩ := step_ok hs hm hnext hstray.1
          exact ih hm' hnext' hstray.2

/-- A run of a block on values of the types of its parameters, if no operation strays. -/
theorem run_ok (hs : Setting p W) (hm : MachineOk p W m) {id : DefnId} {τs : List Ty}
    (hblock : W.block id τs ρ) {args : List Value}
    (hargs : List.Forall₂ (ValueHas p.env W) args τs) (hstray : runStrays p m id args = false) :
    OutcomeOk p W ρ (run p m id args).1 ∧ MachineOk p W (run p m id args).2 := by
  obtain ⟨d, b, code, hd, hbody, hcode, hlen, htyped⟩ := hs.coherent.block hblock
  have hstart : StateOk p W ρ (start p { m with printed := [], active := [] } id args) := by
    have hm' : MachineOk p W { m with printed := [], active := [], pos := d.pos } :=
      hm.congr rfl rfl
    have hfit : ¬ args.length ≠ b.params.length := by
      rw [hargs.length_eq, hlen]
      simp
    unfold start
    dsimp only
    rw [hs.resolve, defn_eq hd]
    dsimp only
    rw [hbody]
    dsimp only
    rw [if_neg hfit, hcode]
    refine enterCode_ok hs hm' (T := fun τ => τ = ρ) ?_ (.nil rfl)
    rintro τ rfl
    exact ⟨_, (LocalsHave.nil []).assign hargs, htyped⟩
  obtain ⟨hnext, hm'⟩ := hstart
  obtain ⟨hout, hm''⟩ := loop_ok hs hm' hnext hstray
  exact ⟨hout, hm''.congr rfl rfl⟩

end Runs

end Mil.Machine

/-!
Derivations of runs in which no selection strays: every field is selected from a value of the
constructor that the selection names.
-/

namespace Mil.Machine

/-- A job whose operation does not stray. -/
def Job.Straight (p : Program) (m : Machine) : Job → Prop
  | .tail t env => strays p m env t = false
  | .code _ _ => True

/-- A job comes to values, and none of its operations strays. -/
inductive Works (p : Program) : Machine → Job → List Value → Machine → Prop
  | values {m m' : Machine} {j : Job} {vals : List Value} (hstraight : j.Straight p m)
      (hmove : j.move p m = .ok (.values vals, m')) : Works p m j vals m'
  | job {m m₁ m' : Machine} {j j' : Job} {vals : List Value} (hstraight : j.Straight p m)
      (hmove : j.move p m = .ok (.job j', m₁)) (hrest : Works p (m₁.taking j') j' vals m') :
      Works p m j vals m'
  | bind {m m₁ m₂ m' : Machine} {j : Job} {vars : List Temp} {t : Tail} {env : Locals} {next : Code}
      {vs vals : List Value} (hmove : j.move p m = .ok (.bind vars t env next, m₁))
      (htail : Works p m₁.tick (.tail t env) vs m₂) (hlen : vs.length = vars.length)
      (hnext : Works p m₂ (.code next (assign env vars vs)) vals m') : Works p m j vals m'
  | stall {m m₁ m' : Machine} {j : Job} {id : DefnId} {pos : Position} {t : Tail}
      {vs vals : List Value} (hmove : j.move p m = .error (.top id pos (some t)))
      (htop : Works p (m.opening id pos) (.tail t []) vs m₁)
      (hrest : Works p (m₁.keeping id m.pos vs) j vals m') : Works p m j vals m'

/-- Does the operation of a job stray, or what is taken up again at once when its values are there? -/
def Job.goStrays (p : Program) (m : Machine) (stack : List Frame) : Job → Bool
  | .tail t env => performStrays p m t env stack
  | .code _ _ => false

section Runs

variable {p : Program} {m mf : Machine} {stack : List Frame} {vals : List Value}

theorem straight_of_goStrays {j : Job} (h : j.goStrays p m stack = false) : j.Straight p m := by
  cases j with
  | tail t env => exact (Bool.or_eq_false_iff.mp h).1
  | code c env => trivial

/-- What is taken up again when the values of an operation are there does not stray either. -/
theorem deliverStrays_of_move {j : Job} {vs : List Value} {m' : Machine}
    (h : j.goStrays p m stack = false) (hmove : j.move p m = .ok (.values vs, m')) :
    deliverStrays p stack m' vs = false := by
  cases j with
  | tail t env =>
      obtain ⟨⟨e, m₁⟩, hop, hmove⟩ := Except.bind_eq_ok.mp hmove
      obtain ⟨mv, hmv, hmove⟩ := Except.bind_eq_ok.mp hmove
      cases hmove
      have hrest := (Bool.or_eq_false_iff.mp h).2
      rw [hop] at hrest
      unfold Effect.move at hmv
      split at hmv <;> cases hmv
      exact hrest
  | code c env =>
      cases c with
      | bind vars t next => cases hmove
      | done t => cases hmove
      | branch cond t f =>
          obtain ⟨call, -, hmove⟩ := Except.bind_eq_ok.mp hmove
          cases hmove
      | case scrut alts default =>
          obtain ⟨call, -, hmove⟩ := Except.bind_eq_ok.mp hmove
          cases hmove

theorem deliverStrays_top {j : Job} {id : DefnId} {saved : Position} :
    deliverStrays p (.top id saved (some j.resume) :: stack) m vals =
      j.goStrays p (m.keeping id saved vals) stack := by
  cases j with
  | tail t env => rfl
  | code c env => rfl

/-- A tail that comes next in a run that ends with values is taken up. -/
theorem taken_straight {n : Nat} {t : Tail} {env : Locals} (hfuel : m.fuel ≤ 0)
    (hloop : loop p n (.tail (some t) env stack) m = (.ok vals, mf))
    (hstray : loopStrays p n (.tail (some t) env stack) m = false) :
    ∃ k, n = k + 1 ∧ Job.goStrays p m.tick stack (.tail t env) = false ∧
      loop p k (Job.go p m.tick stack (.tail t env)).1 (Job.go p m.tick stack (.tail t env)).2 =
        (.ok vals, mf) ∧
      loopStrays p k (Job.go p m.tick stack (.tail t env)).1
        (Job.go p m.tick stack (.tail t env)).2 = false := by
  cases n with
  | zero => cases hloop
  | succ k =>
      have hnot : ¬ (0 < m.fuel ∧ m.fuel < ((m.steps + 1 : Nat) : Int)) := by omega
      rw [loop] at hloop
      rw [loopStrays] at hstray
      dsimp only at hstray
      obtain ⟨hstep, hstray⟩ := Bool.or_eq_false_iff.mp hstray
      rw [step_some hfuel] at hloop hstray
      rw [stepStrays] at hstep
      dsimp only at hstep
      rw [if_neg hnot] at hstep
      exact ⟨k, rfl, hstep, hloop, hstray⟩

/-- A run without fuel that ends with values and does not stray begins with a derivation of its
job. -/
theorem works_of_loop {n : Nat} {m mf : Machine} {j : Job} {stack : List Frame} {vals : List Value}
    (hfuel : m.fuel ≤ 0) (hgo : j.goStrays p m stack = false)
    (hloop : loop p n (j.go p m stack).1 (j.go p m stack).2 = (.ok vals, mf))
    (hstray : loopStrays p n (j.go p m stack).1 (j.go p m stack).2 = false) :
    ∃ k vs m', k ≤ n ∧ m'.fuel ≤ 0 ∧ Works p m j vs m' ∧ deliverStrays p stack m' vs = false ∧
      loop p k (deliver p stack m' vs).1 (deliver p stack m' vs).2 = (.ok vals, mf) ∧
      loopStrays p k (deliver p stack m' vs).1 (deliver p stack m' vs).2 = false := by
  cases hmove : j.move p m with
  | error s =>
      cases s with
      | halt h => exact absurd hloop (stuck_of_halt hmove).not_loop
      | top id pos t =>
          rw [go_of_stall hmove] at hloop hstray
          cases t with
          | none => exact absurd hloop (Stuck.missing _ _).not_loop
          | some t =>
              obtain ⟨n, rfl, hgo', hloop, hstray⟩ := taken_straight (by exact hfuel) hloop hstray
              obtain ⟨k, vs, m₁, hk, hfuel₁, htop, hdeliver, hloop, hstray⟩ :=
                works_of_loop (by exact hfuel) hgo' hloop hstray
              rw [deliver_top] at hloop hstray
              rw [deliverStrays_top] at hdeliver
              obtain ⟨k', vs', m', hk', hfuel', hrest, hdeliver, hloop, hstray⟩ :=
                works_of_loop (by exact hfuel₁) hdeliver hloop hstray
              exact ⟨k', vs', m', by omega, hfuel', .stall hmove htop hrest, hdeliver, hloop, hstray⟩
  | ok r =>
      obtain ⟨mv, m₁⟩ := r
      have hstraight := straight_of_goStrays hgo
      have hfuel₁ : m₁.fuel ≤ 0 := (steady_move hmove).fuel ▸ hfuel
      rw [go_of_move hmove] at hloop hstray
      cases mv with
      | values vs =>
          exact ⟨n, vs, m₁, Nat.le_refl n, hfuel₁, .values hstraight hmove,
            deliverStrays_of_move hgo hmove, hloop, hstray⟩
      | job j' =>
          cases j' with
          | tail t env =>
              obtain ⟨n, rfl, hgo', hloop, hstray⟩ := taken_straight hfuel₁ hloop hstray
              obtain ⟨k, vs, m', hk, hfuel', hrest, hdeliver, hloop, hstray⟩ :=
                works_of_loop (by exact hfuel₁) hgo' hloop hstray
              exact ⟨k, vs, m', by omega, hfuel', .job hstraight hmove hrest, hdeliver, hloop, hstray⟩
          | code c env =>
              have hweight := weight_of_move hmove
              obtain ⟨k, vs, m', hk, hfuel', hrest, hdeliver, hloop, hstray⟩ :=
                works_of_loop (j := .code c env) hfuel₁ rfl hloop hstray
              exact ⟨k, vs, m', hk, hfuel', .job hstraight hmove hrest, hdeliver, hloop, hstray⟩
      | bind vars t env next =>
          obtain ⟨n, rfl, hgo', hloop, hstray⟩ := taken_straight hfuel₁ hloop hstray
          obtain ⟨k, vs, m₂, hk, hfuel₂, htail, -, hloop, hstray⟩ :=
            works_of_loop (by exact hfuel₁) hgo' hloop hstray
          by_cases hlen : vs.length = vars.length
          · rw [deliver, if_neg (not_not.mpr hlen)] at hloop hstray
            obtain ⟨k', vs', m', hk', hfuel', hrest, hdeliver, hloop, hstray⟩ :=
              works_of_loop (j := .code next (assign env vars vs)) hfuel₂ rfl hloop hstray
            exact ⟨k', vs', m', by omega, hfuel', .bind hmove htail hlen hrest, hdeliver, hloop, hstray⟩
          · rw [deliver, if_pos hlen] at hloop
            exact absurd hloop (Stuck.halt _).not_loop
termination_by 2 * n + j.weight
decreasing_by all_goals simp only [Job.weight] at *; omega

end Runs

/-- No selection of a run of a definition strays. -/
def StraightRun (p : Program) (m : Machine) (id : DefnId) (args : List Value) : Prop :=
  ∀ n, loopStrays p n (start p m id args).1 (start p m id args).2 = false

/-- After its end a run does not stray. -/
theorem loopStrays_of_loop {p : Program} {n : Nat} {c : Next} {m mf : Machine} {vals : List Value}
    (hloop : loop p n c m = (.ok vals, mf)) (h : loopStrays p n c m = false) (k : Nat) :
    loopStrays p k c m = false := by
  induction k generalizing n c m with
  | zero => cases c <;> rfl
  | succ k ih =>
      cases c with
      | finish vs => rfl
      | halt e => rfl
      | tail t env stack =>
          cases n with
          | zero => cases hloop
          | succ n =>
              obtain ⟨hstep, hrest⟩ := Bool.or_eq_false_iff.mp h
              exact Bool.or_eq_false_iff.mpr ⟨hstep, ih hloop hrest⟩

section Works

variable {p : Program} {m m' : Machine}

/-- The word size stays. -/
theorem Works.size {j : Job} {vals : List Value} (h : Works p m j vals m') : m'.size = m.size := by
  induction h with
  | values _ hmove => exact (steady_move hmove).size
  | @job _ _ _ _ j' _ _ hmove _ ih =>
      refine ih.trans ((?_ : _ = _).trans (steady_move hmove).size)
      cases j' <;> rfl
  | bind hmove _ _ _ ih ih' => exact (ih'.trans ih).trans (steady_move hmove).size
  | stall _ _ _ ih ih' => exact ih'.trans ih

end Works

/-! ### Operations that wait for nothing -/

/-- The run ends, instead of waiting for a top-level value. -/
def Stall.Ends : Stall → Prop
  | .halt _ => True
  | .top _ _ _ => False

section Waiting

variable {p : Program} {m : Machine} {env : Locals}

theorem ends_halt {α : Type} (h : Halt) : Errs Stall.Ends (.error (.halt h) : Except Stall α) := by
  rintro s ⟨⟩
  trivial

theorem ends_atom {a : Atom} (ha : a.defn? = none) : Errs Stall.Ends (atom p m env a) := by
  cases a with
  | temp t =>
      unfold atom
      dsimp only
      split
      · exact .ok _
      · exact ends_halt _
  | lit l => exact .ok _
  | top id index site => cases ha

/-- A job without top-level operands does not wait. -/
theorem ends_move {j : Job} (hj : ∀ a ∈ j.reads, a.defn? = none) : Errs Stall.Ends (j.move p m) :=
  errs_move_of_reads (fun _ => trivial) fun a ha => ends_atom (hj a ha)

end Waiting

end Mil.Machine
