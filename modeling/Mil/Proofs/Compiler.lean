import Mil.Compiler
import Mil.Proofs.Mono.Failure
import Mil.Proofs.Rep.Failure
import Mil.Proofs.Typing.WellTyped

/-!
What a compilation is like after a stage has failed. It stays at the stage before. When specialisation
fails nothing has changed. A change of representation leaves the implementations that externals got
before the failure, and the definitions that were made for them.
-/

namespace Mil

namespace Compiler

open Typing (accepted accepted_eq accepted_spec)

variable {c c' : Compiler} {f : Failure}

/-- A step to the next stage does not fail, so what comes before it does. -/
theorem fails_of_step {x : CompileM Unit} {e : CompileError} {s : Stage}
    (h : (do x; modify fun c => { c with stage := s } : CompileM Unit).run c = (.error e, c')) :
    x.run c = (.error e, c') := by
  have hbind : (do x; modify fun c => { c with stage := s } : CompileM Unit).run c =
      (ExceptT.bindCont (fun _ => modify fun c => { c with stage := s }) (x.run c).1 :
        StateM Compiler (Except CompileError Unit)) (x.run c).2 := rfl
  rw [hbind] at h
  rcases hx : x.run c with ⟨e' | _, c₁⟩
  · rw [hx] at h
    cases h
    rfl
  · rw [hx] at h
    cases h

/-- The work of a stage on the program. -/
def work (p : Program) : Stage → CompileM Unit
  | .check => check p
  | .specialize => specialize p
  | .represent => represent p
  | .optimize => optimize p
  | s => throw (.unknownStage s)

/-- A failure of a stage comes from its work on the program, which has been loaded. -/
theorem work_of_runStage {e : CompileError} {s : Stage} (hloaded : e ≠ .noProgram)
    (h : (runStage s).run c = (.error e, c')) :
    ∃ p, c.program = some p ∧ (work p s).run c = (.error e, c') := by
  obtain ⟨o, program, l, st, n⟩ := c
  cases program with
  | none =>
      cases h
      exact absurd rfl hloaded
  | some p =>
      have hstage : (runStage s).run ⟨o, some p, l, st, n⟩ =
          (do work p s; modify fun c => { c with stage := s } : CompileM Unit).run
            ⟨o, some p, l, st, n⟩ := by
        cases s <;> rfl
      rw [hstage] at h
      exact ⟨p, rfl, fails_of_step h⟩

/-- How a check ends. -/
theorem check_run (p : Program) (c : Compiler) :
    ∃ log c₁, (check p).run c = (match (p.check.run ⟨p, c.log⟩).1 with
      | .error (.defect d) => throw (.defect d)
      | _ => match FailureLog.summary? log with
        | some text => throw (.failures text)
        | none => pure () : CompileM Unit).run c₁ := ⟨_, _, rfl⟩

/-- A check collects failures. -/
theorem not_check_fails {p : Program} {s : Option Stage} :
    (check p).run c ≠ (.error (.failure s f), c') := by
  intro h
  obtain ⟨log, c₁, hrun⟩ := check_run p c
  rw [hrun] at h
  split at h
  · cases h
  · split at h <;> cases h

theorem optimize_run (p : Program) (c : Compiler) :
    (optimize p).run c = (if c.options.optimize then
      match p.optimize c.options.wordSize c.options.limits with
      | .ok (_, p) => setProgram p
      | .error d => throw (.defect d)
    else pure () : CompileM Unit).run c := rfl

theorem not_optimize_fails {p : Program} {s : Option Stage} :
    (optimize p).run c ≠ (.error (.failure s f), c') := by
  intro h
  rw [optimize_run] at h
  split at h
  · split at h <;> cases h
  · cases h

theorem specialize_run (p : Program) (c : Compiler) :
    (specialize p).run c = (match ((ExceptT.run Mono.program).run (.start p)).1 with
      | .ok () => pure ()
      | .error (.defect d) => throw (.defect d)
      | .error (.failure f) => throw (.failure (some .specialize) f) : CompileM Unit).run
        { c with program := some ((ExceptT.run Mono.program).run (.start p)).2.program } := rfl

/-- What specialisation has changed is kept when it fails. -/
theorem specialize_fails {p : Program} {s : Stage}
    (h : (specialize p).run c = (.error (.failure (some s) f), c')) :
    s = .specialize ∧ ∃ st, Mono.Fails Mono.program (.start p) f st ∧
      c' = { c with program := some st.program } := by
  rw [specialize_run] at h
  rcases hrun : (ExceptT.run Mono.program).run (.start p) with ⟨⟨d | f'⟩ | _, st⟩ <;> rw [hrun] at h <;> cases h
  exact ⟨rfl, st, hrun, rfl⟩

theorem represent_run (p : Program) (c : Compiler) :
    (represent p).run c = (match (p.represent c.options.wordSize).1 with
      | .ok () => pure ()
      | .error (.defect d) => throw (.defect d)
      | .error (.failure f) => throw (.failure (some .represent) f) : CompileM Unit).run
        { c with program := some (p.represent c.options.wordSize).2 } := rfl

theorem represent_fails {p : Program} {s : Stage}
    (h : (represent p).run c = (.error (.failure (some s) f), c')) :
    s = .represent ∧ ∃ q, c' = { c with program := some q } ∧
      p.represent c.options.wordSize = (.error (.failure f), q) := by
  rw [represent_run] at h
  rcases hrep : p.represent c.options.wordSize with ⟨⟨d | f'⟩ | _, q⟩ <;> rw [hrep] at h <;> cases h
  exact ⟨rfl, q, rfl, rfl⟩

/-- When a stage fails, the compilation is at the stage before. If it was specialisation, the program
is as it was, and a definition cannot be an entrypoint. If it was the change of representation, the
failure is at an external; the program has everything as it was but implementations of externals,
though temporaries and definitions may have been added. -/
theorem runStage_failure {s : Stage}
    (h : (runStage s).run c = (.error (.failure (some s) f), c'))
    (hends : f ≠ ⟨.unknown, .structural, "specialization does not end"⟩) :
    ∃ p q, c.program = some p ∧ c' = { c with program := some q } ∧
      (s = .specialize ∧ q = p ∧ (∃ id ∈ p.entries, Mono.Rejects p id f) ∨
        s = .represent ∧ p.Resolves q ∧ f.kind = .structural ∧ p.ExternalAt f.pos) := by
  obtain ⟨p, hp, hwork⟩ := work_of_runStage (by rintro ⟨⟩) h
  cases s with
  | specialize =>
      obtain ⟨-, st, hfails, hc⟩ := specialize_fails hwork
      obtain ⟨hentry, rfl⟩ := Mono.program_failure hfails hends
      exact ⟨p, p, hp, hc, .inl ⟨rfl, rfl, hentry⟩⟩
  | represent =>
      obtain ⟨-, q, hc, hrep⟩ := represent_fails hwork
      exact ⟨p, q, hp, hc, .inr ⟨rfl, Program.represent_failure hrep⟩⟩
  | check => exact absurd hwork not_check_fails
  | optimize => exact absurd hwork not_optimize_fails
  | _ => cases hwork

/-- A text with an external that is implemented, and a literal that is too large. -/
def largeText : String :=
  "externals:\n- name: inv\n  type: \"[Bit 8] ->> [Bit 8]\"\n  ref: primBitNot\n  ts: [\"8\"]\n" ++
  "- name: big\n  type: Bit 8\n  ref: primBitFromLiteral\n  ts: [\"300\", \"8\"]\nblocks:\n" ++
  "- name: main\n  type: \"[] >>= [Bit 8]\"\n  code:\n  - enter: inv\n    args: [big]\n"

/-- A compilation that has come to a specialised program. -/
def specialized (p : Program) : Compiler :=
  { new .standard with program := some p, stage := .specialize }

/-- The implementation of an external. -/
def implementation? (p : Program) (id : DefnId) : Option DefnId :=
  match (p.defns[id]?).map Defn.body with
  | some (.external e) => e.impl
  | _ => none

/-- Does the change of representation fail after the second definition has got an implementation? -/
def failsLate (p : Program) : Bool :=
  match (runStage .represent).run (specialized p) with
  | (.error (.failure (some .represent) f), c) =>
    decide (f.msg = "literal 300 does not fit in Bit 8") && c.program.any fun q =>
      decide (p.defns.size = 3 ∧ implementation? p 1 = none ∧ q.defns.size = 6 ∧
        implementation? q 1 = some 5)
  | _ => false

/-- A checked text that is specialised, after which the change of representation fails late. -/
theorem exists_failsLate : ∃ p c q, (Program.parse "large" largeText >>= fun p =>
      addEntries p ["main"]) = .ok p ∧ p.check.run ⟨p, .empty⟩ = (.ok (), c) ∧ c.log.entries = [] ∧
    c.program.specialize = .ok q ∧ failsLate q = true := by
  have hall : ((accepted "large" largeText ["main"]).bind
      fun c => c.program.specialize.toOption).any failsLate = true := by
    rw [accepted_eq _ largeText _ (toList_append_ofList (toList_append_ofList String.toList_ofList))]
    decide +kernel
  obtain ⟨q, hq, hlate⟩ := (Option.any_eq_true _ _).mp hall
  obtain ⟨c, hc, hq⟩ := Option.bind_eq_some_iff.mp hq
  obtain ⟨p, hload, hcheck, hlog⟩ := accepted_spec hc
  cases hspec : c.program.specialize with
  | error e =>
      rw [hspec] at hq
      cases hq
  | ok q' =>
      rw [hspec] at hq
      cases hq
      exact ⟨p, c, q, hload, hcheck, hlog, hspec, hlate⟩

theorem failsLate_spec {p : Program} (h : failsLate p = true) : ∃ f c q,
    (runStage .represent).run (specialized p) = (.error (.failure (some .represent) f), c) ∧
    f.msg = "literal 300 does not fit in Bit 8" ∧ c.program = some q ∧ p.defns.size = 3 ∧
    implementation? p 1 = none ∧ q.defns.size = 6 ∧ implementation? q 1 = some 5 := by
  unfold failsLate at h
  split at h
  · rename_i f c hrun
    obtain ⟨hmsg, hany⟩ := Bool.and_eq_true_iff.mp h
    obtain ⟨q, hq, hchanged⟩ := (Option.any_eq_true _ _).mp hany
    exact ⟨f, c, q, hrun, of_decide_eq_true hmsg, hq, of_decide_eq_true hchanged⟩
  · cases h

theorem runStage_failure_large : ∃ (p q : Program) (c' : Compiler) (f : Failure),
    p.specialize = .ok q ∧
    (runStage .represent).run (specialized q) = (.error (.failure (some .represent) f), c') ∧
    f.msg = "literal 300 does not fit in Bit 8" ∧
    ∃ q', c' = { specialized q with program := some q' } ∧ q.Resolves q' ∧ q.ExternalAt f.pos := by
  obtain ⟨_, c, q, -, -, -, hspec, hlate⟩ := exists_failsLate
  obtain ⟨f, c', q', hrun, hmsg, -⟩ := failsLate_spec hlate
  have hends : f ≠ ⟨.unknown, .structural, "specialization does not end"⟩ := by
    rintro rfl
    exact absurd hmsg (by decide)
  obtain ⟨q₁, q₂, hq₁, hc', ⟨hstage, -⟩ | ⟨-, hresolves, -, hat⟩⟩ := runStage_failure hrun hends
  · cases hstage
  · cases hq₁
    exact ⟨c.program, q, c', f, hspec, hrun, hmsg, q₂, hc', hresolves, hat⟩

/-- A change of representation that fails has changed the program: an external has got an
implementation, and there are three definitions more. -/
theorem represent_changes_large : ∃ p c q c' f q', (Program.parse "large" largeText >>= fun p =>
      addEntries p ["main"]) = .ok p ∧ p.check.run ⟨p, .empty⟩ = (.ok (), c) ∧ c.log.entries = [] ∧
    c.program.specialize = .ok q ∧
    (runStage .represent).run (specialized q) = (.error (.failure (some .represent) f), c') ∧
    c'.program = some q' ∧ q.defns.size = 3 ∧ implementation? q 1 = none ∧ q'.defns.size = 6 ∧
    implementation? q' 1 = some 5 := by
  obtain ⟨p, c, q, hload, hcheck, hlog, hspec, hlate⟩ := exists_failsLate
  obtain ⟨f, c', q', hrun, -, hq', hchanged⟩ := failsLate_spec hlate
  exact ⟨p, c, q, c', f, q', hload, hcheck, hlog, hspec, hrun, hq', hchanged⟩

end Compiler

end Mil
