import Mil.Proofs.Machine.History
import Mil.Proofs.Program.Names

/-!
Top-level values are computed at most once. Over the history of a machine, whatever its calls come to,
the marks are those of the top-level definitions that the machine is computing, none of which has
values yet, and the values that are kept are those of the computations that were completed.
-/

namespace Mil.Machine

/-- What remains to be done. -/
def Doing.stack : Doing → List Frame
  | .count _ _ stack => stack
  | .perform _ _ stack => stack
  | .body _ _ stack => stack
  | .hand _ stack => stack
  | .unwind _ stack => stack
  | .ended _ => []

/-- What a transition does with top-level definitions: nothing, or it marks one that has no values and
is not marked, keeps the values of the innermost one that is marked, or takes its mark away. -/
inductive Change (x y : Doing × Machine) : List DefnId → Prop
  | none (hsteady : Steady x.2 y.2) (hstack : evaluating y.1.stack = evaluating x.1.stack) :
      Change x y []
  | mark {id : DefnId} (hnew : x.2.tops.lookup id = none) (hidle : id ∉ x.2.active)
      (hstack : evaluating y.1.stack = id :: evaluating x.1.stack)
      (hactive : y.2.active = id :: x.2.active) (htops : y.2.tops = x.2.tops) : Change x y []
  | keep {id : DefnId} {vals : List Value}
      (hstack : evaluating x.1.stack = id :: evaluating y.1.stack)
      (hactive : y.2.active = x.2.active.erase id) (htops : y.2.tops = (id, vals) :: x.2.tops) :
      Change x y [id]
  | unmark {id : DefnId} (hstack : evaluating x.1.stack = id :: evaluating y.1.stack)
      (hactive : y.2.active = x.2.active.erase id) (htops : y.2.tops = x.2.tops) : Change x y []

section Change

variable {p : Program} {m : Machine}

theorem Change.rest {x : Doing × Machine} {d : Doing}
    (hstack : evaluating d.stack = evaluating x.1.stack) : Change x (d, x.2) [] :=
  .none (.refl _) hstack

theorem change_stalled {d : Doing} {m₀ : Machine} (hsteady : Steady m₀ m) {s : Stall}
    (hdue : s.Due p m) (resume : Option Resume) :
    Change (d, m₀) (stalled m s resume d.stack) [] := by
  cases s with
  | halt e => exact .none hsteady rfl
  | top id pos t =>
      obtain ⟨hnone, hactive, -⟩ := hdue
      rw [hsteady.tops] at hnone
      rw [hsteady.active] at hactive
      exact .mark hnone hactive rfl (congrArg (id :: ·) hsteady.active) hsteady.tops

theorem errs_operate (env : Locals) (t : Tail) : Errs (Stall.Due p m) (operate p m env t) :=
  errs_operate_of_atoms (fun _ => trivial) fun a _ => errs_atom a

theorem due_of_chooseFlag {env : Locals} {cond : Atom} {t f : BlockCall} {s : Stall}
    (h : chooseFlag p m env cond t f = .error s) : s.Due p m :=
  errs_move (.code (.branch cond t f) env) s (Except.bind_eq_error.mpr (.inl h))

theorem due_of_chooseAlt {env : Locals} {scrut : Atom} {alts : List (Cfun × BlockCall)}
    {default : Option BlockCall} {s : Stall} (h : chooseAlt p m env scrut alts default = .error s) :
    s.Due p m :=
  errs_move (.code (.case scrut alts default) env) s (Except.bind_eq_error.mpr (.inl h))

/-- What one transition does. -/
theorem change_advance (d : Doing) (m : Machine) :
    Change (d, m) (advance p (d, m)) d.completed := by
  cases d with
  | count t env stack =>
      unfold advance
      dsimp only
      split
      · exact .none (.tick m) rfl
      · cases t <;> exact .none (.tick m) rfl
  | perform t env stack =>
      unfold advance
      dsimp only
      split
      · rename_i hop
        exact change_stalled (.refl m) (errs_operate env t _ hop) _
      all_goals
        rename_i hop
        exact .none (still_operate hop).toSteady rfl
  | body c env stack =>
      cases c with
      | none => exact .rest rfl
      | some c =>
          cases c with
          | bind vars t next => exact .rest rfl
          | done t => exact .rest rfl
          | branch cond t f =>
              unfold advance
              dsimp only
              split
              · exact .rest rfl
              · rename_i hcall
                exact change_stalled (.refl m) (due_of_chooseFlag hcall) _
          | case scrut alts default =>
              unfold advance
              dsimp only
              split
              · exact .rest rfl
              · rename_i hcall
                exact change_stalled (.refl m) (due_of_chooseAlt hcall) _
  | hand vals stack =>
      cases stack with
      | nil => exact .rest rfl
      | cons frame stack =>
          cases frame with
          | bind vars next env =>
              unfold advance
              dsimp only
              split <;> exact .rest rfl
          | top id saved resume =>
              refine .keep ?_ rfl rfl
              cases resume with
              | none => rfl
              | some resume => cases resume <;> rfl
  | unwind e stack =>
      cases stack with
      | nil => exact .rest rfl
      | cons frame stack =>
          cases frame with
          | bind vars next env => exact .rest rfl
          | top id saved resume => exact .unmark rfl rfl rfl
  | ended r => exact .rest rfl

/-- What the start of a call does. -/
theorem change_begin (r : Except Halt (List Value)) (m : Machine) (id : DefnId)
    (args : List Value) : Change (.ended r, m) (begin p { m with printed := [] } id args) [] := by
  have hpos (pos : Position) : Steady m { m with printed := [], pos } := ⟨rfl, rfl, rfl, rfl⟩
  unfold begin
  split
  · exact .none ⟨rfl, rfl, rfl, rfl⟩ rfl
  · rename_i d _
    split
    · split <;> exact .none (hpos d.pos) rfl
    · split
      · exact .none (hpos d.pos) rfl
      · rename_i htop
        exact change_stalled (d := .ended r) (hpos d.pos) (errs_topValues _ _ htop) none
    · exact .none (hpos d.pos) rfl

end Change

/-! ### What holds at every moment -/

/-- The marks are those of the definitions that are being computed, the values that are kept are those
of the completed computations, the newest first, and no definition occurs twice among them. -/
structure Orderly (log : List DefnId) (x : Doing × Machine) : Prop where
  active : x.2.active = evaluating x.1.stack
  kept : x.2.tops.map Prod.fst = log.reverse
  nodup : (x.2.active ++ log).Nodup

section History

variable {p : Program} {log l : List DefnId} {x y : Doing × Machine}

/-- A change keeps the order. -/
theorem Orderly.change (h : Orderly log x) (hchange : Change x y l) : Orderly (log ++ l) y := by
  have hlog (id : DefnId) (hnone : x.2.tops.lookup id = none) : id ∉ log := by
    rw [lookup_eq_none_iff_not_mem, h.kept, List.mem_reverse] at hnone
    exact hnone
  have herase {id : DefnId} (hstack : evaluating x.1.stack = id :: evaluating y.1.stack) :
      x.2.active.erase id = evaluating y.1.stack := by
    rw [h.active, hstack, List.erase_cons_head]
  cases hchange with
  | none hsteady hstack =>
      rw [List.append_nil]
      exact ⟨by rw [hsteady.active, hstack, h.active], by rw [hsteady.tops, h.kept],
        hsteady.active ▸ h.nodup⟩
  | @mark id hnew hidle hstack hactive htops =>
      rw [List.append_nil]
      refine ⟨by rw [hactive, hstack, h.active], by rw [htops, h.kept], ?_⟩
      rw [hactive, List.cons_append, List.nodup_cons]
      exact ⟨fun hmem => (List.mem_append.mp hmem).elim hidle (hlog id hnew), h.nodup⟩
  | @keep id vals hstack hactive htops =>
      refine ⟨hactive.trans (herase hstack), ?_, ?_⟩
      · rw [htops, List.map_cons, h.kept, List.reverse_append]
        rfl
      · have hnodup := h.nodup
        rw [h.active, hstack] at hnodup
        rw [hactive, herase hstack, ← List.append_assoc]
        exact (List.perm_append_singleton _ _).symm.nodup hnodup
  | unmark hstack hactive htops =>
      rw [List.append_nil]
      exact ⟨hactive.trans (herase hstack), by rw [htops, h.kept],
        hactive ▸ h.nodup.sublist (List.erase_sublist.append_right log)⟩

/-- So does everything that a machine does. -/
theorem Orderly.goes (h : Orderly log x) (hgoes : Goes p x l y) : Orderly (log ++ l) y := by
  induction hgoes with
  | refl => rwa [List.append_nil]
  | advance _ ih =>
      rw [← List.append_assoc]
      exact ih.change (change_advance _ _)
  | giveUp _ ih => exact (List.append_nil (log ++ _)) ▸ ih.change (.rest rfl)
  | call _ id args ih => exact (List.append_nil (log ++ _)) ▸ ih.change (change_begin _ _ id args)

theorem orderly_new (r : Except Halt (List Value)) (size fuel : Int) :
    Orderly [] (.ended r, new size fuel) := ⟨rfl, rfl, .nil⟩

theorem Change.kept (h : Change x y l) : x.2.tops <:+ y.2.tops := by
  cases h with
  | none hsteady => exact hsteady.tops ▸ List.suffix_refl _
  | mark _ _ _ _ htops => exact htops ▸ List.suffix_refl _
  | keep _ _ htops => exact htops ▸ List.suffix_cons _ _
  | unmark _ _ htops => exact htops ▸ List.suffix_refl _

/-- Values that are kept are never given up. -/
theorem Goes.kept (h : Goes p x l y) : x.2.tops <:+ y.2.tops := by
  induction h with
  | refl => exact List.suffix_refl _
  | advance _ ih => exact ih.trans (change_advance _ _).kept
  | giveUp _ ih => exact ih
  | call _ id args ih => exact ih.trans (change_begin _ _ id args).kept

theorem Orderly.nodup_tops (h : Orderly log x) : (x.2.tops.map Prod.fst).Nodup := by
  rw [h.kept, List.nodup_reverse]
  exact h.nodup.of_append_right

theorem Orderly.lookup_isSome_iff (h : Orderly log x) {id : DefnId} :
    (x.2.tops.lookup id).isSome ↔ id ∈ log := by
  rw [lookup_isSome_iff_mem, h.kept, List.mem_reverse]

/-- What is being computed has no values. -/
theorem Orderly.lookup_eq_none (h : Orderly log x) {id : DefnId}
    (hid : id ∈ evaluating x.1.stack) : x.2.tops.lookup id = none := by
  rw [← h.active] at hid
  rw [lookup_eq_none_iff_not_mem, h.kept, List.mem_reverse]
  exact fun hmem => (List.nodup_append.mp h.nodup).2.2 id hid id hmem rfl

/-- Values that a machine keeps stay what they are. -/
theorem Orderly.lookup_goes (h : Orderly log x) (hgoes : Goes p x l y) {id : DefnId}
    {vals : List Value} (hid : x.2.tops.lookup id = some vals) : y.2.tops.lookup id = some vals :=
  lookup_of_mem (h.goes hgoes).nodup_tops (hgoes.kept.subset (mem_of_lookup hid))

/-- A computation that was completed is never completed again. -/
theorem Orderly.not_mem_goes (h : Orderly log x) (hgoes : Goes p x l y) {id : DefnId}
    {vals : List Value} (hid : x.2.tops.lookup id = some vals) : id ∉ l := by
  have hlog : id ∈ log := h.lookup_isSome_iff.mp (hid ▸ rfl)
  have hnodup : (log ++ l).Nodup := (h.goes hgoes).nodup.of_append_right
  exact fun hmem => (List.nodup_append.mp hnodup).2.2 id hlog id hmem rfl

/-- A call that fails ends with no marks, and keeps what was there. -/
theorem Orderly.goes_ended (h : Orderly log x) {e : Halt} {stack : List Frame}
    (hx : x.1 = .unwind e stack) : Goes p x [] (.ended (.error e), { x.2 with active := [] }) := by
  obtain ⟨d, m⟩ := x
  subst hx
  have hends := (proceeds_unwind (p := p) e stack m).goes
  have hactive := (h.goes hends).active
  rwa [show (evaluating stack).foldl List.erase m.active = [] from hactive] at hends

/-- A run between two calls is reached from its start. -/
theorem Orderly.proceeds_run {r : Except Halt (List Value)} {m : Machine}
    (h : Orderly log (.ended r, m)) (id : DefnId) (args : List Value) :
    ∃ l, Proceeds p (begin p { m with printed := [] } id args) l
      (.ended (run p m id args).1, (run p m id args).2) := by
  obtain ⟨l, m', hproceeds, heq⟩ := Machine.proceeds_run (p := p) h.active id args
  have hactive : m'.active = [] := ((h.change (change_begin r m id args)).goes hproceeds.goes).active
  refine ⟨l, ?_⟩
  rw [← heq, ← hactive]
  exact hproceeds

/-- Any number of runs, one after the other on one machine. -/
def runs (p : Program) (m : Machine) (calls : List (DefnId × List Value)) : Machine :=
  calls.foldl (fun m c => (run p m c.1 c.2).2) m

/-- They are part of the history of the machine. -/
theorem Orderly.goes_runs {r : Except Halt (List Value)} {m : Machine} (h : Orderly log (.ended r, m))
    (calls : List (DefnId × List Value)) :
    ∃ l r', Goes p (.ended r, m) l (.ended r', runs p m calls) := by
  induction calls generalizing log r m with
  | nil => exact ⟨[], r, .refl⟩
  | cons c calls ih =>
      obtain ⟨l, hrun⟩ := h.proceeds_run (p := p) c.1 c.2
      have hfirst := (Goes.call (r := r) .refl c.1 c.2).trans hrun.goes
      obtain ⟨l', r', hrest⟩ := ih (h.goes hfirst)
      exact ⟨_, r', hfirst.trans hrest⟩

end History

/-- The values of a reference to a definition whose values are kept are those that are kept. -/
theorem topValue_of_kept {p : Program} {m : Machine} {id i : DefnId} {vals : List Value}
    (hid : m.tops.lookup id = some vals) (htarget : topTarget p m i = .ok id) (index : Nat) :
    topValue p m i index = match vals[index]? with
      | some v => .ok v
      | none => .error (.halt (.defect (.missingTopValue index (p.nameOf id) vals.length))) := by
  have hvals : topValues p m id = .ok vals := by
    unfold topValues
    rw [hid]
  rw [topValue, htarget]
  show (topValues p m id >>= _) = _
  rw [hvals]
  show (match vals[index]? with | some v => _ | none => _) = _
  cases vals[index]? <;> rfl

/-- Over any number of calls on one machine, whether they return values, fail or break an invariant:
the computation of a top-level definition is completed at most once; between two calls nothing is
marked as being computed, and what a run comes to, or one run after the other, is reached from there;
values that are kept stay, and every reference reads them; and a call that fails ends without values
for what it was computing. -/
theorem tops_once (p : Program) (size fuel : Int) {r₀ : Except Halt (List Value)} {log : List DefnId}
    {d : Doing} {m : Machine} (h : Goes p (.ended r₀, new size fuel) log (d, m)) :
    log.Nodup ∧ (∀ id, id ∈ log ↔ (m.tops.lookup id).isSome) ∧
    (∀ r, d = .ended r → m.active = [] ∧
      (∀ id args, ∃ l, Goes p (begin p { m with printed := [] } id args) l
        (.ended (run p m id args).1, (run p m id args).2)) ∧
      ∀ calls, ∃ l r', Goes p (d, m) l (.ended r', runs p m calls)) ∧
    (∀ id vals, m.tops.lookup id = some vals → ∀ {l d' m'}, Goes p (d, m) l (d', m') →
      id ∉ l ∧ m'.tops.lookup id = some vals ∧ ∀ i index, topTarget p m' i = .ok id →
        topValue p m' i index = match vals[index]? with
          | some v => .ok v
          | none => .error (.halt (.defect (.missingTopValue index (p.nameOf id) vals.length)))) ∧
    ∀ e stack, d = .unwind e stack → (∀ id ∈ evaluating stack, m.tops.lookup id = none) ∧
      Goes p (d, m) [] (.ended (.error e), { m with active := [] }) := by
  have horder : Orderly log (d, m) := (orderly_new r₀ size fuel).goes h
  refine ⟨horder.nodup.of_append_right, fun id => horder.lookup_isSome_iff.symm, ?_, ?_, ?_⟩
  · rintro r rfl
    exact ⟨horder.active, fun id args => (horder.proceeds_run id args).imp fun _ h => h.goes,
      horder.goes_runs⟩
  · intro id vals hid l d' m' hgoes
    have hkept := horder.lookup_goes hgoes hid
    exact ⟨horder.not_mem_goes hgoes hid, hkept, fun i index htarget =>
      topValue_of_kept hkept htarget index⟩
  · rintro e stack rfl
    exact ⟨fun id hid => horder.lookup_eq_none hid, horder.goes_ended rfl⟩

/-- A program with a sum as a top-level value, a second one that needs itself, and a block that returns
the sum. -/
def sumAndLoop : Program :=
  { Program.empty with
    defns := #[{ Defn.new "main" .unknown (.block (.new [] (some (.done (.ret [.top 1 0 0])))))
        with entry := true },
      .newTop .unknown ⟨[⟨"sum", none, none, []⟩],
        some (.prim (.builtin .add) [.word 20, .word 22] none), [], false⟩,
      .newTop .unknown ⟨[⟨"own", none, none, []⟩], some (.ret [.top 2 0 1]), [], false⟩]
    entries := [0] }

/-- The sum is computed by the first call and read by the second one; the third call fails. -/
theorem tops_once_sumAndLoop : ∃ log r, Goes sumAndLoop (.ended (.ok []), new 64 0) log
      (.ended r, runs sumAndLoop (new 64 0) [(0, []), (0, []), (2, [])]) ∧
    log.Nodup ∧ 1 ∈ log ∧ 2 ∉ log ∧
    (runs sumAndLoop (new 64 0) [(0, []), (0, []), (2, [])]).active = [] ∧
    topValue sumAndLoop (runs sumAndLoop (new 64 0) [(0, []), (0, []), (2, [])]) 1 0 =
      .ok (.word 42) := by
  obtain ⟨log, r, hgoes⟩ := (orderly_new (.ok []) 64 0).goes_runs (p := sumAndLoop)
    [(0, []), (0, []), (2, [])]
  obtain ⟨hnodup, hlog, hended, hkept, -⟩ := tops_once sumAndLoop 64 0 hgoes
  obtain ⟨-, -, hreads⟩ := hkept 1 [.word 42] rfl .refl
  refine ⟨log, r, hgoes, hnodup, (hlog 1).mpr rfl, ?_, (hended r rfl).1, hreads 1 0 rfl⟩
  rw [hlog]
  exact Bool.false_ne_true

end Mil.Machine
