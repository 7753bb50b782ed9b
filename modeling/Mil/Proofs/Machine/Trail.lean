import Mil.Proofs.Machine.Once

/-!
The calls that have led to where a machine is. Beside the machine goes a trail: the calls of blocks,
each made in the body of the block of the one before, down to the body that is being run, and the same
for all that waits. In a program whose binders are distinct, a body that is being run finds the operands
of its call in its parameters, whatever it has bound since; so a parameter that is handed on in a call
keeps its value.
-/

namespace Mil.Machine

/-- A call of a block with the values of its operands. -/
structure Call where
  block : DefnId
  args : List Value

/-- The calls that lead to the body that is being run, the last one first, and those that lead to what
waits, the innermost first. No call leads to the tail of a closure or of a top-level definition. -/
structure Trail where
  here : List Call
  waiting : List (List Call)

namespace Trail

/-- A binding waits for the values of its tail. -/
def wait (t : Trail) : Trail := ⟨t.here, t.here :: t.waiting⟩

/-- A top-level definition is computed while what needs its values waits. -/
def turn (t : Trail) : Trail := ⟨[], t.here :: t.waiting⟩

/-- What waits is gone on with, or given up. -/
def back (t : Trail) : Trail :=
  match t.waiting with
  | here :: waiting => ⟨here, waiting⟩
  | [] => t

/-- A closure is entered. -/
def leave (t : Trail) : Trail := ⟨[], t.waiting⟩

/-- A block is called. If another definition has taken its place, that one is run instead, and the
body of the block has no part in what follows. -/
def call (p : Program) (t : Trail) (block : DefnId) (vals : List Value) : Trail :=
  if p.resolve block = block then ⟨⟨block, vals⟩ :: t.here, t.waiting⟩
  else ⟨[⟨p.resolve block, vals⟩], t.waiting⟩

/-- A stall is the end or turns to a top-level definition. -/
def stalled (t : Trail) : Stall → Trail
  | .halt _ => t
  | .top _ _ _ => t.turn

/-- The trail after one transition. -/
def advance (p : Program) (t : Trail) : Doing × Machine → Trail
  | (.perform tail env _, m) =>
    match operate p m env tail with
    | .error s => t.stalled s
    | .ok (.values _, _) => t
    | .ok (.tail _ _, _) => t.leave
    | .ok (.body _ _, _) =>
      match tail, atoms p m env tail.atoms with
      | .call c, .ok vals => t.call p c.block vals
      | _, _ => t
  | (.body (some (.bind _ _ _)) _ _, _) => t.wait
  | (.body (some (.branch cond c f)) env _, m) =>
    match chooseFlag p m env cond c f with
    | .ok _ => t
    | .error s => t.stalled s
  | (.body (some (.case scrut alts default)) env _, m) =>
    match chooseAlt p m env scrut alts default with
    | .ok _ => t
    | .error s => t.stalled s
  | (.hand _ (_ :: _), _) => t.back
  | (.unwind _ (_ :: _), _) => t.back
  | _ => t

/-- The trail at the start of a call. -/
def begin (p : Program) (m : Machine) (id : DefnId) (args : List Value) : Trail :=
  match (Machine.begin p m id args).1 with
  | .body _ _ _ => ⟨[⟨p.resolve id, args⟩], []⟩
  | .count _ _ _ => ⟨[], [[]]⟩
  | _ => ⟨[], []⟩

end Trail

/-- The moments of a machine with their trails. -/
inductive Walks (p : Program) : Doing × Machine → Trail → Prop
  | call (m : Machine) (id : DefnId) (args : List Value) :
      Walks p (begin p m id args) (Trail.begin p m id args)
  | advance {x : Doing × Machine} {t : Trail} (h : Walks p x t) :
      Walks p (Machine.advance p x) (t.advance p x)
  | giveUp {t : Option Tail} {env : Locals} {stack : List Frame} {m : Machine} {trail : Trail}
      (h : Walks p (.count t env stack, m) trail) : Walks p (.unwind m.outOfFuel stack, m) trail

/-- Every moment of a history that starts with a call has a trail. -/
theorem Goes.exists_walks {p : Program} {m : Machine} {id : DefnId} {args : List Value}
    {log : List DefnId} {y : Doing × Machine} (h : Goes p (begin p m id args) log y) :
    ∃ t, Walks p y t := by
  induction h with
  | refl => exact ⟨_, .call m id args⟩
  | advance _ ih =>
      obtain ⟨t, ht⟩ := ih
      exact ⟨_, ht.advance⟩
  | giveUp _ ih =>
      obtain ⟨t, ht⟩ := ih
      exact ⟨t, ht.giveUp⟩
  | call _ id args _ => exact ⟨_, .call _ id args⟩

/-! ### What a call hands on -/

/-- The calls in the body of a block. -/
abbrev callsOf (b : Block) : List BlockCall := (b.body.map Code.allCalls).getD []

/-- The second call is made in the body of the block of the first: it names its block, and where an
operand is a parameter it has the value that the first call gave to the parameter. -/
def Makes (p : Program) (x y : Call) : Prop :=
  ∃ b, p.block x.block = .ok b ∧ ∃ c ∈ callsOf b, c.block = y.block ∧ c.args.length = y.args.length ∧
    ∀ (i k : Nat) (t : Temp), c.args[i]? = some (.temp t) → b.params[k]? = some t → y.args[i]? = x.args[k]?

/-- Calls of which each makes the next, the last one first, with as many operands as the blocks have
parameters. -/
structure Lineage (p : Program) (calls : List Call) : Prop where
  made : calls.IsChain fun y x => Makes p x y
  counts : ∀ x ∈ calls, ∀ b, p.block x.block = .ok b → x.args.length = b.params.length

/-- Code that is run after some calls is of the block of the last one, whose parameters have the values
of its operands and are not bound again; or of any definition if no call leads to it. -/
def Belongs (p : Program) (calls : List BlockCall) (binders : List Temp) (env : Locals) :
    List Call → Prop
  | [] => ∃ (id : DefnId) (d : Defn), p.defns[id]? = some d ∧ calls ⊆ d.body.calls
  | x :: _ => ∃ b, p.block x.block = .ok b ∧ calls ⊆ callsOf b ∧ binders.Disjoint b.params ∧
      ∀ (k : Nat) (t : Temp), b.params[k]? = some t → env.lookup t = x.args[k]?

section Belongs

variable {p : Program} {calls calls' : List BlockCall} {binders binders' vs params : List Temp} {env : Locals}
  {here : List Call} {t : Temp} {vals : List Value}

theorem lookup_assign_of_not_mem (ht : t ∉ vs) : (assign env vs vals).lookup t = env.lookup t := by
  have hnone : ((vs.zip vals).reverse).lookup t = none := by
    refine lookup_eq_none_iff_not_mem.mpr fun hmem => ?_
    obtain ⟨⟨_, v⟩, hq, rfl⟩ := List.mem_map.mp hmem
    exact ht (List.of_mem_zip (List.mem_reverse.mp hq)).1
  rw [assign, List.lookup_append, hnone, Option.none_or]

/-- Different temporaries get the values at their places. -/
theorem lookup_assign (hnodup : params.Nodup) {k : Nat} (hk : params[k]? = some t) :
    (assign env params vals).lookup t = (vals[k]?).or (env.lookup t) := by
  induction params generalizing env vals k with
  | nil => cases hk
  | cons q params ih =>
      obtain ⟨hq, hnodup⟩ := List.nodup_cons.mp hnodup
      cases vals with
      | nil => rfl
      | cons v vals =>
          rw [assign_cons]
          cases k with
          | zero =>
              cases hk
              rw [lookup_assign_of_not_mem hq, List.lookup_cons_self]
              rfl
          | succ k =>
              have hne : t ≠ q := fun h => hq (h ▸ List.mem_of_getElem? hk)
              rw [ih hnodup hk, lookup_cons_ite, if_neg hne]
              rfl

/-- Different temporaries have the values that they were given, place by place. -/
theorem forall₂_lookup_assign (env : Locals) (hnodup : params.Nodup) (hlen : params.length = vals.length) :
    List.Forall₂ (fun t v => (assign env params vals).lookup t = some v) params vals := by
  refine List.forall₂_iff_get.mpr ⟨hlen, fun i hi hi' => ?_⟩
  have hlookup : (assign env params vals).lookup params[i] = (vals[i]?).or (env.lookup params[i]) :=
    lookup_assign hnodup (List.getElem?_eq_getElem hi)
  rw [List.getElem?_eq_getElem hi', Option.some_or] at hlookup
  exact hlookup

theorem Belongs.mono (h : Belongs p calls binders env here) (hcalls : calls' ⊆ calls)
    (hbinders : binders' ⊆ binders) : Belongs p calls' binders' env here := by
  cases here with
  | nil =>
      obtain ⟨id, d, hd, hsub⟩ := h
      exact ⟨id, d, hd, fun c hc => hsub (hcalls hc)⟩
  | cons x rest =>
      obtain ⟨b, hb, hsub, hdisjoint, hparams⟩ := h
      exact ⟨b, hb, fun c hc => hsub (hcalls hc), fun t ht => hdisjoint (hbinders ht), hparams⟩

/-- What a body binds leaves its parameters alone. -/
theorem Belongs.assign (h : Belongs p calls (vs ++ binders) env here) :
    Belongs p calls binders (Machine.assign env vs vals) here := by
  cases here with
  | nil => exact h
  | cons x rest =>
      obtain ⟨b, hb, hsub, hdisjoint, hparams⟩ := h
      refine ⟨b, hb, hsub, fun t ht => hdisjoint (List.mem_append_right _ ht), fun k t hk => ?_⟩
      rw [lookup_assign_of_not_mem fun ht =>
        hdisjoint (List.mem_append_left _ ht) (List.mem_of_getElem? hk)]
      exact hparams k t hk

/-- The calls of code that is run are calls of a definition. -/
theorem Belongs.exists_defn (h : Belongs p calls binders env here) :
    ∃ (id : DefnId) (d : Defn), p.defns[id]? = some d ∧ calls ⊆ d.body.calls := by
  cases here with
  | nil => exact h
  | cons x rest =>
      obtain ⟨b, hb, hsub, -⟩ := h
      obtain ⟨d, hd, hbody⟩ := exists_of_block hb
      refine ⟨x.block, d, hd, ?_⟩
      rw [hbody]
      exact hsub

end Belongs

end Mil.Machine

namespace Mil.Program

/-- No block binds a temporary twice, its parameters included. -/
def DistinctBinders (p : Program) : Prop :=
  ∀ (id : DefnId) (b : Block), p.block id = .ok b → (b.params ++ (b.body.map Code.binders).getD []).Nodup

/-- Every call has as many operands as the block that it names has parameters, and as the one that is
run. -/
def MatchingArities (p : Program) : Prop :=
  ∀ (id : DefnId) (d : Defn), p.defns[id]? = some d → ∀ c ∈ d.body.calls, ∀ b,
    p.block c.block = .ok b ∨ p.block (p.resolve c.block) = .ok b → c.args.length = b.params.length

end Mil.Program

namespace Mil.Machine

/-! ### The trail of a run -/

/-- What the machine is doing belongs to the last call. -/
def Doing.Belongs (p : Program) (here : List Call) : Doing → Prop
  | .count t env _ => ∀ tail, t = some tail → Machine.Belongs p tail.call?.toList [] env here
  | .perform tail env _ => Machine.Belongs p tail.call?.toList [] env here
  | .body c env _ => ∀ code, c = some code → Machine.Belongs p code.allCalls code.binders env here
  | _ => True

/-- What waits belongs to the last of the calls that have led to it. -/
def Frame.Belongs (p : Program) (here : List Call) : Frame → Prop
  | .bind vars next env => Machine.Belongs p next.allCalls (vars ++ next.binders) env here
  | .top _ _ (some (.code c env)) => Machine.Belongs p c.allCalls c.binders env here
  | .top _ _ (some (.operation tail env)) => Machine.Belongs p tail.call?.toList [] env here
  | .top _ _ none => True

/-- The trail is that of what the machine is doing and of all that waits. -/
structure Trail.Fits (p : Program) (d : Doing) (t : Trail) : Prop where
  lineage : Lineage p t.here
  doing : d.Belongs p t.here
  waiting : List.Forall₂ (fun frame here => Lineage p here ∧ frame.Belongs p here) d.stack t.waiting

section Fits

variable {p : Program} {m : Machine} {t : Trail} {stack : List Frame}

theorem Lineage.nil (p : Program) : Lineage p [] := ⟨.nil, nofun⟩

theorem fits_stalled {s : Stall} (hdue : s.Due p m) (hlineage : Lineage p t.here)
    {resume : Option Resume} (hresume : (Frame.top 0 m.pos resume).Belongs p t.here)
    (hwaiting : List.Forall₂ (fun frame here => Lineage p here ∧ Frame.Belongs p here frame) stack t.waiting) :
    Trail.Fits p (Machine.stalled m s resume stack).1 (t.stalled s) := by
  cases s with
  | halt h => exact ⟨hlineage, trivial, hwaiting⟩
  | top id pos tail =>
      obtain ⟨-, -, d, top, hd, hbody, rfl⟩ := hdue
      refine ⟨.nil p, fun tail htail => ⟨id, d, hd, ?_⟩, .cons ⟨hlineage, ?_⟩ hwaiting⟩
      · rw [hbody, DefnBody.calls, htail]
        exact List.Subset.refl _
      · cases resume with
        | none => trivial
        | some r => cases r <;> exact hresume

theorem belongs_body (hp : p.DistinctBinders) {id : DefnId} {b : Block} (hb : p.block id = .ok b)
    {code : Code} (hcode : b.body = some code) (vals : List Value) (here : List Call) :
    Machine.Belongs p code.allCalls code.binders (assign [] b.params vals) (⟨id, vals⟩ :: here) := by
  have hnodup := hp id b hb
  rw [hcode] at hnodup
  obtain ⟨hparams, -, hdisjoint⟩ := List.nodup_append.mp hnodup
  refine ⟨b, hb, ?_, fun t ht ht' => hdisjoint t ht' t ht rfl, fun k t hk => ?_⟩
  · rw [callsOf, hcode]
    exact List.Subset.refl _
  · rw [lookup_assign hparams hk]
    exact Option.or_none

theorem mem_calls_of_chooseFlag {env : Locals} {cond : Atom} {c f call : BlockCall}
    (h : chooseFlag p m env cond c f = .ok call) : call ∈ (Code.branch cond c f).calls := by
  obtain ⟨v, -, h⟩ := Except.bind_eq_ok.mp h
  cases v with
  | flag b =>
      cases h
      cases b with
      | false => exact .tail _ (.head _)
      | true => exact .head _
  | word | closure | data => cases h

theorem mem_calls_of_chooseAlt {env : Locals} {scrut : Atom} {alts : List (Cfun × BlockCall)}
    {default : Option BlockCall} {call : BlockCall} (h : chooseAlt p m env scrut alts default = .ok call) :
    call ∈ (Code.case scrut alts default).calls := by
  obtain ⟨v, -, hchoice⟩ := Except.bind_eq_ok.mp h
  clear h
  cases v with
  | data k fields =>
      dsimp only at hchoice
      split at hchoice
      · rename_i hfind
        cases hchoice
        exact List.mem_append_left _ (List.mem_map_of_mem (List.mem_of_find?_eq_some hfind))
      · cases hchoice
        exact List.mem_append_right _ (.head _)
      · cases hchoice
  | word | flag | closure => cases hchoice

/-- An operand that is a parameter has the value that the last call gave to it. -/
theorem makes_of_belongs {x : Call} {rest : List Call} {c : BlockCall} {env : Locals}
    (hc : Machine.Belongs p [c] [] env (x :: rest)) {vals : List Value}
    (hvals : List.Forall₂ (fun a v => atom p m env a = .ok v) c.args vals) : Makes p x ⟨c.block, vals⟩ := by
  obtain ⟨b, hb, hsub, -, hparams⟩ := hc
  refine ⟨b, hb, c, hsub (.head _), rfl, hvals.length_eq, fun i k tmp hi hk => ?_⟩
  obtain ⟨hlt, hget⟩ := List.getElem?_eq_some_iff.mp hi
  have hlt' : i < vals.length := hvals.length_eq ▸ hlt
  have hatom : atom p m env (.temp tmp) = .ok vals[i] := hget ▸ hvals.get hlt hlt'
  have hlookup : env.lookup tmp = some vals[i] := by
    unfold atom at hatom
    dsimp only at hatom
    split at hatom
    · rename_i hv
      rw [hv, Except.ok.inj hatom]
    · cases hatom
  rw [← hparams k tmp hk, hlookup, List.getElem?_eq_getElem hlt']

theorem Lineage.call (har : p.MatchingArities) (h : Lineage p t.here) {c : BlockCall} {env : Locals}
    (hc : Machine.Belongs p [c] [] env t.here) {vals : List Value}
    (hvals : List.Forall₂ (fun a v => atom p m env a = .ok v) c.args vals) :
    Lineage p (t.call p c.block vals).here := by
  obtain ⟨id, d, hd, hsub⟩ := hc.exists_defn
  have hcount := har id d hd c (hsub (.head _))
  unfold Trail.call
  split
  · obtain ⟨here, waiting⟩ := t
    refine ⟨?_, List.forall_mem_cons.mpr ⟨fun b hb => ?_, h.counts⟩⟩
    · cases here with
      | nil => exact .singleton _
      | cons x rest => exact .cons_cons (makes_of_belongs hc hvals) h.made
    · rw [← hvals.length_eq, hcount b (.inl hb)]
  · refine ⟨.singleton _, fun x hx b hb => ?_⟩
    cases List.mem_singleton.mp hx
    rw [← hvals.length_eq, hcount b (.inr hb)]

/-- The body that a call comes to belongs to the call, or to the one that is made in its place. -/
theorem belongs_call (hp : p.DistinctBinders) {block : DefnId} {b : Block}
    (hb : p.block (p.resolve block) = .ok b) {code : Code} (hcode : b.body = some code) (vals : List Value) :
    Machine.Belongs p code.allCalls code.binders (assign [] b.params vals) (t.call p block vals).here := by
  unfold Trail.call
  split
  · rename_i hsame
    exact belongs_body hp (hsame ▸ hb) hcode vals t.here
  · exact belongs_body hp hb hcode vals []

theorem Trail.waiting_call (p : Program) (t : Trail) (block : DefnId) (vals : List Value) :
    (t.call p block vals).waiting = t.waiting := by
  unfold Trail.call
  split <;> rfl

variable {d : Doing}

theorem fits_perform (hp : p.DistinctBinders) (har : p.MatchingArities) {tail : Tail} {env : Locals}
    (h : t.Fits p (.perform tail env stack)) :
    Trail.Fits p (advance p (.perform tail env stack, m)).1 (t.advance p (.perform tail env stack, m)) := by
  obtain ⟨hlineage, hdoing, hwaiting⟩ := h
  unfold advance Trail.advance
  dsimp only
  cases hop : operate p m env tail with
  | error s => exact fits_stalled (errs_operate env tail s hop) hlineage hdoing hwaiting
  | ok r =>
      obtain ⟨e, m'⟩ := r
      cases e with
      | values vals => exact ⟨hlineage, trivial, hwaiting⟩
      | tail t' env' =>
          obtain ⟨fn, args, rfl⟩ := eq_enter_of_operate hop
          obtain ⟨id, stored, vals, k, pos, -, -, hk, he, -⟩ := operate_enter_inv hop
          cases he
          obtain ⟨d, hd, hbody⟩ := exists_of_closure hk
          refine ⟨.nil p, fun tail htail => ⟨_, d, hd, ?_⟩, hwaiting⟩
          rw [hbody, DefnBody.calls, htail]
          exact List.Subset.refl _
      | body c env' =>
          obtain ⟨c, rfl⟩ := eq_call_of_operate hop
          obtain ⟨vals, b, pos, hvals, hb, he, -⟩ := operate_call_inv hop
          cases he
          have hargs : atoms p m env (Tail.call c).atoms = .ok vals := hvals
          rw [hargs]
          refine ⟨hlineage.call har hdoing (atoms_eq_ok.mp hvals), ?_, ?_⟩
          · exact fun code hcode => belongs_call hp hb hcode vals
          · rw [Trail.waiting_call]
            exact hwaiting

theorem fits_body {c : Option Code} {env : Locals} (h : t.Fits p (.body c env stack)) :
    Trail.Fits p (advance p (.body c env stack, m)).1 (t.advance p (.body c env stack, m)) := by
  obtain ⟨hlineage, hdoing, hwaiting⟩ := h
  cases c with
  | none => exact ⟨hlineage, trivial, hwaiting⟩
  | some c =>
      have hcode := hdoing c rfl
      cases c with
      | bind vars tail next =>
          refine ⟨hlineage, ?_, .cons ⟨hlineage, ?_⟩ hwaiting⟩
          · rintro _ ⟨⟩
            exact hcode.mono (List.subset_append_left _ _) (List.nil_subset _)
          · exact hcode.mono (List.subset_append_right _ _) (List.Subset.refl _)
      | done tail =>
          refine ⟨hlineage, ?_, hwaiting⟩
          rintro _ ⟨⟩
          exact hcode
      | branch cond c f =>
          unfold advance Trail.advance
          dsimp only
          cases hcall : chooseFlag p m env cond c f with
          | error s => exact fits_stalled (due_of_chooseFlag hcall) hlineage hcode hwaiting
          | ok call =>
              refine ⟨hlineage, ?_, hwaiting⟩
              rintro _ ⟨⟩
              exact hcode.mono (List.cons_subset.mpr ⟨mem_calls_of_chooseFlag hcall, List.nil_subset _⟩) (List.nil_subset _)
      | case scrut alts default =>
          unfold advance Trail.advance
          dsimp only
          cases hcall : chooseAlt p m env scrut alts default with
          | error s => exact fits_stalled (due_of_chooseAlt hcall) hlineage hcode hwaiting
          | ok call =>
              refine ⟨hlineage, ?_, hwaiting⟩
              rintro _ ⟨⟩
              exact hcode.mono (List.cons_subset.mpr ⟨mem_calls_of_chooseAlt hcall, List.nil_subset _⟩) (List.nil_subset _)

theorem fits_hand {vals : List Value} (h : t.Fits p (.hand vals stack)) :
    Trail.Fits p (advance p (.hand vals stack, m)).1 (t.advance p (.hand vals stack, m)) := by
  obtain ⟨here, waiting⟩ := t
  obtain ⟨hlineage, -, hwaiting⟩ := h
  cases hwaiting with
  | nil => exact ⟨hlineage, trivial, .nil⟩
  | cons hframe hrest =>
      rename_i frame here' stack waiting
      cases frame with
      | bind vars next env =>
          unfold advance
          dsimp only
          split
          · exact ⟨hframe.1, trivial, hrest⟩
          · refine ⟨hframe.1, ?_, hrest⟩
            rintro _ ⟨⟩
            exact Belongs.assign hframe.2
      | top id saved resume =>
          cases resume with
          | none => exact ⟨hframe.1, trivial, hrest⟩
          | some r =>
              cases r with
              | operation tail env => exact ⟨hframe.1, hframe.2, hrest⟩
              | code c env =>
                  refine ⟨hframe.1, ?_, hrest⟩
                  rintro _ ⟨⟩
                  exact hframe.2

/-- Every transition keeps the trail. -/
theorem Trail.Fits.advance (hp : p.DistinctBinders) (har : p.MatchingArities) (h : t.Fits p d) (m : Machine) :
    Trail.Fits p (Machine.advance p (d, m)).1 (t.advance p (d, m)) := by
  cases d with
  | count tail env stack =>
      obtain ⟨hlineage, hdoing, hwaiting⟩ := h
      unfold Machine.advance
      dsimp only
      split
      · exact ⟨hlineage, trivial, hwaiting⟩
      · cases tail with
        | none => exact ⟨hlineage, trivial, hwaiting⟩
        | some tail => exact ⟨hlineage, hdoing tail rfl, hwaiting⟩
  | perform tail env stack => exact fits_perform hp har h
  | body c env stack => exact fits_body h
  | hand vals stack => exact fits_hand h
  | unwind e stack =>
      obtain ⟨here, waiting⟩ := t
      obtain ⟨hlineage, -, hwaiting⟩ := h
      cases hwaiting with
      | nil => exact ⟨hlineage, trivial, .nil⟩
      | cons hframe hrest =>
          rename_i frame _ _ _
          cases frame <;> exact ⟨hframe.1, trivial, hrest⟩
  | ended r => exact h

theorem fits_begin (hp : p.DistinctBinders) (m : Machine) (id : DefnId) (args : List Value) :
    Trail.Fits p (begin p m id args).1 (Trail.begin p m id args) := by
  unfold Trail.begin begin
  cases hd : p.defn (p.resolve id) with
  | error e => exact ⟨.nil p, trivial, .nil⟩
  | ok d =>
      dsimp only
      cases hbody : d.body with
      | block b =>
          have hb := block_eq (exists_of_defn hd) hbody
          dsimp only
          split
          · exact ⟨.nil p, trivial, .nil⟩
          · rename_i hlen
            refine ⟨⟨.singleton _, fun x hx b' hb' => ?_⟩, ?_, .nil⟩
            · cases List.mem_singleton.mp hx
              rw [Except.ok.inj (hb'.symm.trans hb)]
              exact not_not.mp hlen
            · exact fun code hcode => belongs_body hp hb hcode args []
      | top tl =>
          dsimp only
          cases hvals : topValues p { m with pos := d.pos } (p.resolve id) with
          | ok vals => exact ⟨.nil p, trivial, .nil⟩
          | error s =>
              have hresume : (Frame.top 0 d.pos none).Belongs p [] := trivial
              have hstalled := fits_stalled (t := ⟨[], []⟩) (errs_topValues _ s hvals) (.nil p) hresume .nil
              cases s <;> exact hstalled
      | closure k | external e => exact ⟨.nil p, trivial, .nil⟩

theorem Walks.fits (hp : p.DistinctBinders) (har : p.MatchingArities) {x : Doing × Machine}
    (h : Walks p x t) : t.Fits p x.1 := by
  induction h with
  | call m id args => exact fits_begin hp m id args
  | advance _ ih => exact ih.advance hp har _
  | giveUp _ ih => exact ⟨ih.lineage, trivial, ih.waiting⟩

end Fits

end Mil.Machine
