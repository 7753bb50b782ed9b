import Mil.Proofs.Optimize.Trim
import Mil.Proofs.Rep.Carry

/-!
Removal of parameters preserves behaviour. Every move of a job is followed by what is left of the job,
so whatever comes of a run comes of it after the removal too: the same values but for what closures
store, or the same failure, and that in no more steps.
-/

namespace Mil

namespace Machine

open Optimize
open Needs (keep)

/-! ### Moves -/

/-- Both end with values that are related, or with the same failure. -/
inductive EndsAlike (A : List Value → List Value → Prop) :
    Except Failure (List Value) → Except Failure (List Value) → Prop
  | ok {vs vs' : List Value} (h : A vs vs') : EndsAlike A (.ok vs) (.ok vs')
  | error (f : Failure) : EndsAlike A (.error f) (.error f)

section Moves

variable {p p' : Program} {R : DefnId → Prop} {needs : Needs} {m m' : Machine} {live : Prop}
  {j j' : Job}

theorem JobTrim.leavesTrace (h : JobTrim R needs j j') : j'.leavesTrace = j.leavesTrace := by
  cases h with
  | tail ht _ _ => cases ht <;> rfl
  | code => rfl

theorem effect_trims {e e' : Effect} (h : EffectTrim R needs e e') :
    Answers live (fun _ => False) (MoveTrim R needs) e.move e'.move := by
  cases h with
  | values h => exact .ok (.values h)
  | body h =>
      cases h with
      | none => exact .defect
      | some h => exact .ok (.job h)
  | tail h =>
      cases h with
      | none => exact .defect
      | some h => exact .ok (.job h)

/-- A job of which less is left does the same. -/
theorem move_trims (h : Leaner p p' R needs) (hm : MachineTrim R needs m m')
    (hlive : live → m.active = []) (hj : JobTrim R needs j j') :
    Answers live (fun _ => False) (StepTrim (MoveTrim R needs) R needs) (j.move p m)
      (j'.move p' m') := by
  cases hj with
  | tail ht hrefs henv =>
      refine (operate_trims h hm hlive ht hrefs henv).bind ?_
      rintro ⟨e, m₁⟩ ⟨e', m₁'⟩ ⟨he, hm₁⟩
      exact (effect_trims he).bind fun mv mv' hmv => .ok ⟨hmv, hm₁⟩
  | @code c c' env env' hc hrefs henv =>
      have hcall {x x' : BlockCall} (hx : CallTrim needs x x') (hxrefs : (Tail.call x).refs ⊆ c.refs)
          (hxenv : needs.operands (.call x) ⊆ needs.codeOperands c) :
          JobTrim R needs (.tail (.call x) env) (.tail (.call x') env') :=
        .tail (.call hx) (fun i hi => hrefs i (hxrefs hi)) (henv.mono hxenv)
      cases hc with
      | @bind vars t t' next next' ht hnext =>
          refine .ok ⟨.bind (.tail ht (fun i hi => hrefs i (List.mem_append_left _ hi))
            (henv.mono (List.subset_append_left _ _))) fun vs vs' hvs => ?_, hm⟩
          exact .code hnext (fun i hi => hrefs i (List.mem_append_right _ hi))
            ((henv.mono (List.subset_append_right _ _)).assign vars hvs)
      | done ht => exact .ok ⟨.job (.tail ht hrefs henv), hm⟩
      | @branch cond x x' y y' hx hy =>
          have hflag : ∀ i, cond.defn? = some i → R i := fun i hi =>
            hrefs i (List.mem_append_left _ (List.mem_append_left _ (Option.mem_toList.mpr hi)))
          have hx := hcall hx (fun i hi => List.mem_append_left _ (List.mem_append_right _ hi))
            fun a ha => List.mem_append_left _ (.tail _ ha)
          have hy := hcall hy (List.subset_append_right _ _) (List.subset_append_right _ _)
          exact (chooseFlag_trims h hm hlive henv (.head _) hflag (C := fun x x' =>
            JobTrim R needs (.tail (.call x) env) (.tail (.call x') env')) hx hy).bind
              fun z z' hz => .ok ⟨.job hz, hm⟩
      | @case scrut alts alts' default default' halts hdefault =>
          have hscrut : ∀ i, scrut.defn? = some i → R i := fun i hi =>
            hrefs i (List.mem_append_left _ (Option.mem_toList.mpr hi))
          have hcalls {x x' : BlockCall} (hx : CallTrim needs x x')
              (hmem : x ∈ (Code.case scrut alts default).calls) :
              JobTrim R needs (.tail (.call x) env) (.tail (.call x') env') :=
            hcall hx (fun i hi => List.mem_append_right _ (List.mem_flatMap.mpr ⟨x, hmem, hi⟩))
              fun a ha => .tail _ (List.mem_flatMap.mpr ⟨x, hmem, ha⟩)
          have halts : List.Forall₂ (fun a a' => a'.1 = a.1 ∧
              JobTrim R needs (.tail (.call a.2) env) (.tail (.call a'.2) env')) alts alts' := by
            have hmem : ∀ a ∈ alts, a.2 ∈ (Code.case scrut alts default).calls := fun a ha =>
              List.mem_append_left _ (List.mem_map.mpr ⟨a, ha, rfl⟩)
            exact ((List.forall₂_and_left alts alts').mpr ⟨hmem, halts⟩).imp
              fun a a' ha => ⟨ha.2.1, hcalls ha.2.2 ha.1⟩
          have hdefault : Option.Rel (fun x x' =>
              JobTrim R needs (.tail (.call x) env) (.tail (.call x') env')) default default' := by
            cases hdefault with
            | none => exact .none
            | some hx => exact .some (hcalls hx (List.mem_append_right _ (.head _)))
          exact (chooseAlt_trims h hm hlive henv (.head _) hscrut (C := fun x x' =>
            JobTrim R needs (.tail (.call x) env) (.tail (.call x') env')) halts hdefault).bind
              fun z z' hz => .ok ⟨.job hz, hm⟩

theorem exists_move_trims (h : Leaner p p' R needs) (hm : MachineTrim R needs m m')
    (hj : JobTrim R needs j j') {mv : Move} {m₁ : Machine} (hmove : j.move p m = .ok (mv, m₁)) :
    ∃ mv' m₁', j'.move p' m' = .ok (mv', m₁') ∧ MoveTrim R needs mv mv' ∧
      MachineTrim R needs m₁ m₁' := by
  have hans := move_trims h hm (fun hf : False => hf.elim) hj
  rw [hmove] at hans
  generalize j'.move p' m' = y at hans
  cases hans with
  | @ok _ r hr => exact ⟨r.1, r.2, rfl, hr.1, hr.2⟩
  | late h => exact h.elim

theorem failure_trims (h : Leaner p p' R needs) (hm : MachineTrim R needs m m')
    (hactive : m.active = []) (hj : JobTrim R needs j j') {f : Failure}
    (hmove : j.move p m = .error (.halt (.failure f))) :
    j'.move p' m' = .error (.halt (.failure f)) := by
  have hans := move_trims h hm (fun _ : True => hactive) hj
  rw [hmove] at hans
  generalize j'.move p' m' = y at hans
  cases hans with
  | failure => rfl
  | dead h => exact absurd trivial h
  | late h => exact h.elim

theorem MachineTrim.tick (h : MachineTrim R needs m m') : MachineTrim R needs m.tick m'.tick :=
  ⟨h.size, h.pos, h.trace, congrArg Nat.succ h.steps, h.tops⟩

theorem MachineTrim.taking (h : MachineTrim R needs m m') (hj : JobTrim R needs j j') :
    MachineTrim R needs (m.taking j) (m'.taking j') := by
  cases hj with
  | tail => exact h.tick
  | code => exact h

/-- Whatever a job comes to, what is left of it comes to what is left of that, in as many steps. -/
theorem Comes.trims {quiet : Prop} {o : Except Failure (List Value)} {mf : Machine}
    (hc : Comes p quiet m j o mf) (h : Leaner p p' R needs) (hj : JobTrim R needs j j')
    (hm : MachineTrim R needs m m') (hactive : ∀ f, o = .error f → m.active = []) :
    ∃ o' mf', Comes p' quiet m' j' o' mf' ∧ EndsAlike (ValuesTrim R needs) o o' ∧
      MachineTrim R needs mf mf' := by
  induction hc generalizing m' j' with
  | values hquiet hmove =>
      obtain ⟨mv', m₁', hmove', hmv, hm₁⟩ := exists_move_trims h hm hj hmove
      cases hmv with
      | values hvs => exact ⟨_, m₁', .values (hj.leavesTrace ▸ hquiet) hmove', .ok hvs, hm₁⟩
  | @fails m j f hmove =>
      exact ⟨_, m', .fails (failure_trims h hm (hactive f rfl) hj hmove), .error f, hm⟩
  | @job m m₁ mf j k o hquiet hmove _ ih =>
      obtain ⟨mv', m₁', hmove', hmv, hm₁⟩ := exists_move_trims h hm hj hmove
      cases hmv with
      | job hk =>
          have hsteady := (steady_move hmove).trans (.taking m₁ k)
          obtain ⟨o', mf', hrest, ho, hmf⟩ := ih hk (hm₁.taking hk)
            fun f hf => hsteady.active.trans (hactive f hf)
          exact ⟨o', mf', .job (hj.leavesTrace ▸ hquiet) hmove' hrest, ho, hmf⟩
  | @bind m m₁ m₂ mf j vars t env next vs o hquiet hmove htail hlen _ ih₁ ih₂ =>
      obtain ⟨mv', m₁', hmove', hmv, hm₁⟩ := exists_move_trims h hm hj hmove
      cases hmv with
      | bind ht hnext =>
          have hsteady := (steady_move hmove).trans (.tick m₁)
          obtain ⟨_, m₂', htail', hvs, hm₂⟩ := ih₁ ht hm₁.tick nofun
          cases hvs with
          | ok hvs =>
              obtain ⟨o', mf', hrest, ho, hmf⟩ := ih₂ (hnext _ _ hvs) hm₂
                fun f hf => (hsteady.trans htail.steady).active.trans (hactive f hf)
              exact ⟨o', mf', .bind (hj.leavesTrace ▸ hquiet) hmove' htail'
                (hvs.length_eq.symm.trans hlen) hrest, ho, hmf⟩
  | @breaks m m₁ mf j vars t env next f hquiet hmove _ ih =>
      obtain ⟨mv', m₁', hmove', hmv, hm₁⟩ := exists_move_trims h hm hj hmove
      cases hmv with
      | bind ht hnext =>
          have hsteady := (steady_move hmove).trans (.tick m₁)
          obtain ⟨_, mf', htail', ho, hmf⟩ := ih ht hm₁.tick
            fun f' hf => hsteady.active.trans (hactive f' hf)
          cases ho
          exact ⟨_, mf', .breaks (hj.leavesTrace ▸ hquiet) hmove' htail', .error f, hmf⟩

/-- The table without what the closures in it do not need. There are none among the values that are
there from the start. -/
theorem Settled.trims {m₀ : Machine} {S : Table} (hS : Settled p m₀ S) (h : Leaner p p' R needs)
    (hfree : ∀ {i vs}, m₀.tops.lookup i = some vs → Value.closureFrees vs = true) :
    ∃ S', Settled p' m₀ S' ∧ S'.cost ≤ S.cost ∧
      (∀ {i : DefnId} {vs : List Value}, R i → S.tops.lookup i = some vs →
        ∃ vs', S'.tops.lookup i = some vs' ∧ ValuesTrim R needs vs vs') ∧
      ∀ {i : DefnId}, S.tops.lookup i = none → S'.tops.lookup i = none := by
  induction hS with
  | given =>
      refine ⟨_, .given, Nat.le_refl _, fun {i vs} _ hi => ⟨vs, hi, valuesTrim_self ?_⟩, id⟩
      rw [Table.tops_given] at hi
      exact hfree hi
  | @cons e S d l t m mf _ hnew hd hbody htail hsize htops hrun hcost ih =>
      obtain ⟨S', hS', hle, hvals, hnone⟩ := ih
      by_cases hid : R e.id
      · obtain ⟨d₀, d', hd₀, hd', htrim⟩ := h.defns hid
        cases hd.symm.trans hd₀
        have hrefs := h.region.refs hid hd
        have htrim := htrim.body
        generalize hbody' : d'.body = body' at htrim
        rw [hbody] at htrim hrefs
        rw [DefnBody.refs, htail] at hrefs
        cases htrim with
        | @top _ l' htrim =>
            generalize htail' : l'.tail = tail' at htrim
            rw [htail] at htrim
            cases htrim with
            | some ht =>
                have hm : MachineTrim R needs m { m with tops := S'.tops } :=
                  ⟨rfl, rfl, rfl, rfl, fun hi hlookup => hvals hi (htops ▸ hlookup)⟩
                obtain ⟨_, mf', hrun', ho, hmf⟩ :=
                  hrun.trims h (.tail ht hrefs (.nil R needs _)) hm (by rintro _ ⟨⟩)
                cases ho with
                | @ok _ vs' hvs =>
                    refine ⟨⟨e.id, vs', e.cost⟩ :: S', .cons (m := { m with tops := S'.tops }) hS'
                      (hnone hnew) hd' hbody' htail' hsize rfl hrun'
                      (hcost.trans (congrArg Nat.succ hmf.steps.symm)), ?_, ?_, ?_⟩
                    · rw [Table.cost_cons, Table.cost_cons]
                      exact Nat.add_le_add_left hle _
                    · intro i us hi hus
                      rw [Table.lookup_cons] at hus ⊢
                      split at hus
                      · rename_i heq
                        cases hus
                        exact ⟨vs', if_pos heq, hvs⟩
                      · rename_i hne
                        rw [if_neg hne]
                        exact hvals hi hus
                    · intro i hi
                      rw [Table.lookup_cons] at hi ⊢
                      split at hi
                      · cases hi
                      · rename_i hne
                        rw [if_neg hne]
                        exact hnone hi
      · -- what the region does not refer to is left out
        refine ⟨S', hS', ?_, fun {i us} hi hus => ?_, fun {i} hi => ?_⟩
        · rw [Table.cost_cons]
          exact Nat.le_add_left_of_le hle
        · have hne : i ≠ e.id := fun heq => hid (heq ▸ hi)
          rw [Table.lookup_cons, if_neg hne] at hus
          exact hvals hi hus
        · rw [Table.lookup_cons] at hi
          split at hi
          · cases hi
          · exact hnone hi

end Moves

/-! ### Runs -/

section Runs

variable {p p' : Program} {R : DefnId → Prop} {needs : Needs} {id : DefnId} {d : Defn} {b : Block}
  {args : List Value} {o : Except Failure (List Value)} {m₀ m : Machine}

theorem EndsAlike.imp {A B : List Value → List Value → Prop} {o' : Except Failure (List Value)}
    (h : EndsAlike A o o') (hAB : ∀ vs vs', A vs vs' → B vs vs') : EndsAlike B o o' := by
  cases h with
  | ok h => exact .ok (hAB _ _ h)
  | error f => exact .error f

/-- A block that is given too few or too many values fails at once. -/
theorem start_of_length_ne (hresolve : ∀ id, p.resolve id = id) (hd : p.defns[id]? = some d)
    (hb : d.body = .block b) (hlen : args.length ≠ b.params.length) :
    start p m id args = (.halt ({ m with pos := d.pos }.fail (d.name ++ " expects " ++
      toString b.params.length ++ " arguments, got " ++ toString args.length)),
      { m with pos := d.pos }) := by
  unfold start Program.defn
  dsimp only
  rw [hresolve, hd]
  dsimp only
  rw [hb]
  dsimp only
  rw [if_pos hlen]

/-- A run of a block that needs all its parameters ends in the same way if what is not needed is
missing, if no closure is among the arguments and the values that are there from the start. -/
theorem Leaner.ends (h : Leaner p p' R needs) {T : Table} (hT : Covers p m₀ R T)
    (hfree : ∀ {i vs}, m₀.tops.lookup i = some vs → Value.closureFrees vs = true) (hid : R id)
    (hd : p.defns[id]? = some d) (hb : d.body = .block b)
    (hall : ∀ bits, needs.lookup id = some bits → bits.count true = bits.length)
    (hargs : Value.closureFrees args = true) (hrun : Ends p m₀ id args o m) :
    ∃ o' m', Ends p' m₀ id args o' m' ∧ EndsAlike (List.Forall₂ Value.Alike) o o' ∧
      m'.trace = m.trace ∧ m'.steps ≤ m.steps := by
  obtain ⟨d', b', bits, hd', hb', hname, hpos, hbits, hlen, hparams, hjob⟩ := h.block hid hd hb
  have hsame : b'.params = b.params := by rw [hparams, Needs.keep_eq_self hlen (hall bits hbits)]
  by_cases hcount : args.length = b.params.length
  · obtain ⟨c, hc, hwithin, hleads⟩ :=
      hrun.leads_body h.region hid hd hb (Value.within_of_closureFrees hargs) hcount
    obtain ⟨S, w, hS, hcomes, htrace, hsteps⟩ := exists_comes hT hwithin hleads
    obtain ⟨S', hS', hcost, hvals, -⟩ := hS.trims h hfree
    have hargs' : ValuesTrim R needs (keep args bits) args := by
      rw [Needs.keep_eq_self (hcount.trans hlen) (hall bits hbits)]
      exact valuesTrim_self hargs
    have hjob := hjob (hcount.trans hlen) hargs'
    generalize hc' : b'.body = code' at hjob
    rw [hc] at hjob
    cases hjob with
    | some hjob =>
        have hm : MachineTrim R needs ({ m₀ with pos := d.pos }.under S)
          ({ m₀ with pos := d.pos }.under S') := ⟨rfl, rfl, rfl, rfl, hvals⟩
        obtain ⟨o', w', hcomes', ho, hw⟩ := hcomes.trims h hjob hm fun _ _ => rfl
        obtain ⟨m', hleads, htrace', hsteps'⟩ := hcomes'.leads hT.toAtRest hS' rfl rfl rfl rfl hpos.symm
        refine ⟨o', m', ?_, ho.imp fun _ _ hvs => hvs.alike,
          htrace'.trans (hw.trace.trans htrace), ?_⟩
        · unfold Ends
          rw [start_block (h.resolve _) hd' hb' hc' (hsame ▸ hcount)]
          exact hleads
        · have hsame : (({ m₀ with pos := d.pos } : Machine).under S').steps = m₀.steps := rfl
          have hsteps'' := hw.steps
          omega
  · unfold Ends at hrun
    rw [start_of_length_ne h.region.resolve hd hb hcount] at hrun
    obtain ⟨ho, rfl⟩ := hrun.unique (leads_halt p _ _)
    obtain rfl : o = .error ⟨d.pos, .runtime, d.name ++ " expects " ++
      toString b.params.length ++ " arguments, got " ++ toString args.length⟩ := ending_injective ho
    refine ⟨_, { m₀ with pos := d.pos }, ?_, .error _, rfl, Nat.le_refl _⟩
    unfold Ends
    rw [start_of_length_ne h.resolve hd' hb' (hsame ▸ hcount), hname, hpos, hsame]
    exact leads_halt p' _ _

end Runs

end Machine

namespace Optimize

open Machine

section Runs

variable {p p' : Program}

/-- What the pass makes of a regular program. -/
theorem leaner_of_trimmed (hp : p.Linked) (hregular : p.Regular)
    (h : Trimmed p p' (Needs.least p p.reachable)) :
    Leaner p p' (· ∈ p.reachable) (Needs.least p p.reachable) where
  region := ⟨Program.resolve_of_whole hp.whole, hp.refs⟩
  resolve := Program.resolve_of_whole (h.whole hp.whole)
  defns hid := by
    obtain ⟨d, hd⟩ := Program.exists_of_reachable hid
    obtain ⟨d', hd', htrim⟩ := h.defns hid hd
    exact ⟨d, d', hd, hd', htrim⟩
  nodup {id d} hid hd := nodup_params (hregular id hid d hd)
  needed {id d bits} hid hd hbits t ht hmem :=
    Needs.mem_least hbits hd (nodup_params (hregular id hid d hd)) ht hmem
  resolved {id d} hid hd := (hregular id hid d hd).2.2

end Runs

mutual

theorem alike_refl (v : Value) : v.Alike v := by
  cases v with
  | word w => exact .word w
  | flag b => exact .flag b
  | closure i fields => exact .closure _ _ _ _
  | data k fields => exact .data (alikes_refl fields)
termination_by sizeOf v

theorem alikes_refl (vs : List Value) : List.Forall₂ Value.Alike vs vs := by
  cases vs with
  | nil => exact .nil
  | cons v vs => exact .cons (alike_refl v) (alikes_refl vs)
termination_by sizeOf vs

end

/-- Removal of parameters preserves behaviour: if a program is loaded, checked, specialised and
represented in words, its definitions bind each temporary once, its calls and allocations match their
targets, its externals have implementations and its top-level definitions are silent, then the removal
goes through, and a run of an entrypoint on arguments without closures that ends still ends in the same
way. It prints the same words, leaves the same memory and takes no more steps. -/
theorem removeUnused_ends {width size : Int} {q : Program} (hq : q.Lowered width)
    (hregular : q.Regular) (htops : SilentTops q size) {id : DefnId} {d : Defn} {b : Block}
    (hentry : id ∈ q.entries) (hd : q.defns[id]? = some d) (hflag : d.entry = true)
    (hb : d.body = .block b) {args : List Value} {o : Except Failure (List Value)} {m : Machine}
    (hargs : Value.closureFrees args = true) (hrun : Ends q (.new size 0) id args o m) :
    ∃ changed q' o' m', removeUnused q = .ok (changed, q') ∧ Ends q' (.new size 0) id args o' m' ∧
      EndsAlike (List.Forall₂ Value.Alike) o o' ∧ m'.printed = m.printed ∧ m'.memory = m.memory ∧
      m'.steps ≤ m.steps := by
  have hlinked := hq.linked
  obtain ⟨changed, q', hremove, rfl | htrimmed⟩ := removeUnused_trims hlinked hregular
  · refine ⟨changed, q', o, m, hremove, hrun, ?_, rfl, rfl, Nat.le_refl _⟩
    cases o with
    | ok vs => exact .ok (alikes_refl vs)
    | error f => exact .error f
  · have hleaner := leaner_of_trimmed hlinked hregular htrimmed
    obtain ⟨T, hT⟩ := exists_covers hlinked htops.provided nofun
    obtain ⟨o', m', hrun', ho, htrace, hsteps⟩ := hleaner.ends hT nofun (hlinked.entries id hentry) hd hb
      (fun bits hbits => (Needs.lookup_least hbits hd).2 hflag) hargs hrun
    obtain ⟨hmemory, hprinted⟩ := Prod.mk.inj htrace
    exact ⟨changed, q', o', m', hremove, hrun', ho, hprinted, hmemory, hsteps⟩

/-- A text with a closure that stores a value which it does not use, and is itself passed to a block
that does not use it. -/
def idleText : String :=
  "closures:\n- name: plus\n  stored: [a, u]\n  args: [z]\n  tail: \x7bprim: add, args: [a, z]\x7d\n" ++
  "blocks:\n- name: f\n  type: \"[Word] >>= [Word]\"\n  params: [x]\n  code:\n  - bind: [k]\n" ++
  "    alloc: plus\n    args: [5, x]\n  - bind: [y]\n    enter: k\n    args: [x]\n  - call: h\n" ++
  "    args: [y, k]\n- name: h\n  params: [a, u]\n  code:\n  - return: [a]\n"

/-- Does the first definition, an entrypoint, return eight for three within some steps, is the program
regular and silent, and are there parameters to remove? -/
def returnsEight (q : Program) (n : Nat) : Bool :=
  match loop q n (start q (.new 64 0) 0 [.word 3]).1 (start q (.new 64 0) 0 [.word 3]).2 with
  | (.ok [.word w], _) =>
    decide (w = 8 ∧ 0 ∈ q.entries ∧ q.Regular) && (q.defns[0]?).any Defn.entry &&
      (q.block? 0).isSome && silentWithin q (.new 64 0) n && (removeUnused q).toOption.any Prod.fst
  | _ => false

theorem removeUnused_ends_idle : ∃ q q' o' m m', q.Lowered 64 ∧ q.Regular ∧
    Ends q (.new 64 0) 0 [.word 3] (.ok [.word 8]) m ∧ removeUnused q = .ok (true, q') ∧
    Ends q' (.new 64 0) 0 [.word 3] o' m' ∧
    EndsAlike (List.Forall₂ Value.Alike) (.ok [.word 8]) o' ∧ m'.printed = m.printed ∧
    m'.steps ≤ m.steps := by
  have hall : (lowered "idle" idleText ["f"] 64).any (fun q => returnsEight q 10) = true := by
    rw [lowered, Typing.accepted_eq _ idleText _
      (toList_append_ofList (toList_append_ofList (toList_append_ofList String.toList_ofList)))]
    decide +kernel
  obtain ⟨q, hq, hall⟩ := (Option.any_eq_true _ _).mp hall
  unfold returnsEight at hall
  split at hall
  · rename_i w m hloop
    simp only [Bool.and_eq_true, decide_eq_true_eq] at hall
    obtain ⟨⟨⟨⟨⟨rfl, hentry, hregular⟩, hflag⟩, hblock⟩, hsilent⟩, hchanged⟩ := hall
    obtain ⟨b, hb⟩ := Option.isSome_iff_exists.mp hblock
    obtain ⟨d, hd, hb⟩ := Source.exists_of_block? hb
    rw [hd] at hflag
    have hrun : Returns q (.new 64 0) 0 [.word 3] [.word 8] m := ⟨10, hloop⟩
    obtain ⟨changed, q', o', m', hremove, hrun', ho, hprinted, -, hsteps⟩ :=
      removeUnused_ends (lowered_spec hq) hregular (silentTops_of_within hsilent) hentry hd hflag hb
        rfl hrun.ends
    rw [hremove] at hchanged
    obtain rfl : changed = true := hchanged
    exact ⟨q, q', o', m, m', lowered_spec hq, hregular, hrun.ends, hremove, hrun', ho, hprinted, hsteps⟩
  · cases hall

end Optimize

end Mil
