import Mil.Proofs.Machine.Preserve
import Mil.Proofs.Machine.Soundness
import Mil.Proofs.Rtl.Simulate
import Mil.Proofs.Rtl.Success
import Mil.Proofs.Rtl.WellFormed

/-!
The register transfer program of a word-level program does what the program does. By induction over a
run of the machine, everything that it works on is mirrored by the code that stands for it, wherever
that is placed. For an entrypoint block this says that its function, on the words that carry the
arguments, returns the words that carry the results, and that the same is printed.

The machine never waits for a top-level value here, since word-level programs of blocks and closures
have none.
-/

namespace Mil

/-! ### Operands -/

namespace Typing

variable {Γ : Context} {a : Atom}

theorem ArgsHave.exists_atomHas {as : List Atom} {τs : List Ty} (h : ArgsHave Γ as τs) (ha : a ∈ as) :
    ∃ τ, AtomHas Γ a τ := by
  obtain ⟨τ, -, hτ⟩ := Machine.exists_of_mem_right (List.Forall₂.flip h) ha
  exact ⟨τ, hτ⟩

/-- Every operand of a tail has a type. -/
theorem TailHas.exists_atomHas {t : Tail} {τ : Ty} (h : TailHas Γ t τ) (ha : a ∈ t.atoms) :
    ∃ σ, AtomHas Γ a σ := by
  cases h with
  | ret hargs => exact hargs.exists_atomHas ha
  | call hcall =>
      cases hcall with
      | mk _ _ hargs => exact hargs.exists_atomHas ha
  | prim _ _ hargs => exact hargs.exists_atomHas ha
  | alloc _ hargs => exact hargs.exists_atomHas ha
  | data _ hargs => exact hargs.exists_atomHas ha
  | enter hfn hargs =>
      rcases List.mem_cons.mp ha with rfl | ha
      · exact ⟨_, hfn⟩
      · exact hargs.exists_atomHas ha
  | sel _ _ _ harg => exact ⟨_, List.mem_singleton.mp ha ▸ harg⟩

end Typing

namespace Rtl

open Typing BuildM
open Machine (Works Job)

variable {n : Nat}

section Runs

variable {cx : Setting} {fields : FieldLayout} {S : Symbols} {out : Program} {env : Machine.Locals}
  {m m₁ m' : Machine} {vals : List Value} {ρs : List Ty}

/-- A tail of a program without top-level values does not wait for one. -/
theorem ends_tail (hcx : cx.Plain n fields) {t : Tail} (ht : TailOk cx fields t ρs) :
    Machine.Errs Machine.Stall.Ends (Job.move cx.program m (.tail t env)) :=
  Machine.ends_move fun a ha => by
    obtain ⟨τ, hτ⟩ := ht.typed.exists_atomHas ha
    exact hcx.defn?_eq_none hτ (ht.reach a ha)

/-- Nor does a body. -/
theorem ends_code (hcx : cx.Plain n fields) {c : Code} (hc : CodeOk cx fields c ρs) :
    Machine.Errs Machine.Stall.Ends (Job.move cx.program m (.code c env)) := by
  refine Machine.ends_move fun a ha => ?_
  cases c with
  | bind | done => cases ha
  | branch cond t f =>
      obtain rfl := List.mem_singleton.mp ha
      cases hc.typed with
      | branch hcond _ _ =>
          exact hcx.defn?_eq_none hcond fun id hid => hc.refs id (by simp [Code.refs, hid])
  | case scrut alts default =>
      obtain rfl := List.mem_singleton.mp ha
      cases hc.typed with
      | case hscrut _ _ =>
          exact hcx.defn?_eq_none hscrut fun id hid => hc.refs id (by simp [Code.refs, hid])

/-- A tail that is not counted yet. -/
theorem TailEnds.of_tick {t : Tail} (h : TailEnds n cx fields S out t env m.tick vals m') :
    TailEnds n cx fields S out t env m vals m' :=
  fun _ _ _ _ _ _ _ hsite hfit hbuilds hagree => h hsite hfit hbuilds hagree.tick

/-- What the machine works on is mirrored by code: by induction over the run, with one case for each
kind of move. -/
theorem mirrors_of_works (hcx : cx.Plain n fields) (hlinked : Linked cx S out) {j : Job}
    (h : Works cx.program m j vals m') : Mirrors n cx fields S out m vals m' j := by
  induction h with
  | @values m m' j vals hstraight hmove =>
      cases j with
      | tail t env =>
          obtain ⟨e, hop, he⟩ := Machine.move_tail_inv hmove
          obtain rfl := Machine.Effect.values_of_move he
          exact ⟨tailEnds_of_values hcx hstraight hop, tailBinds_of_values hcx hstraight hop⟩
      | code c env =>
          cases c with
          | bind | done => cases hmove
          | branch | case =>
              obtain ⟨_, -, hmove⟩ := Except.bind_eq_ok.mp hmove
              cases hmove
  | @job m m₁ m' j j' vals _ hmove _ ih =>
      cases j with
      | tail t env =>
          obtain ⟨e, hop, he⟩ := Machine.move_tail_inv hmove
          rcases Machine.Effect.job_of_move he with ⟨c, env', rfl, rfl⟩ | ⟨t', env', rfl, rfl⟩
          · obtain ⟨call, rfl⟩ := Machine.eq_call_of_operate hop
            exact ⟨tailEnds_of_call hcx hlinked hop ih, tailBinds_of_call hcx hlinked hop ih⟩
          · obtain ⟨fn, args, rfl⟩ := Machine.eq_enter_of_operate hop
            have hends := TailEnds.of_tick ih.1
            exact ⟨tailEnds_of_enter hcx hlinked hop hends, tailBinds_of_enter hcx hlinked hop hends⟩
      | code c env =>
          cases c with
          | bind => cases hmove
          | done t =>
              cases hmove
              exact codeEnds_of_done ih.1
          | branch cond c d =>
              obtain ⟨call, hchoose, hmove⟩ := Except.bind_eq_ok.mp hmove
              cases hmove
              exact codeEnds_of_branch hcx hchoose ih.1
          | case scrut alts default =>
              obtain ⟨call, hchoose, hmove⟩ := Except.bind_eq_ok.mp hmove
              cases hmove
              exact codeEnds_of_case hcx hchoose ih.1
  | @bind m m₁ m₂ m' j vars t env next vs vals hmove htail _ _ ih ih' =>
      cases j with
      | tail t' env' =>
          obtain ⟨e, -, he⟩ := Machine.move_tail_inv hmove
          unfold Machine.Effect.move at he
          split at he <;> cases he
      | code c env =>
          cases c with
          | bind =>
              cases hmove
              exact codeEnds_of_bind hcx htail.size ih.2 ih'
          | done => cases hmove
          | branch | case =>
              obtain ⟨_, -, hmove⟩ := Except.bind_eq_ok.mp hmove
              cases hmove
  | @stall m m₁ m' j id pos t vs vals hmove _ _ _ _ =>
      cases j with
      | tail t' env =>
          exact ⟨fun _ _ _ _ _ _ _ _ hfit => (ends_tail hcx hfit.ok _ hmove).elim,
            fun _ _ _ _ _ _ _ _ _ _ hfit => (ends_tail hcx hfit.ok _ hmove).elim⟩
      | code c env => exact fun _ _ _ _ _ _ _ _ hfit => (ends_code hcx hfit.ok _ hmove).elim

end Runs

/-! ### Whole programs -/

section Programs

variable {cx : Setting} {fields : FieldLayout} {outside taken : List String} {done : List DefnId}
  {o : Output} {size : Int}

/-- The functions of a finished program are found under the symbols of their definitions. -/
theorem linked_of_sound (ho : o.Sound cx outside taken done) (hroots : ∀ id ∈ cx.roots, id ∈ done)
    (hreach : ∀ id ∈ cx.program.reachable, id ∈ done) :
    Linked cx o.symbols ⟨size, o.globals, o.layouts, o.functions⟩ := by
  have hfind : ∀ {f raw : Function} {name}, f ∈ o.functions → f.name = raw.name → raw.name = name →
      Program.function? ⟨size, o.globals, o.layouts, o.functions⟩ name = some f := by
    rintro f raw name hf hlike rfl
    exact hlike ▸ function?_of_mem ho.names hf
  constructor
  · intro id d k name hid hd hk hname
    obtain ⟨f, hf, hemits⟩ := ho.blocks (hroots id hid) hid
    cases hemits with
    | @block _ _ raw F hd' hk' hmade hentry hparams hsymbols hname' =>
        cases hd.symm.trans hd'
        cases hk.symm.trans hk'
        exact ⟨f, raw, F, hfind hf hmade.like.name (Option.some.inj (hname'.symm.trans hname)), hmade, hentry,
          hparams, hsymbols⟩
    | closure hd' hk' =>
        cases hd.symm.trans hd'
        cases hk.symm.trans hk'
    | top hd' hl =>
        cases hd.symm.trans hd'
        cases hk.symm.trans hl
  · intro id d k name hid hd hk hname
    obtain ⟨f, hf, hemits, -⟩ := ho.closures (hreach id hid) hd hk
    cases hemits with
    | block hd' hk' =>
        cases hd.symm.trans hd'
        cases hk.symm.trans hk'
    | @closure _ _ raw F results s₀ hd' hk' hmade hopens hparams hsymbols hname' =>
        cases hd.symm.trans hd'
        cases hk.symm.trans hk'
        exact ⟨f, raw, F, results, s₀, hfind hf hmade.like.name (Option.some.inj (hname'.symm.trans hname)),
          hmade, hopens, hparams, hsymbols⟩
    | top hd' hl =>
        cases hd.symm.trans hd'
        cases hk.symm.trans hl

end Programs

end Rtl

/-- A word-level program of blocks and closures that uses built-in primitives only, and no memory. The
numbers of constructors are words. -/
structure Program.Plain (p : Program) (fields : FieldLayout) (n : Nat) : Prop where
  words : p.WordLevel fields
  defns : ∀ {id d}, id ∈ p.reachable → p.defns[id]? = some d →
    (∃ k, d.body = .block k) ∨ ∃ k, d.body = .closure k
  builtin : ∀ {id d}, id ∈ p.reachable → p.defns[id]? = some d → ∀ t ∈ d.body.tails, t.Builtin
  tags : ∀ {name k}, p.env.cfun? name = some k → k.tag < 2 ^ n

section Programs

open Rtl

variable {p : Program} {fields : FieldLayout} {n : Nat}

theorem Program.Plain.setting (hn : Width n) (hp : p.Plain fields n) {chunk : Chunk}
    (hchunk : Chunk.ofBytes? ((n : Int).tdiv 8) = some chunk) : (p.setting n chunk).Plain n fields := by
  have hbytes : (n : Int).tdiv 8 = chunk.bytes ∧ 8 * chunk.bytes = n := by
    rcases hn with rfl | rfl <;> cases hchunk <;> decide
  exact ⟨ready_ofDefns hp.words n _ chunk, hn, rfl, hbytes.1, hbytes.2, hp.defns, hp.builtin, hp.tags⟩

/-- Plain programs have register transfer programs. -/
theorem Program.Plain.exists_toRtl (hn : Width n) (hp : p.Plain fields n) : ∃ out, p.toRtl n = .ok out := by
  obtain ⟨chunk, hchunk⟩ : ∃ chunk, Chunk.ofBytes? ((n : Int).tdiv 8) = some chunk := by
    rcases hn with rfl | rfl <;> exact ⟨_, rfl⟩
  refine Program.exists_toRtl hp.words hchunk fun {id d} hid hd t ht => ?_
  have hbuiltin := hp.builtin hid hd t ht
  cases t with
  | prim q args inst =>
      intro a ha
      cases hbuiltin.2.symm.trans ha
  | ret | call | alloc | data | enter | sel => trivial

/-- A run of a block that returns, without a selection that strays, has a derivation. -/
theorem Machine.works_of_returns {m m' : Machine} {id : DefnId} {d : Defn} {b : Block} {c : Code}
    {args vals : List Value} (hresolve : p.resolve id = id) (hd : p.defns[id]? = some d)
    (hb : d.body = .block b) (hc : b.body = some c) (hfuel : m.fuel ≤ 0)
    (hrun : Returns p m id args vals m') (hstraight : StraightRun p m id args) :
    Works p { m with pos := d.pos } (.code c (assign [] b.params args)) vals m' := by
  have hlen := hrun.length_eq hresolve hd hb
  obtain ⟨k, hloop⟩ := hrun
  have hstray := hstraight k
  rw [start_block hresolve hd hb hc hlen] at hloop hstray
  obtain ⟨k', vs, m₁, -, -, hworks, -, hloop, -⟩ :=
    works_of_loop (j := .code c (assign [] b.params args)) (by exact hfuel) rfl hloop hstray
  obtain ⟨rfl, rfl⟩ : vs = vals ∧ m₁ = m' := by
    cases k' <;> cases hloop <;> exact ⟨rfl, rfl⟩
  exact hworks

/-- Register transfer programs do what word-level programs do: the program has one, and the function that
is emitted for an entrypoint block, called on the words that carry some literals, returns the words that
carry the results of the block on these literals, and prints the same. It is granted that the program has
blocks and closures only, without memory and primitives of its own, and that no selection strays. -/
theorem Program.emitted_returns {m m' : Machine} {id : DefnId} {d : Defn} {b : Block}
    {args vals : List Literal} {ρs : List Ty} (hn : Width n) (hp : p.Plain fields n)
    (hid : id ∈ p.entries) (hd : p.defns[id]? = some d)
    (hb : d.body = .block b)
    (hdeclared : b.declared = some (.ofLists (args.map Machine.literalType) ρs)) (hsize : m.size = n)
    (hfuel : m.fuel ≤ 0) (hrun : Machine.Returns p m id (args.map .ofLit) (vals.map .ofLit) m')
    (hstraight : Machine.StraightRun p m id (args.map .ofLit)) :
    ∃ out, p.toRtl n = .ok out ∧ ∃ f ∈ out.functions, p.emitted? n id = some f ∧
      ∀ s : State n, Printed m s → ∃ fuel s',
        out.call fuel f (args.map (Val.ofLit n)) s = some (vals.map (Val.ofLit n), s') ∧ Printed m' s' := by
  obtain ⟨out, h⟩ := hp.exists_toRtl hn
  refine ⟨out, h, ?_⟩
  obtain ⟨chunk, o, hchunk, ho, rfl⟩ := toRtl_output h
  obtain ⟨taken, done, hsound, hdone⟩ := output_sound hp.words ho
  have hcx := hp.setting hn hchunk
  have hroot := mem_roots_of_entry hp.words hid hd hb
  have hreach := hp.words.reachable.1 id hid
  obtain ⟨f, hf, hemits⟩ := hsound.blocks ((hdone id).mpr hreach) hroot
  have hlinked : Rtl.Linked (p.setting n chunk) o.symbols ⟨n, o.globals, o.layouts, o.functions⟩ :=
    linked_of_sound hsound (fun id hid => (hdone id).mpr (hcx.ready.roots hid).1)
      fun id hid => (hdone id).mpr hid
  have hname := hemits.lookup_block hd hb
  have hfind : Rtl.Program.function? ⟨n, o.globals, o.layouts, o.functions⟩ f.name = some f :=
    function?_of_mem hsound.names hf
  obtain ⟨c, -, -, hc, -⟩ := hcx.block hreach hd hb
  have hends : CodeEnds n (p.setting n chunk) fields o.symbols _ c _ _ _ m' :=
    mirrors_of_works hcx hlinked
      (Machine.works_of_returns (hp.words.resolve hreach) hd hb hc hfuel hrun hstraight)
  have hargs : List.Forall₂ (CarriedHas p fields) (args.map .ofLit) (args.map Machine.literalType) := by
    rw [List.forall₂_map_left_iff, List.forall₂_map_right_iff]
    exact List.forall₂_same.mpr fun l _ => carriedHas_ofLit l
  refine ⟨f, hf, emitted?_of_emits hchunk ho hsound hf hemits hd hb, fun s hs => ?_⟩
  obtain ⟨xs, s', ⟨fuel, g, hg, hcall⟩, henc, -, -, hprinted⟩ := yields_block hcx hlinked hroot hd hb hc
    hdeclared hname (encodes_lits_iff.mpr rfl) hargs (by exact hs) (by exact hsize) hends
  obtain rfl := encodes_lits_iff.mp henc
  cases hfind.symm.trans hg
  exact ⟨fuel, s', hcall, hprinted⟩

theorem adder_plain : adder.Plain (fun _ _ => []) 64 where
  words := adder_wordLevel
  defns {id d} _ hd := by
    match id with
    | 0 | 2 => cases hd; exact .inl ⟨_, rfl⟩
    | 1 => cases hd; exact .inr ⟨_, rfl⟩
    | _ + 3 => cases hd
  builtin {id d} _ hd := by
    match id with
    | 0 | 1 | 2 => cases hd; decide
    | _ + 3 => cases hd
  tags {name k} hk := by
    unfold Env.cfun? at hk
    split at hk
    · cases hk
      decide
    · cases hk

/-- Does a run of the adder return ten for five, without a selection that strays? -/
def adderReturnsTen : Bool :=
  match Machine.loop adder 10 (Machine.start adder (.new 64 0) 0 [.word 5]).1
      (Machine.start adder (.new 64 0) 0 [.word 5]).2 with
  | (.ok [.word w], _) => decide (w = 10) && !Machine.loopStrays adder 10
      (Machine.start adder (.new 64 0) 0 [.word 5]).1 (Machine.start adder (.new 64 0) 0 [.word 5]).2
  | _ => false

theorem emitted_returns_adder : Width 64 ∧ adder.Plain (fun _ _ => []) 64 ∧ ∃ out m f,
    adder.toRtl 64 = .ok out ∧ Machine.Returns adder (.new 64 0) 0 [.word 5] [.word 10] m ∧
    Machine.StraightRun adder (.new 64 0) 0 [.word 5] ∧ adder.emitted? 64 0 = some f ∧
    ∃ (fuel : Nat) (s' : State 64),
      out.call fuel f [.word 5] ⟨[], []⟩ = some ([.word 10], s') ∧ Printed m s' := by
  have hok : adderReturnsTen = true := by decide +kernel
  unfold adderReturnsTen at hok
  refine ⟨.inr rfl, adder_plain, ?_⟩
  split at hok
  · rename_i w m hloop
    obtain ⟨hw, hstray⟩ := (Bool.and_eq_true _ _).mp hok
    obtain rfl := of_decide_eq_true hw
    have hrun : Machine.Returns adder (.new 64 0) 0 ([.word 5].map .ofLit) ([.word 10].map .ofLit) m :=
      ⟨10, hloop⟩
    have hstraight : Machine.StraightRun adder (.new 64 0) 0 [.word 5] :=
      Machine.loopStrays_of_loop hloop ((Bool.not_eq_true' _).mp hstray)
    obtain ⟨out, hout, f, -, hf, hcalls⟩ := Program.emitted_returns (.inr rfl) adder_plain (.head _) rfl rfl
      (by rfl) rfl (Int.le_refl 0) hrun hstraight
    exact ⟨out, m, f, hout, hrun, hstraight, hf, hcalls ⟨[], []⟩ rfl⟩
  · cases hok

end Programs

end Mil
