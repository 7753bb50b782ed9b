import Mil.Proofs.Rtl.Enter

/-!
Register transfer code does what the machine does. Wherever a body or a tail is placed, its code comes
to words that carry the values that the machine comes to, and prints the same; where the values of a
tail are bound, its code leaves them in the registers of the temporaries. The proof follows the
machine: a call is answered by the function of the block that is called, or by its code inside the
function that calls it.
-/

namespace Mil.Rtl

open Typing BuildM
open Machine (Works Job)

variable {n : Nat}

/-! ### What is shown of a job -/

/-- The functions of a program are found under the symbols of their definitions. -/
structure Linked (cx : Setting) (S : Symbols) (out : Program) : Prop where
  block : ∀ {id d k name}, id ∈ cx.roots → cx.program.defns[id]? = some d → d.body = .block k →
    S.names.lookup id = some name → ∃ f raw F, out.function? name = some f ∧
      Made cx (blockResults cx.program.store k) F raw f ∧ F.labels.lookup id = some raw.entry ∧
      List.Forall₂ (fun t r => F.regs.lookup t = some r) k.params raw.params ∧ F.symbols.Le S
  closure : ∀ {id d k name}, id ∈ cx.program.reachable → cx.program.defns[id]? = some d →
    d.body = .closure k → S.codeNames.lookup id = some name → ∃ f raw F results s₀,
      out.function? name = some f ∧ Made cx results F raw f ∧ Opens cx k raw s₀ F ∧
      raw.params.length = 1 + k.args.length ∧ F.symbols.Le S

/-- What has a property comes to words that carry values, and the machine is where it is then. -/
def Yields (P : List (Val n) → State n → Prop) (p : Mil.Program) (fields : FieldLayout) (S : Symbols)
    (s : State n) (vals : List Value) (ρs : List Ty) (m : Machine) : Prop :=
  ∃ xs s', P xs s' ∧ List.Forall₂ (Encodes S s'.heap) vals xs ∧
    List.Forall₂ (CarriedHas p fields) vals ρs ∧ s.heap <+: s'.heap ∧ Printed m s'

theorem Yields.imp {P Q : List (Val n) → State n → Prop} {p : Mil.Program} {fields : FieldLayout}
    {S : Symbols} {s : State n} {vals : List Value} {ρs : List Ty} {m : Machine}
    (hPQ : ∀ {xs s'}, P xs s' → Q xs s') (h : Yields P p fields S s vals ρs m) :
    Yields Q p fields S s vals ρs m := by
  obtain ⟨xs, s', hP, hrest⟩ := h
  exact ⟨xs, s', hPQ hP, hrest⟩

/-- A part of a finished function: what was placed on an open path between two points of its
construction. -/
structure Site (cx : Setting) (S : Symbols) (w : Nat) (F b b' : Builder) : Prop where
  drained : ∃ results, F.Drained cx results
  symbols : F.symbols.Le S
  sound : ∃ D, b.Sound (lawful cx w) D
  opened : ∃ node, b.current = some node
  le : b'.Le F

section Jobs

variable (n) (cx : Setting) (fields : FieldLayout) (S : Symbols) (out : Program)

/-- Wherever a body is placed, its code comes to values. -/
def CodeEnds (c : Code) (env : Machine.Locals) (m : Machine) (vals : List Value) (m' : Machine) : Prop :=
  ∀ ⦃F b b' : Builder⦄ ⦃scope : List Temp⦄ ⦃ρs : List Ty⦄ ⦃regs : Regs n⦄ ⦃s : State n⦄,
    Site cx S ρs.length F b b' → CodeFit cx fields scope c ρs → Builds cx (code c) b () b' →
    Agree cx fields S F scope m env regs s →
    Yields (Ends out.Calls F b regs s) cx.program fields S s vals ρs m'

/-- Wherever a function ends with a tail, its code comes to values. -/
def TailEnds (t : Tail) (env : Machine.Locals) (m : Machine) (vals : List Value) (m' : Machine) : Prop :=
  ∀ ⦃F b b' : Builder⦄ ⦃scope : List Temp⦄ ⦃ρs : List Ty⦄ ⦃regs : Regs n⦄ ⦃s : State n⦄,
    Site cx S ρs.length F b b' → TailFit cx fields scope t ρs → Builds cx (tail (some t)) b () b' →
    Agree cx fields S F scope m env regs s →
    Yields (Ends out.Calls F b regs s) cx.program fields S s vals ρs m'

/-- Wherever the values of a tail are bound, its code leaves them in registers. -/
def TailBinds (t : Tail) (env : Machine.Locals) (m : Machine) (vals : List Value) (m' : Machine) : Prop :=
  ∀ ⦃F b b' : Builder⦄ ⦃w : Nat⦄ ⦃scope : List Temp⦄ ⦃ρs : List Ty⦄ ⦃dests : List Reg⦄ ⦃regs : Regs n⦄
    ⦃s : State n⦄, Site cx S w F b b' → TailFit cx fields scope t ρs →
    (∀ c, t = .call c → c.block ∈ cx.roots) → Free F b scope dests → dests.length = ρs.length →
    Builds cx (BuildM.bind dests (some t)) b () b' → Agree cx fields S F scope m env regs s →
    Leaves out.Calls cx.program fields S F b b' regs s dests vals ρs m'

/-- What is shown of a job. -/
def Mirrors (m : Machine) (vals : List Value) (m' : Machine) : Job → Prop
  | .tail t env => TailEnds n cx fields S out t env m vals m' ∧ TailBinds n cx fields S out t env m vals m'
  | .code c env => CodeEnds n cx fields S out c env m vals m'

end Jobs

variable {cx : Setting} {fields : FieldLayout} {S : Symbols} {out : Program} {env : Machine.Locals}
  {m m₁ m' : Machine} {vals : List Value}

/-! ### Tails that give values at once -/

section Values

/-- A tail that gives values comes back. -/
theorem returns_of_values {t : Tail} {ρs : List Ty} (ht : TailOk cx fields t ρs) (hbuiltin : t.Builtin)
    (hop : Machine.operate cx.program m env t = .ok (.values vals, m')) : t.doesntReturn = false := by
  cases t with
  | prim q args inst =>
      obtain ⟨_, -, hop⟩ := Except.bind_eq_ok.mp hop
      obtain ⟨⟨vs, m₁⟩, hprim, hop⟩ := Except.bind_eq_ok.mp hop
      have hprim := Machine.orHalt_eq_ok hprim
      refine ht.prim.1.returns hbuiltin.1 (fun hop => ?_) fun hop => ?_ <;>
        (unfold Machine.prim at hprim; rw [hop] at hprim; cases hprim)
  | ret | call | alloc | data | enter | sel => rfl

theorem tailBinds_of_values {t : Tail} (hcx : cx.Plain n fields)
    (hstraight : Machine.strays cx.program m env t = false)
    (hop : Machine.operate cx.program m env t = .ok (.values vals, m')) :
    TailBinds n cx fields S out t env m vals m' := by
  intro F b b' w scope ρs dests regs s hsite hfit _ hfree hlen h hagree
  obtain ⟨D, hb⟩ := hsite.sound
  have hcompute : Builds cx (compute (some t) dests) b () b' := by
    cases t with
    | call c =>
        obtain ⟨_, _, _, -, -, he, -⟩ := Machine.operate_call_inv hop
        cases he
    | enter fn args =>
        obtain ⟨_, _, _, _, _, -, -, -, he, -⟩ := Machine.operate_enter_inv hop
        cases he
    | ret | prim | alloc | data | sel => exact h
  exact leaves_compute hcx hb hfit.ok hfit.builtin hfit.inScope hsite.symbols hagree hfree hlen hstraight
    hop hcompute hsite.le

/-- What was left in registers is returned. -/
theorem ends_leaves {F b b₁ b' : Builder} {regs : Regs n} {s : State n} {dests : List Reg}
    {ρs : List Ty} (h : Leaves out.Calls cx.program fields S F b b₁ regs s dests vals ρs m')
    (hret : ∀ node, b₁.current = some node → Builds cx (terminate (.ret dests)) b₁ () b')
    (hle : b'.Le F) : Yields (Ends out.Calls F b regs s) cx.program fields S s vals ρs m' := by
  obtain ⟨regs', s', hruns, hshows, hhas, hheap, hprinted, -⟩ := h
  obtain ⟨xs, hxs, henc⟩ := getAll_of_shows hshows
  refine ⟨xs, s', hruns.ends fun node hnode => ?_, henc, hhas, hheap, hprinted⟩
  exact .ret (lookup_of_terminate (hret node hnode) hle hnode) hxs

theorem tailEnds_of_values {t : Tail} (hcx : cx.Plain n fields)
    (hstraight : Machine.strays cx.program m env t = false)
    (hop : Machine.operate cx.program m env t = .ok (.values vals, m')) :
    TailEnds n cx fields S out t env m vals m' := by
  intro F b b' scope ρs regs s hsite hfit h hagree
  obtain ⟨D, hb⟩ := hsite.sound
  unfold BuildM.tail at h
  split at h
  · rename_i c heq
    cases heq
    obtain ⟨_, _, _, -, -, he, -⟩ := Machine.operate_call_inv hop
    cases he
  · rename_i fn args heq
    cases heq
    obtain ⟨_, _, _, _, _, -, -, -, he, -⟩ := Machine.operate_enter_inv hop
    cases he
  · rename_i args heq
    cases heq
    obtain ⟨rs, b₁, hrs, hret⟩ := Builds.bind_iff.mp h
    obtain ⟨vs, hvs, hop⟩ := Except.bind_eq_ok.mp hop
    cases hop
    obtain ⟨τs, hτs, hargs⟩ := hfit.ok.typed.ret_inv
    cases hτs
    obtain ⟨hacts, hlen⟩ := acts_atoms (w := ρs.length) (D := D) hrs
    obtain ⟨hb₁, hle₁⟩ := hacts.sound hb
    obtain ⟨hacts₂, -⟩ := acts_terminate (R := lawful cx ρs.length) (D := D) hret
      (hlen.trans (length_of_argsHave hargs)) nofun
    obtain ⟨-, hle₂⟩ := hacts₂.sound hb₁
    obtain ⟨regs', hruns, hshows, hhas, hframe, -⟩ := runs_atoms out.Calls hcx hb hargs hfit.ok.reach
      hfit.inScope hagree.holds hvs hrs (hle₂.trans hsite.le)
    exact ends_leaves ⟨regs', s, hruns, hshows, hhas, List.prefix_refl _, hagree.printed,
      fun r hr _ => hframe r hr⟩ (fun _ _ => hret) hsite.le
  · rename_i hcall henter hret
    rw [Builds.read_bind] at h
    obtain ⟨dests, b₁, hdests, h⟩ := Builds.bind_iff.mp h
    obtain ⟨_, b₂, hcompute, h⟩ := Builds.bind_iff.mp h
    rw [Builds.isOpen_bind] at h
    have hreturns := returns_of_values hfit.ok hfit.builtin hop
    have hresults := hfit.ok.resultsOf (fun c hc => hcall c (congrArg some hc))
      (fun fn args he => henter fn args (congrArg some he)) hreturns
    obtain ⟨hacts₁, hlen⟩ := acts_freshRegs (R := lawful cx ρs.length) (D := D) hdests
    obtain ⟨hb₁, hle₁⟩ := hacts₁.sound hb
    obtain ⟨hb₂, hle₂⟩ := (acts_compute (w := ρs.length) (D := D) hcx.ready.words hfit.ok hcompute).1.sound hb₁
    have hle₃ : b₂.Le b' := by
      split at h
      · obtain ⟨hacts₃, -⟩ := acts_terminate (R := lawful cx ρs.length) (D := D) h
          (hlen.trans hresults) nofun
        exact (hacts₃.sound hb₂).2
      · obtain ⟨-, rfl⟩ := Builds.pure_iff.mp h
        exact .refl _
    have hle₁' := hle₂.trans (hle₃.trans hsite.le)
    obtain ⟨hcur, hnodup, hfresh⟩ := fresh_freshRegs hb hdests hle₁'
    have hfree : Free F b₁ scope dests :=
      ⟨hnodup, fun d hd => (hfresh d hd).2.2, fun d hd u _ hu => (hfresh d hd).1 (.inr ⟨u, hu⟩)⟩
    have hleaves : Leaves out.Calls cx.program fields S F b₁ b₂ regs s dests vals ρs m' :=
      leaves_compute hcx hb₁ hfit.ok hfit.builtin hfit.inScope hsite.symbols hagree hfree
        (hlen.trans hresults) hstraight hop hcompute (hle₃.trans hsite.le)
    refine ends_leaves (.after (.of_current hcur) (.refl _ _ _) hle₁ hleaves) (fun node hnode => ?_) hsite.le
    rwa [hnode, Option.isSome_some, if_pos rfl] at h

end Values

/-! ### Calls -/

section Calls

variable {id : DefnId} {d : Defn} {k : Block} {c : Code} {F : Builder} {args : List Value}
  {τs ρs : List Ty} {regs : Regs n} {s : State n}

/-- A block that is a part of a function is entered with its parameters in their registers. -/
theorem yields_placed (hcx : cx.Plain n fields) {results : Nat} (hF : F.Drained cx results)
    (hS : F.symbols.Le S) {node : Node} (hlabel : F.labels.lookup id = some node)
    (hd : cx.program.defns[id]? = some d) (hk : d.body = .block k) (hc : k.body = some c)
    (hdeclared : k.declared = some (.ofLists τs ρs)) {rs : List Reg}
    (hrs : List.Forall₂ (fun t r => F.regs.lookup t = some r) k.params rs)
    (hshows : List.Forall₂ (Shows S s.heap regs) rs args)
    (hargs : List.Forall₂ (CarriedHas cx.program fields) args τs) (hprinted : Printed m s)
    (hsize : m.size = n)
    (hends : CodeEnds n cx fields S out c (Machine.assign [] k.params args) m vals m') :
    Yields (Body out.Calls F.code node regs s) cx.program fields S s vals ρs m' := by
  obtain ⟨hid, d', k', hd', hk', hresults⟩ := (hF.sound.labels hlabel).1
  cases hd.symm.trans hd'
  cases hk.symm.trans hk'
  obtain ⟨c', τs', ρs', hc', hdeclared', hfit, -, hparams, hlen⟩ := hcx.block hid hd hk
  cases hc.symm.trans hc'
  cases hdeclared.symm.trans hdeclared'
  obtain rfl := hresults.symm.trans hlen
  obtain ⟨k', c', b₁, b₂, hblock, hbody, hb₁, hnode, hbuilds, hle⟩ := hF.placed hlabel
  rw [block_eq hd hk] at hblock
  cases hblock
  cases hc.symm.trans hbody
  have hnone : Holds cx.program fields S F s.heap regs [] [] := fun t ht => nomatch ht
  have hholds := (hnone.assign hparams hargs hrs hshows).subset fun t ht =>
    List.mem_append_left _ ht
  exact (hends ⟨⟨_, hF⟩, hS, ⟨[], hb₁⟩, ⟨node, hnode⟩, hle⟩ hfit hbuilds ⟨hholds, hprinted, hsize⟩).imp
    fun h => h node hnode

theorem yields_block (hcx : cx.Plain n fields) (hlinked : Linked cx S out) (hroot : id ∈ cx.roots)
    (hd : cx.program.defns[id]? = some d) (hk : d.body = .block k) (hc : k.body = some c)
    (hdeclared : k.declared = some (.ofLists τs ρs)) {name : String}
    (hname : S.names.lookup id = some name) {avs : List (Val n)}
    (havs : List.Forall₂ (Encodes S s.heap) args avs)
    (hargs : List.Forall₂ (CarriedHas cx.program fields) args τs) (hprinted : Printed m s)
    (hsize : m.size = n)
    (hends : CodeEnds n cx fields S out c (Machine.assign [] k.params args) m vals m') :
    Yields (out.Calls name avs s) cx.program fields S s vals ρs m' := by
  obtain ⟨f, raw, F, hf, hmade, hlabel, hrs, hS⟩ := hlinked.block hroot hd hk hname
  obtain ⟨c', τs', ρs', hc', hdeclared', -, hnodup, hparams, -⟩ := hcx.block (hcx.ready.roots hroot).1 hd hk
  cases hdeclared.symm.trans hdeclared'
  have hlen : args.length = raw.params.length := by
    rw [hargs.length_eq, ← length_of_argsHave hparams, List.length_map, hrs.length_eq]
  have hshows : List.Forall₂ (Shows S s.heap (Regs.empty.assign raw.params avs)) raw.params args :=
    shows_assign (nodup_regs hmade.drained.sound hnodup hrs) hlen havs
  exact (yields_placed hcx hmade.drained hS hlabel hd hk hc hdeclared hrs hshows hargs hprinted hsize
    hends).imp fun h => hmade.calls hf (havs.length_eq ▸ hlen) h

/-- A function that is called leaves its results in registers. -/
theorem leaves_call {b b' : Builder} {fn : Callee} {rs dests : List Reg} {name : String}
    {avs : List (Val n)} (hname : fn.name? regs = some name) (havs : regs.getAll rs = some avs)
    (hnodup : dests.Nodup) (hlen : dests.length = ρs.length)
    (h : Builds cx (emit (.call fn rs dests)) b () b') (hle : b'.Le F)
    (hyields : Yields (out.Calls name avs s) cx.program fields S s vals ρs m') :
    Leaves out.Calls cx.program fields S F b b' regs s dests vals ρs m' := by
  obtain ⟨xs, s', hcall, henc, hhas, hheap, hprinted⟩ := hyields
  have hcount : vals.length = dests.length := hhas.length_eq.trans hlen.symm
  refine ⟨regs.assign dests xs, s', fun node hnode => ?_, shows_assign hnodup hcount henc, hhas, hheap,
    hprinted, fun r _ hr => regs.assign_of_not_mem xs hr⟩
  obtain ⟨hcur, hi⟩ := lookup_of_emit h hle hnode
  exact ⟨_, hcur, fun zs s'' hrest => .call hi hname havs hcall (henc.length_eq.symm.trans hcount) hrest⟩

/-- A function that is called at the end of a path answers for it. -/
theorem yields_tailcall {b b' : Builder} {fn : Callee} {rs : List Reg} {name : String}
    {avs : List (Val n)} (hname : fn.name? regs = some name) (havs : regs.getAll rs = some avs)
    (h : Builds cx (terminate (.tailcall fn rs)) b () b') (hle : b'.Le F)
    (hyields : Yields (out.Calls name avs s) cx.program fields S s vals ρs m') :
    Yields (Ends out.Calls F b regs s) cx.program fields S s vals ρs m' :=
  hyields.imp fun hcall _ hnode => .tailcall (lookup_of_terminate h hle hnode) hname havs hcall

/-- The block that a call goes to takes what the call passes. -/
theorem CallOk.target (hcx : cx.Plain n fields) {c : BlockCall} (h : CallOk cx fields c ρs) :
    ∃ d k τs, cx.program.defns[c.block]? = some d ∧ d.body = .block k ∧
      k.declared = some (.ofLists τs ρs) ∧ k.params.Nodup ∧
      ArgsHave (cx.program.wordContext fields) c.args τs := by
  obtain ⟨d, k, type, τs, hd, hk, htype, hdom, hrng, hargs⟩ := h.typed.inv
  obtain ⟨-, τs', ρs', -, hdeclared, -, hnodup, -⟩ := hcx.block h.reach hd hk
  cases htype.symm.trans hdeclared
  cases hdom
  cases hrng
  exact ⟨d, k, τs, hd, hk, hdeclared, hnodup, hargs⟩

/-- A jump inside a function comes to what the block comes to. -/
theorem yields_lands (hcx : cx.Plain n fields) {results w : Nat} (hF : F.Drained cx results)
    (hS : F.symbols.Le S) {D : List Node} {b b' : Builder} (hb : b.Sound (lawful cx w) D) {node : Node}
    (hlabel : b.labels.lookup id = some node) (hd : cx.program.defns[id]? = some d)
    (hk : d.body = .block k) (hc : k.body = some c) (hdeclared : k.declared = some (.ofLists τs ρs))
    (hnodup : k.params.Nodup) {rs : List Reg} (hshows : List.Forall₂ (Shows S s.heap regs) rs args)
    (hkept : ∀ r ∈ rs, Kept F b r) (hargs : List.Forall₂ (CarriedHas cx.program fields) args τs)
    (hprinted : Printed m s) (hsize : m.size = n)
    (hends : CodeEnds n cx fields S out c (Machine.assign [] k.params args) m vals m')
    (h : Lands cx id rs node b b') (hle : b'.Le F) :
    Yields (Ends out.Calls F b regs s) cx.program fields S s vals ρs m' := by
  obtain ⟨params, regs', hparams, hshows', hlead⟩ := exists_lands out.Calls hF.sound hb hlabel
    (block_eq hd hk) hnodup hshows hkept h hle
  obtain ⟨hacts, -⟩ := acts_lands (w := w) (D := D) hlabel h
  obtain ⟨-, hle'⟩ := hacts.sound hb
  exact (yields_placed hcx hF hS ((hle'.trans hle).labels hlabel) hd hk hc hdeclared hparams hshows' hargs
    hprinted hsize hends).imp fun h => hlead _ _ h

theorem tailEnds_of_call (hcx : cx.Plain n fields) (hlinked : Linked cx S out) {call : BlockCall}
    {c : Code} {env' : Machine.Locals}
    (hop : Machine.operate cx.program m env (.call call) = .ok (.body (some c) env', m₁))
    (hends : CodeEnds n cx fields S out c env' m₁ vals m') :
    TailEnds n cx fields S out (.call call) env m vals m' := by
  intro F b b' scope ρs regs s hsite hfit h hagree
  obtain ⟨D, hb⟩ := hsite.sound
  obtain ⟨results, hF⟩ := hsite.drained
  obtain ⟨d, k, τs, hd, hk, hdeclared, hnodup, hargs⟩ := hfit.ok.call.target hcx
  obtain ⟨vs, k', pos, hvs, hk', heq, hm₁⟩ := Machine.operate_call_inv hop
  have hprinted : Printed m₁ s := hm₁ ▸ hagree.printed
  have hsize : m₁.size = n := hm₁ ▸ hagree.size
  rw [hcx.ready.words.resolve hfit.ok.call.reach, block_eq hd hk] at hk'
  cases hk'
  obtain ⟨hc, rfl⟩ := Machine.Effect.body.inj heq
  have hstart : ∀ {rs : List Reg} {b₁ : Builder}, Builds cx (atoms call.args) b rs b₁ → b₁.Le F →
      ∃ regs', Runs out.Calls F b b₁ regs s regs' s ∧ List.Forall₂ (Shows S s.heap regs') rs vs ∧
        List.Forall₂ (CarriedHas cx.program fields) vs τs ∧ ∀ r ∈ rs, Kept F b₁ r := by
    intro rs b₁ hrs hle
    obtain ⟨regs', hruns, hshows, hhas, -, hsources⟩ := runs_atoms out.Calls hcx hb hargs hfit.ok.reach
      hfit.inScope hagree.holds hvs hrs hle
    exact ⟨regs', hruns, hshows, hhas, fun r hr => (hsources r hr).2⟩
  cases jumps_of_builds h with
  | @leave rs name b₁ b₂ hrs hnone hroot hname hend =>
      rw [hcx.ready.words.resolve hfit.ok.call.reach] at hroot hname
      obtain ⟨hacts₁, hlen⟩ := acts_atoms (w := ρs.length) (D := D) hrs
      obtain ⟨hacts₂, hname'⟩ := acts_symbol (R := lawful cx ρs.length) (D := D) hname
      have hsymbol := hfit.ok.call.symbol hcx.ready.words hroot hname'
      rw [← hlen] at hsymbol
      obtain ⟨hacts₃, -⟩ := acts_terminate (R := lawful cx ρs.length) (D := D) hend hsymbol nofun
      obtain ⟨hb₁, -⟩ := hacts₁.sound hb
      obtain ⟨hb₂, hle₂⟩ := hacts₂.sound hb₁
      obtain ⟨-, hle₃⟩ := hacts₃.sound hb₂
      have hle₂' := hle₃.trans hsite.le
      obtain ⟨regs', hruns, hshows, hhas, -⟩ := hstart hrs (hle₂.trans hle₂')
      obtain ⟨avs, havs, henc⟩ := getAll_of_shows hshows
      have hfound := hsite.symbols.names (hle₂'.symbols.names hname')
      have hcur : b₂.current = b₁.current := by
        obtain ⟨-, rfl⟩ := Builds.symbol_iff.mp hname
        rfl
      exact (yields_tailcall rfl havs hend hsite.le (yields_block hcx hlinked hroot hd hk hc.symm hdeclared
        hfound henc hhas hprinted hsize hends)).imp (hruns.trans (.of_current hcur)).ends
  | @again rs node b₁ hrs hlabel hlands =>
      rw [hcx.ready.words.resolve hfit.ok.call.reach] at hlabel hlands
      obtain ⟨hb₁, -⟩ := (acts_atoms (w := ρs.length) (D := D) hrs).1.sound hb
      obtain ⟨-, hle₂⟩ := (acts_lands (w := ρs.length) (D := D) hlabel hlands).1.sound hb₁
      obtain ⟨regs', hruns, hshows, hhas, hkept⟩ := hstart hrs (hle₂.trans hsite.le)
      exact (yields_lands hcx hF hsite.symbols hb₁ hlabel hd hk hc.symm hdeclared hnodup hshows hkept hhas
        hprinted hsize hends hlands hsite.le).imp hruns.ends
  | @new rs node b₁ b₂ hrs hnone hnew hlands =>
      rw [hcx.ready.words.resolve hfit.ok.call.reach] at hnone hnew hlands
      obtain ⟨rfl, rfl⟩ := Builds.newLabel_iff.mp hnew
      have hlabel := (lookup_cons_ite call.block call.block b₁.nextNode b₁.labels).trans (if_pos rfl)
      obtain ⟨hb₁, -⟩ := (acts_atoms (w := ρs.length) (D := D) hrs).1.sound hb
      obtain ⟨hb₂, hle₂⟩ := Act.sound hb₁ (.label hnone (hfit.ok.call.joins hcx.ready.words))
      obtain ⟨-, hle₃⟩ := (acts_lands (w := ρs.length) (D := D) hlabel hlands).1.sound hb₂
      obtain ⟨regs', hruns, hshows, hhas, hkept⟩ := hstart hrs (hle₂.trans (hle₃.trans hsite.le))
      refine (yields_lands hcx hF hsite.symbols hb₂ hlabel hd hk hc.symm hdeclared hnodup hshows hkept hhas
        hprinted hsize hends hlands hsite.le).imp fun hrest => hruns.ends ?_
      exact fun node hnode => hrest node hnode

/-- The results of a block that is called are left in registers. -/
theorem tailBinds_of_call (hcx : cx.Plain n fields) (hlinked : Linked cx S out) {call : BlockCall}
    {c : Code} {env' : Machine.Locals}
    (hop : Machine.operate cx.program m env (.call call) = .ok (.body (some c) env', m₁))
    (hends : CodeEnds n cx fields S out c env' m₁ vals m') :
    TailBinds n cx fields S out (.call call) env m vals m' := by
  intro F b b' w scope ρs dests regs s hsite hfit hroot hfree hlen h hagree
  obtain ⟨D, hb⟩ := hsite.sound
  obtain ⟨d, k, τs, hd, hk, hdeclared, hnodup, hargs⟩ := hfit.ok.call.target hcx
  obtain ⟨vs, k', pos, hvs, hk', heq, hm₁⟩ := Machine.operate_call_inv hop
  have hprinted : Printed m₁ s := hm₁ ▸ hagree.printed
  have hsize : m₁.size = n := hm₁ ▸ hagree.size
  rw [hcx.ready.words.resolve hfit.ok.call.reach, block_eq hd hk] at hk'
  cases hk'
  obtain ⟨hc, rfl⟩ := Machine.Effect.body.inj heq
  have hroot := hroot call rfl
  unfold BuildM.bind at h
  rw [Builds.resolve_bind, hcx.ready.words.resolve hfit.ok.call.reach] at h
  obtain ⟨name, b₁, hname, h⟩ := Builds.bind_iff.mp h
  obtain ⟨rs, b₂, hrs, hcall⟩ := Builds.bind_iff.mp h
  obtain ⟨hacts₁, hname'⟩ := acts_symbol (R := lawful cx w) (D := D) hname
  obtain ⟨hacts₂, hcount⟩ := acts_atoms (w := w) (D := D) hrs
  have hsymbol := hfit.ok.call.symbol hcx.ready.words hroot (hacts₂.symbols.names hname')
  rw [← hcount, ← hlen] at hsymbol
  obtain ⟨hb₁, hle₁⟩ := hacts₁.sound hb
  obtain ⟨hb₂, hle₂⟩ := hacts₂.sound hb₁
  obtain ⟨-, hle₃⟩ := (acts_emit (R := lawful cx w) (D := D) hcall (fun _ => rfl)
    fun _ => .inr hsymbol).sound hb₂
  have hle₂' := hle₃.trans hsite.le
  obtain ⟨regs', hruns, hshows, hhas, hframe, -⟩ := runs_atoms out.Calls hcx hb₁ hargs hfit.ok.reach
    hfit.inScope hagree.holds hvs hrs hle₂'
  obtain ⟨avs, havs, henc⟩ := getAll_of_shows hshows
  have hfound := hsite.symbols.names ((hle₂.trans hle₂').symbols.names hname')
  have hcur : b₁.current = b.current := by
    obtain ⟨-, rfl⟩ := Builds.symbol_iff.mp hname
    rfl
  exact .after (.of_current hcur) (.refl _ _ _) hle₁ (.after hruns hframe hle₂
    (leaves_call rfl havs hfree.nodup hlen hcall hsite.le (yields_block hcx hlinked hroot hd hk hc.symm
      hdeclared hfound henc hhas hprinted hsize hends)))

end Calls

/-! ### Closures -/

section Closures

variable {F b b' : Builder} {w : Nat} {D : List Node} {scope : List Temp} {τs ρs : List Ty} {regs : Regs n}
  {s : State n} {t : Tail} {env' : Machine.Locals}

/-- The function of a closure answers when the closure is entered. -/
theorem yields_closure (hcx : cx.Plain n fields) (hlinked : Linked cx S out) {id : DefnId} {d : Defn}
    {k : Closure} {stored : List Ty} (hid : id ∈ cx.program.reachable)
    (hd : cx.program.defns[id]? = some d) (hk : d.body = .closure k) (ht : k.tail = some t)
    (hdeclared : k.declared = some ⟨[], stored, .func (.tuple τs) (.tuple ρs)⟩) {name : String}
    (hname : S.codeNames.lookup id = some name) {a : Nat} {xs avs : List (Val n)} {fs args : List Value}
    (hheap : s.heap[a]? = some (some (.code name) :: xs.map some))
    (hxs : List.Forall₂ (Encodes S s.heap) fs xs)
    (hfs : List.Forall₂ (CarriedHas cx.program fields) fs stored)
    (havs : List.Forall₂ (Encodes S s.heap) args avs)
    (hargs : List.Forall₂ (CarriedHas cx.program fields) args τs) (hprinted : Printed m s)
    (hsize : m.size = n) (hends : TailEnds n cx fields S out t
      (Machine.assign (Machine.assign [] k.params fs) k.args args) m vals m') :
    Yields (out.Calls name (.record a :: avs) s) cx.program fields S s vals ρs m' := by
  obtain ⟨f, raw, F, results, s₀, hf, hmade, hopens, hcount, hS⟩ := hlinked.closure hid hd hk hname
  obtain ⟨t', stored', τs', ρs', ht', hdeclared', hfit, hnodup, hparams, htypes⟩ := hcx.closure hid hd hk
  cases ht.symm.trans ht'
  cases hdeclared.symm.trans hdeclared'
  obtain ⟨b, b', regs, htail, hle, hb, hopen, hholds, hlead⟩ := exists_opens out.Calls hcx hmade.drained.sound
    hopens ht hfit hnodup hparams htypes hheap hxs hfs havs hargs
  have hlen : (Val.record a :: avs).length = raw.params.length := by
    rw [List.length_cons, ← havs.length_eq, hargs.length_eq, ← length_of_argsHave htypes,
      List.length_map, hcount, Nat.add_comm]
  exact (hends ⟨⟨_, hmade.drained⟩, hS, ⟨[], hb⟩, hopen, hle⟩ hfit htail ⟨hholds, hprinted, hsize⟩).imp
    fun h => hmade.calls hf hlen (hlead _ _ h)

/-- A closure is entered through its record. -/
theorem yields_entered (hcx : cx.Plain n fields) (hlinked : Linked cx S out)
    (hb : b.Sound (lawful cx w) D) {fn : Atom} {args : List Atom}
    (hfit : TailFit cx fields scope (.enter fn args) ρs) (hagree : Agree cx fields S F scope m env regs s)
    (hop : Machine.operate cx.program m env (.enter fn args) = .ok (.tail (some t) env', m₁))
    (hends : TailEnds n cx fields S out t env' m₁ vals m') {r : Callee × List Reg}
    (h : Builds cx (entered fn args) b r b') (hle : b'.Le F) :
    ∃ regs' name avs, Runs out.Calls F b b' regs s regs' s ∧ Frame F b regs regs' ∧
      r.1.name? regs' = some name ∧ regs'.getAll r.2 = some avs ∧
      Yields (out.Calls name avs s) cx.program fields S s vals ρs m' := by
  obtain ⟨id, fs, vs, k, pos, hv, hvs, hk, heq, hm₁⟩ := Machine.operate_enter_inv hop
  have hprinted : Printed m₁ s := hm₁ ▸ hagree.printed
  have hsize : m₁.size = n := hm₁ ▸ hagree.size
  obtain ⟨ht, rfl⟩ := Machine.Effect.tail.inj heq
  obtain ⟨τs, hfn, hargs⟩ := hfit.ok.typed.enter_inv
  obtain ⟨record, b₁, hrecord, h⟩ := Builds.bind_iff.mp h
  obtain ⟨rest, b₂, hrest, h⟩ := Builds.bind_iff.mp h
  rw [Builds.freshReg_bind] at h
  obtain ⟨_, b₄, hload, h⟩ := Builds.bind_iff.mp h
  obtain ⟨rfl, rfl⟩ := Builds.pure_iff.mp h
  obtain ⟨hb₁, hle₁⟩ := (acts_atom (w := w) (D := D) hrecord).sound hb
  obtain ⟨hb₂, hle₂⟩ := (acts_atoms (w := w) (D := D) hrest).1.sound hb₁
  obtain ⟨hb₃, hle₃⟩ := (Acts.of (.reg (R := lawful cx w) (D := D))).sound hb₂
  obtain ⟨-, hle₄⟩ := (acts_loadWord (w := w) (D := D) hload).sound hb₃
  have hle₃' := hle₄.trans hle
  have hle₂' := hle₃.trans hle₃'
  obtain ⟨regs₁, hruns₁, ⟨x, hx, henc⟩, hhas, hframe₁, -, hkept⟩ := runs_atom out.Calls hcx hb hfn
    (hfit.ok.reach fn (.head _)) (fun t ht => hfit.inScope t (List.mem_singleton.mp ht ▸ .head _))
    hagree.holds hv hrecord (hle₂.trans hle₂')
  obtain ⟨regs₂, hruns₂, hshows, hargsHave, hframe₂, hsources⟩ := runs_atoms out.Calls hcx hb₁ hargs
    (fun a ha => hfit.ok.reach a (.tail _ ha)) (fun t ht => hfit.inScope t (.tail _ ht))
    (hagree.holds.frame hframe₁) hvs hrest hle₂'
  obtain ⟨id', d, k', stored, fs', hclosure, hid, hd, hk', hdeclared, hfs⟩ := hhas.of_func
  cases hclosure
  rw [hcx.ready.words.resolve hid, closure_eq hd hk'] at hk
  cases hk
  cases henc with
  | @closure _ _ name a xs hname hheap hxs =>
      have hnew := not_kept_nextReg hb₂ hle₃'
      have hsame : ∀ r, Kept F b₂ r → regs₂.set b₂.nextReg (.code name) r = regs₂ r := fun r hr =>
        regs₂.set_of_ne _ fun he => hnew (he ▸ hr)
      have hrecord₂ : regs₂ record = some (.record a) := (hframe₂ record hkept).trans hx
      obtain ⟨avs, havs, hvals⟩ := exists_of_shows
        (forall₂_shows_congr hshows fun r hr => hsame r (hsources r hr).2)
      refine ⟨regs₂.set b₂.nextReg (.code name), name, .record a :: avs, ?_, ?_, ?_,
        getAll_of_forall₂ (.cons ((hsame record (hkept.mono hle₂.nextReg)).trans hrecord₂) havs),
        yields_closure hcx hlinked hid hd hk' ht.symm hdeclared hname hheap hxs hfs hvals hargsHave hprinted
          hsize hends⟩
      · have hruns₄ : Runs out.Calls F { b₂ with nextReg := b₂.nextReg + 1 } b' regs₂ s
            (regs₂.set b₂.nextReg (.code name)) s :=
          runs_loadWord hcx (i := 0) rfl hrecord₂ (load_head hheap) hload hle
        exact hruns₁.trans (hruns₂.trans hruns₄)
      · exact (hframe₁.trans hle₁.nextReg hframe₂).trans (Int.le_trans hle₁.nextReg hle₂.nextReg)
          fun r hr => hsame r hr
      · rw [Callee.name?, Regs.set_self]

/-- A tail that enters a closure comes to what the closure comes to. -/
theorem tailEnds_of_enter (hcx : cx.Plain n fields) (hlinked : Linked cx S out) {fn : Atom}
    {args : List Atom}
    (hop : Machine.operate cx.program m env (.enter fn args) = .ok (.tail (some t) env', m₁))
    (hends : TailEnds n cx fields S out t env' m₁ vals m') :
    TailEnds n cx fields S out (.enter fn args) env m vals m' := by
  intro F b b' scope ρs regs s hsite hfit h hagree
  obtain ⟨D, hb⟩ := hsite.sound
  obtain ⟨⟨callee, rs⟩, b₁, hentered, hend⟩ := Builds.bind_iff.mp h
  obtain ⟨hacts, code, hcode⟩ := acts_entered (w := ρs.length) (D := D) hentered
  cases hcode
  obtain ⟨hb₁, hle₁⟩ := hacts.sound hb
  obtain ⟨hacts₂, -⟩ := acts_terminate (R := lawful cx ρs.length) (D := D) hend trivial nofun
  obtain ⟨-, hle₂⟩ := hacts₂.sound hb₁
  obtain ⟨regs', name, avs, hruns, -, hname, havs, hyields⟩ :=
    yields_entered hcx hlinked hb hfit hagree hop hends hentered (hle₂.trans hsite.le)
  exact (yields_tailcall hname havs hend hsite.le hyields).imp hruns.ends

/-- The results of a closure that is entered are left in registers. -/
theorem tailBinds_of_enter (hcx : cx.Plain n fields) (hlinked : Linked cx S out) {fn : Atom}
    {args : List Atom}
    (hop : Machine.operate cx.program m env (.enter fn args) = .ok (.tail (some t) env', m₁))
    (hends : TailEnds n cx fields S out t env' m₁ vals m') :
    TailBinds n cx fields S out (.enter fn args) env m vals m' := by
  intro F b b' w scope ρs dests regs s hsite hfit _ hfree hlen h hagree
  obtain ⟨D, hb⟩ := hsite.sound
  obtain ⟨⟨callee, rs⟩, b₁, hentered, hcall⟩ := Builds.bind_iff.mp h
  obtain ⟨hacts, code, hcode⟩ := acts_entered (w := w) (D := D) hentered
  cases hcode
  obtain ⟨hb₁, hle₁⟩ := hacts.sound hb
  have hacts₂ := acts_emit (R := lawful cx w) (D := D) hcall (fun _ => rfl) fun _ => trivial
  obtain ⟨-, hle₂⟩ := hacts₂.sound hb₁
  obtain ⟨regs', name, avs, hruns, hframe, hname, havs, hyields⟩ :=
    yields_entered hcx hlinked hb hfit hagree hop hends hentered (hle₂.trans hsite.le)
  exact .after hruns hframe hle₁ (leaves_call hname havs hfree.nodup hlen hcall hsite.le hyields)

end Closures

/-! ### Bodies -/

section Bodies

/-- A tail that is counted changes nothing. -/
theorem Agree.tick {F : Builder} {scope : List Temp} {regs : Regs n} {s : State n}
    (h : Agree cx fields S F scope m env regs s) : Agree cx fields S F scope m.tick env regs s :=
  ⟨h.holds, h.printed, h.size⟩

/-- Registers of new temporaries can take results. -/
theorem free_regs {R R' : Rules} {D D' : List Node} {F b : Builder} {scope ts : List Temp} {rs : List Reg}
    (hF : F.Sound R D) (hb : b.Sound R' D') (hle : b.Le F) (hnodup : (scope ++ ts).Nodup)
    (hrs : List.Forall₂ (fun t r => b.regs.lookup t = some r) ts rs) : Free F b scope rs := by
  obtain ⟨-, hts, hapart⟩ := List.nodup_append.mp hnodup
  refine ⟨nodup_regs hF hts (hrs.imp fun _ _ h => hle.regs h), fun r hr => ?_, fun r hr t ht hreg => ?_⟩
  · obtain ⟨t, -, ht⟩ := Machine.exists_of_mem_right hrs hr
    exact hb.regs ht
  · obtain ⟨u, hu, hur⟩ := Machine.exists_of_mem_right hrs hr
    exact hapart t ht u hu (hF.own hreg (hle.regs hur))

theorem codeEnds_of_bind (hcx : cx.Plain n fields) {vars : List Temp} {t : Tail} {next : Code}
    {vs : List Value} (hsize : m₁.size = m.size) (htail : TailBinds n cx fields S out t env m.tick vs m₁)
    (hnext : CodeEnds n cx fields S out next (Machine.assign env vars vs) m₁ vals m') :
    CodeEnds n cx fields S out (.bind vars t next) env m vals m' := by
  intro F b b' scope ρs regs s hsite hfit h hagree
  obtain ⟨D, hb⟩ := hsite.sound
  obtain ⟨results, hF⟩ := hsite.drained
  obtain ⟨node, hnode⟩ := hsite.opened
  obtain ⟨⟨τs, ht, hvars⟩, hroot, hok⟩ := hfit.ok.bind
  obtain ⟨dests, b₁, hdests, h⟩ := Builds.bind_iff.mp h
  obtain ⟨_, b₂, hbind, h⟩ := Builds.bind_iff.mp h
  rw [Builds.isOpen_bind] at h
  obtain ⟨hacts₁, hcount⟩ := acts_mapM (R := lawful cx ρs.length) (D := D) (fun _ _ => acts_regOf) hdests
  have hlen : dests.length = τs.length := by
    rw [hcount, ← length_of_argsHave hvars, List.length_map]
  have hacts₂ := acts_bind (w := ρs.length) (D := D) hcx.ready.words ht hroot hlen hbind
  obtain ⟨hb₁, hle₁⟩ := hacts₁.sound hb
  obtain ⟨hb₂, hle₂⟩ := hacts₂.sound hb₁
  have hle₃ : b₂.Le b' := by
    split at h
    · exact ((acts_code (D := D) hcx.ready.words hok h).1.sound hb₂).2
    · obtain ⟨-, rfl⟩ := Builds.pure_iff.mp h
      exact .refl _
  have hle₂' := hle₃.trans hsite.le
  have hregs := lookup_mapM hb hdests
  have hrs : List.Forall₂ (fun t r => F.regs.lookup t = some r) vars dests :=
    hregs.imp fun _ _ hr => (hle₂.trans hle₂').regs hr
  have hsingle : ((scope ++ vars) ++ next.binders).Nodup := by
    rw [List.append_assoc]
    exact hfit.single
  have hfree : Free F b₁ scope dests :=
    free_regs hF.sound hb₁ (hle₂.trans hle₂') (List.nodup_append.mp hsingle).1 hregs
  have hcur : b₁.current = b.current := by
    rw [regs_mapM hdests]
  obtain ⟨regs', s', hruns, hshows, hhas, hheap, hprinted, hkeep⟩ :=
    htail ⟨hsite.drained, hsite.symbols, ⟨D, hb₁⟩, ⟨node, hcur.trans hnode⟩, hle₂'⟩
      ⟨ht, hfit.inScope.1, hfit.builtin t (.head _)⟩ hroot hfree hlen hbind hagree.tick
  obtain ⟨node', hnode', -⟩ := hruns node (hcur.trans hnode)
  rw [hnode', Option.isSome_some, if_pos rfl] at h
  have hholds : Holds cx.program fields S F s'.heap regs' (Machine.assign env vars vs) (vars ++ scope) := by
    refine Holds.assign hvars hhas hrs hshows ((hagree.holds.mono hheap).congr fun t ht r hr => ?_)
    exact hkeep r (.inr ⟨t, hr⟩) fun hmem => hfree.apart r hmem t ht hr
  have hfit' : CodeFit cx fields (vars ++ scope) next ρs :=
    ⟨hok, hfit.inScope.2, (List.perm_append_comm.append_right _).nodup_iff.mp hsingle,
      fun t ht => hfit.builtin t (.tail _ ht)⟩
  obtain ⟨xs, s'', hends, henc, hvals, hheap', hprinted'⟩ := hnext
    ⟨hsite.drained, hsite.symbols, ⟨D, hb₂⟩, ⟨node', hnode'⟩, hsite.le⟩ hfit' h
    ⟨hholds, hprinted, hsize.trans hagree.size⟩
  exact ⟨xs, s'', (Runs.of_current hcur).ends (hruns.ends hends), henc, hvals, hheap.trans hheap',
    hprinted'⟩

theorem codeEnds_of_done {t : Tail} (htail : TailEnds n cx fields S out t env m.tick vals m') :
    CodeEnds n cx fields S out (.done t) env m vals m' := by
  intro F b b' scope ρs regs s hsite hfit h hagree
  exact htail hsite ⟨hfit.ok.tail, hfit.inScope, hfit.builtin t (.head _)⟩ h hagree.tick

theorem CodeFit.call {scope : List Temp} {c : Code} {ρs : List Ty} (h : CodeFit cx fields scope c ρs)
    {call : BlockCall} (hcall : call ∈ c.calls) : TailFit cx fields scope (.call call) ρs :=
  ⟨h.ok.call hcall, inScope_of_call h.inScope hcall, trivial⟩

theorem toInt_flagBits_ne (hn : Width n) (f : Bool) :
    Comparison.holds .ne (flagBits n f).toInt (BitVec.ofInt n 0).toInt = f := by
  rcases hn with rfl | rfl <;> cases f <;> decide

theorem codeEnds_of_branch (hcx : cx.Plain n fields) {cond : Atom} {c d call : BlockCall}
    (hchoose : Machine.chooseFlag cx.program m env cond c d = .ok call)
    (htail : TailEnds n cx fields S out (.call call) env m.tick vals m') :
    CodeEnds n cx fields S out (.branch cond c d) env m vals m' := by
  intro F b b' scope ρs regs s hsite hfit h hagree
  obtain ⟨D, hb⟩ := hsite.sound
  obtain ⟨hc, hd⟩ := hfit.ok.branch
  obtain ⟨r, b₁, hr, h⟩ := Builds.bind_iff.mp h
  rw [Builds.freshNode_bind, Builds.freshNode_bind] at h
  dsimp only at h
  obtain ⟨_, b₂, hbranch, h⟩ := Builds.bind_iff.mp h
  rw [Builds.startAt_bind] at h
  obtain ⟨_, b₃, hjump, h⟩ := Builds.bind_iff.mp h
  rw [Builds.startAt_bind] at h
  obtain ⟨hb₁, hle₁⟩ := (acts_atom (w := ρs.length) (D := D) hr).sound hb
  obtain ⟨hacts₂, hcur₂⟩ := acts_terminate (R := lawful cx ρs.length)
    (D := (b₁.nextNode + 1) :: b₁.nextNode :: D) hbranch trivial (by simp [Instr.successors])
  obtain ⟨hb₂, hle₂⟩ := Acts.sound (.step .node (.step .node hacts₂)) hb₁
  obtain ⟨hb₂', hle₂'⟩ := Acts.sound (.step (.perm (.swap _ _ _)) (.of (.start hcur₂))) hb₂
  obtain ⟨hacts₃, hcur₃⟩ := acts_jump (D := (b₁.nextNode + 1) :: D) hcx.ready.words hc hjump
  obtain ⟨hb₃, hle₃⟩ := hacts₃.sound hb₂'
  obtain ⟨hb₃', hle₃'⟩ := Act.sound hb₃ (.start hcur₃)
  obtain ⟨-, hle₄⟩ := (acts_jump (D := D) hcx.ready.words hd h).1.sound hb₃'
  have hle₃'' := hle₃'.trans (hle₄.trans hsite.le)
  have hle₂'' := hle₂'.trans (hle₃.trans hle₃'')
  have hcond : AtomHas (cx.program.wordContext fields) cond .flag := by
    cases hfit.ok.typed with
    | branch hcond _ _ => exact hcond
  have hreach : ∀ id, cond.defn? = some id → id ∈ cx.program.reachable := fun id hid =>
    hfit.ok.refs id (by simp [Code.refs, hid])
  obtain ⟨v, hv, hchoose⟩ := Except.bind_eq_ok.mp hchoose
  obtain ⟨regs₁, hruns, ⟨x, hx, henc⟩, hhas, hframe, -, -⟩ := runs_atom out.Calls hcx hb hcond hreach
    (fun t ht => hfit.inScope t (List.mem_singleton.mp ht ▸ .head _)) hagree.holds hv hr
    (hle₂.trans hle₂'')
  obtain ⟨f, rfl⟩ := hhas.of_flag
  cases henc
  have hagree₁ : Agree cx fields S F scope m.tick env regs₁ s :=
    ⟨hagree.holds.frame hframe, hagree.printed, hagree.size⟩
  have hargs : regs₁.getAll [r] = some [.word (flagBits n f)] := by simp [Regs.getAll, hx]
  have htest : Test.eval (.const .ne 0) [Val.word (flagBits n f)] = some f :=
    congrArg some (toInt_flagBits_ne hcx.width f)
  have hstep : ∀ {zs s'}, Body out.Calls F.code (if f then b₁.nextNode else b₁.nextNode + 1) regs₁ s zs s' →
      Ends out.Calls F b regs s zs s' := fun hrest =>
    hruns.ends fun node hnode =>
      .step (lookup_of_terminate hbranch hle₂'' hnode) (.branch hargs htest) hrest
  cases f with
  | true =>
      cases hchoose
      exact (htail ⟨hsite.drained, hsite.symbols, ⟨_, hb₂'⟩, ⟨_, rfl⟩, hle₃''⟩ (hfit.call (.head _)) hjump
        hagree₁).imp fun hends => hstep (hends _ rfl)
  | false =>
      cases hchoose
      exact (htail ⟨hsite.drained, hsite.symbols, ⟨_, hb₃'⟩, ⟨_, rfl⟩, hsite.le⟩
        (hfit.call (.tail _ (.head _))) h hagree₁).imp fun hends => hstep (hends _ rfl)

/-- The first alternative for a constructor has a node, where its jump is placed. -/
theorem lookup_placeAlts {count tag : Nat} (htag : tag < count) {b b' : Builder}
    {alts : List (Cfun × BlockCall)} {targets : List (Nat × Node)}
    {r : List (Node × BlockCall) × List (Nat × Node)}
    (h : Builds cx (placeAlts count alts targets) b r b') :
    (∀ node, targets.lookup tag = some node → r.2.lookup tag = some node) ∧
      (targets.lookup tag = none → match alts.find? fun a => a.1.tag = tag with
        | some a => ∃ node, r.2.lookup tag = some node ∧ (node, a.2) ∈ r.1
        | none => r.2.lookup tag = none) := by
  induction alts generalizing b targets r with
  | nil =>
      obtain ⟨rfl, rfl⟩ := Builds.pure_iff.mp h
      exact ⟨fun _ h => h, fun h => h⟩
  | cons alt alts ih =>
      obtain ⟨k, c⟩ := alt
      unfold placeAlts at h
      split at h
      · rename_i hskip
        obtain ⟨hold, hnew⟩ := ih h
        refine ⟨hold, fun hnone => ?_⟩
        have hne : k.tag ≠ tag := fun he => by
          rw [he, hnone] at hskip
          rcases hskip with hge | hsome
          · exact absurd htag (Nat.not_lt.mpr hge)
          · cases hsome
        rw [List.find?_cons_of_neg (by simpa using hne)]
        exact hnew hnone
      · rw [Builds.freshNode_bind] at h
        obtain ⟨⟨placed, found⟩, b₁, hrest, h⟩ := Builds.bind_iff.mp h
        obtain ⟨rfl, rfl⟩ := Builds.pure_iff.mp h
        obtain ⟨hold, hnew⟩ := ih hrest
        refine ⟨fun node hnode => hold node ?_, fun hnone => ?_⟩
        · rw [List.lookup_append, hnode]
          rfl
        · have hlookup : (targets ++ [(k.tag, b.nextNode)]).lookup tag =
              if tag = k.tag then some b.nextNode else none := by
            rw [List.lookup_append, hnone, Option.none_or]
            exact lookup_cons_ite tag k.tag b.nextNode []
          by_cases he : k.tag = tag
          · rw [if_pos he.symm] at hlookup
            rw [List.find?_cons_of_pos (by simpa using he)]
            exact ⟨b.nextNode, hold _ hlookup, .head _⟩
          · rw [if_neg (Ne.symm he)] at hlookup
            rw [List.find?_cons_of_neg (by simpa using he)]
            have hfound := hnew hlookup
            split at hfound
            · obtain ⟨node, hnode, hmem⟩ := hfound
              exact ⟨node, hnode, .tail _ hmem⟩
            · exact hfound

/-- The alternative that the machine takes for a constructor. -/
def Chosen (alts : List (Cfun × BlockCall)) (default : Option BlockCall) (tag : Nat) (call : BlockCall) :
    Prop :=
  (∃ a, alts.find? (fun a => a.1.tag = tag) = some a ∧ a.2 = call) ∨
    (alts.find? (fun a => a.1.tag = tag) = none ∧ default = some call)

theorem chooseAlt_inv {scrut : Atom} {alts : List (Cfun × BlockCall)} {default : Option BlockCall}
    {call : BlockCall} (h : Machine.chooseAlt cx.program m env scrut alts default = .ok call) :
    ∃ k fs, Machine.atom cx.program m env scrut = .ok (.data k fs) ∧ Chosen alts default k.tag call := by
  obtain ⟨v, hv, h⟩ := Except.bind_eq_ok.mp h
  split at h
  · rename_i k fs
    refine ⟨k, fs, hv, ?_⟩
    cases hfind : alts.find? fun a => a.1.tag = k.tag with
    | some a =>
        rw [hfind] at h
        cases h
        exact .inl ⟨a, hfind, rfl⟩
    | none =>
        rw [hfind] at h
        cases default with
        | some c =>
            cases h
            exact .inr ⟨hfind, rfl⟩
        | none => cases h
  · cases h

theorem Chosen.mem_calls {scrut : Atom} {alts : List (Cfun × BlockCall)} {default : Option BlockCall}
    {tag : Nat} {call : BlockCall} (h : Chosen alts default tag call) :
    call ∈ (Code.case scrut alts default).calls := by
  rcases h with ⟨a, hfind, rfl⟩ | ⟨-, hdefault⟩
  · exact List.mem_append_left _ (List.mem_map_of_mem (List.mem_of_find?_eq_some hfind))
  · exact List.mem_append_right _ (hdefault ▸ .head _)

/-- The jump table leads to the alternative that the machine takes. -/
theorem exists_choice (hp : cx.program.WordLevel fields) {ρs : List Ty} {alts : List (Cfun × BlockCall)}
    {default : Option BlockCall} (hcalls : ∀ alt ∈ alts, CallOk cx fields alt.2 ρs)
    (hdefault : ∀ c, default = some c → CallOk cx fields c ρs) {count tag : Nat} (htag : tag < count)
    {call : BlockCall} (hchosen : Chosen alts default tag call) {r : Reg} {D : List Node}
    {placed : List (Node × BlockCall)} {targets : List (Nat × Node)} {rest : Option Node}
    {b₂ b₃ b₄ b₅ b₆ b' : Builder} (hb : b₂.Sound (lawful cx ρs.length) D)
    (hplace : Builds cx (placeAlts count alts []) b₂ (placed, targets) b₃)
    (hrest : ((∀ t < count, (targets.lookup t).isSome) ∧ rest = none ∧ b₄ = b₃) ∨
      (rest = some b₃.nextNode ∧ b₄ = { b₃ with nextNode := b₃.nextNode + 1 }))
    (hjump : Builds cx (terminate (.jump r ((List.range count).map fun t =>
      (targets.lookup t).getD (rest.getD 0)))) b₄ () b₅)
    (halts : Builds cx (placed.forM fun (n, c) => do startAt n; jump c) b₅ () b₆)
    (hother : (rest = none ∧ b' = b₆) ∨ ∃ n, rest = some n ∧
      Builds cx (otherwise default) { b₆ with current := some n } () b') :
    ∃ node b₁ b₁' D',
      ((List.range count).map fun t => (targets.lookup t).getD (rest.getD 0))[tag]? = some node ∧
      b₁.Sound (lawful cx ρs.length) D' ∧ b₁.current = some node ∧ Builds cx (jump call) b₁ () b₁' ∧
      b₁'.Le b' := by
  obtain ⟨hplaced, -, -, hb₅, hcur₅, -, hb₆, hcur₆, hother'⟩ :=
    sound_split hp hcalls hdefault hb hplace hrest hjump halts hother
  have hindex : ((List.range count).map fun t => (targets.lookup t).getD (rest.getD 0))[tag]? =
      some ((targets.lookup tag).getD (rest.getD 0)) := by
    rw [List.getElem?_map, List.getElem?_range htag]
    rfl
  rw [hindex]
  have hfound := (lookup_placeAlts htag hplace).2 rfl
  rcases hchosen with ⟨a, hfind, rfl⟩ | ⟨hfind, rfl⟩
  · rw [hfind] at hfound
    obtain ⟨node, hnode, hmem⟩ := hfound
    rw [hnode, Option.getD_some]
    obtain ⟨b₁, b₁', D', hb₁, hcur₁, hbuilds, hle⟩ := exists_alt hp hplaced hb₅ hcur₅ halts hmem
    exact ⟨node, b₁, b₁', D', rfl, hb₁, hcur₁, hbuilds, hle.trans hother'⟩
  · rw [hfind] at hfound
    rcases hrest with ⟨hall, -, -⟩ | ⟨rfl, -⟩
    · have := hall tag htag
      rw [hfound] at this
      cases this
    · rcases hother with ⟨hnone, -⟩ | ⟨node, hnode, hother⟩
      · cases hnone
      · cases hnode
        obtain ⟨hb₆', -⟩ := Act.sound hb₆ (.start hcur₆)
        refine ⟨_, _, b', D, ?_, hb₆', rfl, hother, .refl _⟩
        rw [hfound]
        rfl

theorem codeEnds_of_case (hcx : cx.Plain n fields) {scrut : Atom} {alts : List (Cfun × BlockCall)}
    {default : Option BlockCall} {call : BlockCall}
    (hchoose : Machine.chooseAlt cx.program m env scrut alts default = .ok call)
    (htail : TailEnds n cx fields S out (.call call) env m.tick vals m') :
    CodeEnds n cx fields S out (.case scrut alts default) env m vals m' := by
  intro F b b' scope ρs regs s hsite hfit h hagree
  obtain ⟨D, hb⟩ := hsite.sound
  obtain ⟨hcalls, hdefault⟩ := hfit.ok.case
  obtain ⟨k, fs, hv, hchosen⟩ := chooseAlt_inv hchoose
  have hcall : TailFit cx fields scope (.call call) ρs := hfit.call hchosen.mem_calls
  obtain ⟨σ, hscrut, halts⟩ : ∃ σ, AtomHas (cx.program.wordContext fields) scrut σ ∧
      ∀ alt ∈ alts, σ.head? = some alt.1.data := by
    cases hfit.ok.typed with
    | case hscrut halts _ =>
        refine ⟨_, hscrut, fun alt halt => ?_⟩
        obtain ⟨⟨inst, ⟨-, -, -, -, hhead⟩, hresult⟩, -⟩ := halts alt halt
        exact hresult ▸ hhead
  have hreach : ∀ id, scrut.defn? = some id → id ∈ cx.program.reachable := fun id hid =>
    hfit.ok.refs id (List.mem_append_left _ (Option.mem_toList.mpr hid))
  have hatom : ∀ {r : Reg} {b₁ : Builder}, Builds cx (atom scrut) b r b₁ → b₁.Le F → _ :=
    fun hr hle => runs_atom out.Calls hcx hb hscrut hreach
      (fun t ht => hfit.inScope t (List.mem_singleton.mp ht ▸ .head _)) hagree.holds hv hr hle
  cases chooses_of_builds h with
  | @rest value b₁ hnil hvalue hrest =>
      subst hnil
      have hsome : default = some call := hchosen.elim (fun ⟨_, hfind, _⟩ => nomatch hfind) And.right
      subst hsome
      obtain ⟨hb₁, -⟩ := (acts_atom (w := ρs.length) (D := D) hvalue).sound hb
      obtain ⟨-, hle₂⟩ := (acts_jump (D := D) hcx.ready.words (hdefault call rfl) hrest).1.sound hb₁
      obtain ⟨regs₁, hruns, -, -, hframe, -, -⟩ := hatom hvalue (hle₂.trans hsite.le)
      obtain ⟨node, hnode⟩ := hsite.opened
      obtain ⟨node₁, hnode₁, -⟩ := hruns node hnode
      exact (htail ⟨hsite.drained, hsite.symbols, ⟨D, hb₁⟩, ⟨node₁, hnode₁⟩, hsite.le⟩ hcall hrest
        ⟨hagree.holds.frame hframe, hagree.printed, hagree.size⟩).imp hruns.ends
  | @split first firstCall others count value placed targets rest b₁ b₂ b₃ b₄ b₅ b₆ hcons hcount hvalue
      hload hplace hrest hjump halts' hother =>
      obtain ⟨hb₁, hle₁⟩ := (acts_atom (w := ρs.length) (D := D) hvalue).sound hb
      obtain ⟨hb₁', hle₁'⟩ := (Acts.of (.reg (R := lawful cx ρs.length) (D := D))).sound hb₁
      obtain ⟨hb₂, hle₂⟩ := (acts_loadWord (w := ρs.length) (D := D) hload).sound hb₁'
      obtain ⟨-, hcur₄, hle₃, -, -, hle₄, -, -, hle₅⟩ := sound_split hcx.ready.words hcalls hdefault hb₂
        hplace hrest hjump halts' hother
      have hle₃' := hle₄.trans (hle₅.trans hsite.le)
      have hle₂' := hle₃.trans hle₃'
      obtain ⟨regs₁, hruns₁, ⟨x, hx, henc⟩, hhas, hframe, -, -⟩ := hatom hvalue
        (hle₁'.trans (hle₂.trans hle₂'))
      obtain ⟨hk, hhead, -⟩ := hhas.of_data
      have hdata : k.data = first.data :=
        Option.some.inj (hhead.symm.trans (halts (first, firstCall) (hcons ▸ .head _)))
      have htag : k.tag < count := by
        rw [hcount, ← hdata]
        exact hcx.ready.words.tags hk
      obtain ⟨node, bc, bc', D', htarget, hbc, hnode, hjumps, hle⟩ := exists_choice hcx.ready.words hcalls
        hdefault htag hchosen hb₂ hplace hrest hjump halts' hother
      cases henc with
      | @data _ _ a xs hrecord hxs =>
          have hnew := not_kept_nextReg hb₁ (hle₂.trans hle₂')
          have hruns₂ : Runs out.Calls F { b₁ with nextReg := b₁.nextReg + 1 } b₂ regs₁ s
              (regs₁.set b₁.nextReg (.word (BitVec.ofNat n k.tag))) s :=
            runs_loadWord hcx (i := 0) rfl hx (load_head hrecord) hload hle₂'
          have hagree₁ : Agree cx fields S F scope m.tick env
              (regs₁.set b₁.nextReg (.word (BitVec.ofNat n k.tag))) s :=
            ⟨(hagree.holds.frame hframe).frame (frame_set hnew), hagree.printed, hagree.size⟩
          have hword : (BitVec.ofNat n k.tag).toNat = k.tag :=
            (BitVec.toNat_ofNat _ _).trans (Nat.mod_eq_of_lt (hcx.tags hk))
          rw [← hword] at htarget
          refine (htail ⟨hsite.drained, hsite.symbols, ⟨D', hbc⟩, ⟨node, hnode⟩, hle.trans hsite.le⟩ hcall
            hjumps hagree₁).imp fun hends => ?_
          refine (hruns₁.trans hruns₂).ends fun node₂ hnode₂ => ?_
          exact .step (lookup_of_terminate hjump hle₃' (hcur₄.trans hnode₂))
            (.jump (Regs.set_self _ _ _) htarget) (hends node hnode)

end Bodies

end Mil.Rtl
