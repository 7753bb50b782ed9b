import Mil.Proofs.Rtl.Enter
import Mil.Proofs.Rtl.Supplied

/-!
Jumps, bodies and whole functions write first what they read. A jump inside a function copies its
operands to the parameters of the block, so that the block begins with its parameters written; a body
that is placed only reads temporaries in scope, whose registers were written where they were bound.
The code of a block is therefore supplied by its parameters, wherever the jumps to it come from.
-/

namespace Mil.Rtl

open Typing BuildM

/-! ### Calls -/

section Calls

variable {cx : Setting} {fields : FieldLayout} {w : Nat} {D : List Node} {F b b' : Builder}
  {A : Reg → Prop} {scope : List Temp} {ρs : List Ty} {dests : List Reg} {u : Unit}

/-- The code of a closure is loaded from its record. -/
theorem supplied_entered (hb : b.Sound (lawful cx w) D) (hle : b'.Le F) {fn : Atom} {args : List Atom}
    {r : Callee × List Reg} (hscope : InScope scope (fn :: args)) (hheld : Held F A scope)
    (h : Builds cx (entered fn args) b r b')
    (hrest : SuppliedAt cx F (fun q => A q ∨ q ∈ r.2 ++ r.1.regs) b') : SuppliedAt cx F A b := by
  obtain ⟨record, b₁, hrecord, h⟩ := Builds.bind_iff.mp h
  obtain ⟨rest, b₂, hargs, h⟩ := Builds.bind_iff.mp h
  rw [Builds.freshReg_bind] at h
  obtain ⟨_, b₃, hload, h⟩ := Builds.bind_iff.mp h
  obtain ⟨rfl, rfl⟩ := Builds.pure_iff.mp h
  obtain ⟨hb₁, -⟩ := (acts_atom (w := w) (D := D) hrecord).sound hb
  obtain ⟨hb₂, hle₁⟩ := (acts_atoms (w := w) (D := D) hargs).1.sound hb₁
  obtain ⟨-, hle₂⟩ := Acts.sound (.step .reg (acts_loadWord (w := w) (D := D) hload)) hb₂
  have hle₂ := hle₂.trans hle
  refine supplied_atom (hle₁.trans hle₂) (fun t ht => ?_) hheld hrecord ?_
  · exact hscope t (List.mem_singleton.mp ht ▸ .head _)
  refine supplied_atoms hb₁ hle₂ (fun t ht => hscope t (.tail _ ht)) (hheld.mono fun r => .inl) hargs ?_
  have hloaded : ∀ r, A r ∨ r ∈ (record :: rest) ++ [b₂.nextReg] →
      ((A r ∨ r ∈ [record]) ∨ r ∈ rest) ∨ r ∈ [b₂.nextReg] := fun r hr => by
    simp only [List.mem_cons, List.mem_append, List.not_mem_nil, or_false] at hr ⊢
    tauto
  have hsupplied := supplied_loadWord (A := fun r => (A r ∨ r ∈ [record]) ∨ r ∈ rest) hle hload
    (.inl (.inr (.head _))) (hrest.mono hloaded)
  exact hsupplied

/-- The values of a tail are written to the registers that take them. -/
theorem supplied_bind (hcx : cx.Ready fields) (hb : b.Sound (lawful cx w) D) (hle : b'.Le F) {t : Tail}
    (ht : TailOk cx fields t ρs) (hroot : ∀ c, t = .call c → c.block ∈ cx.roots)
    (hdests : dests.length = ρs.length) (hscope : InScope scope t.atoms) (hheld : Held F A scope)
    (h : Builds cx (BuildM.bind dests (some t)) b u b')
    (hrest : SuppliedAt cx F (fun r => A r ∨ r ∈ dests) b') : SuppliedAt cx F A b := by
  unfold BuildM.bind at h
  split at h
  · rename_i c heq
    cases heq
    rw [Builds.resolve_bind, hcx.words.resolve ht.call.reach] at h
    obtain ⟨name, b₁, hname, h⟩ := Builds.bind_iff.mp h
    obtain ⟨args, b₂, hargs, h⟩ := Builds.bind_iff.mp h
    obtain ⟨hacts₁, hname'⟩ := acts_symbol (R := lawful cx w) (D := D) hname
    obtain ⟨hacts₂, hlen⟩ := acts_atoms (w := w) (D := D) hargs
    obtain ⟨hb₁, -⟩ := hacts₁.sound hb
    obtain ⟨hb₂, -⟩ := hacts₂.sound hb₁
    have hsymbol := ht.call.symbol hcx.words (hroot c rfl) (hacts₂.symbols.names hname')
    rw [← hlen, ← hdests] at hsymbol
    have hacts₃ := acts_emit (R := lawful cx w) (D := D) h (fun _ => rfl) fun _ => .inr hsymbol
    obtain ⟨-, hle₂⟩ := hacts₃.sound hb₂
    have hsupplied : SuppliedAt cx F A b₁ := by
      refine supplied_atoms hb₁ (hle₂.trans hle) hscope hheld hargs ?_
      refine supplied_emit hle h (fun _ => rfl) (fun _ => rfl) (fun _ => rfl) (fun r hr => .inr ?_)
        (hrest.mono fun r hr => hr.imp_left .inl)
      simpa [Callee.regs] using hr
    obtain ⟨-, rfl⟩ := Builds.symbol_iff.mp hname
    exact hsupplied
  · rename_i fn args heq
    cases heq
    obtain ⟨⟨code, operands⟩, b₁, hentered, h⟩ := Builds.bind_iff.mp h
    obtain ⟨hacts, r, hr⟩ := acts_entered (w := w) (D := D) hentered
    cases hr
    obtain ⟨hb₁, -⟩ := hacts.sound hb
    obtain ⟨-, hle₁⟩ := (acts_emit (R := lawful cx w) (D := D) h (fun _ => rfl) fun _ => trivial).sound hb₁
    refine supplied_entered hb (hle₁.trans hle) hscope hheld hentered ?_
    exact supplied_emit hle h (fun _ => rfl) (fun _ => rfl) (fun _ => rfl) (fun q hq => .inr hq)
      (hrest.mono fun q hq => hq.imp_left .inl)
  · exact supplied_compute hcx hb hle ht (fun _ => hdests) hscope hheld h hrest

end Calls

/-! ### Jumps -/

section Jumps

variable {cx : Setting} {fields : FieldLayout} {w : Nat} {D : List Node} {F b b' : Builder}
  {A : Reg → Prop} {scope : List Temp} {ρs : List Ty} {u : Unit}

/-- A block that is jumped to begins with its parameters written. -/
theorem supplied_lands (hb : b.Sound (lawful cx w) D) (hle : b'.Le F) {target : DefnId} {args : List Reg}
    {node : Node} (hlabel : b.labels.lookup target = some node) (hargs : ∀ r ∈ args, A r)
    (h : Lands cx target args node b b') : SuppliedAt cx F A b := by
  obtain ⟨hblock, hparams, hlen, hcopies, hout, hin, hend⟩ := h
  rename_i k params copies b₁ b₂ b₃ b₄
  have hacts₁ := (acts_mapM (R := lawful cx w) (D := D) (fun _ _ => acts_regOf) hparams).1
  obtain ⟨hacts₂, hcount⟩ := acts_freshRegs (R := lawful cx w) (D := D) hcopies
  have hacts₃ := acts_forM (R := lawful cx w) (D := D) (fun _ _ => acts_move) hout
  have hacts₄ := acts_forM (R := lawful cx w) (D := D) (fun _ _ => acts_move) hin
  have hlabels := ((hacts₁.trans hacts₂).trans (hacts₃.trans hacts₄)).labels hlabel
  obtain ⟨hacts₅, -⟩ := acts_terminate (R := lawful cx w) (D := D) hend trivial fun s hs =>
    .inr ⟨target, List.mem_singleton.mp hs ▸ hlabels⟩
  obtain ⟨hb₁, -⟩ := hacts₁.sound hb
  obtain ⟨hb₂, hle₂⟩ := hacts₂.sound hb₁
  obtain ⟨hb₃, hle₃⟩ := hacts₃.sound hb₂
  obtain ⟨hb₄, hle₄⟩ := hacts₄.sound hb₃
  obtain ⟨-, hle₅⟩ := hacts₅.sound hb₄
  have hle₄ := hle₄.trans (hle₅.trans hle)
  have hle₂ := hle₂.trans (hle₃.trans hle₄)
  obtain ⟨hcur, -⟩ := fresh_freshRegs hb₁ hcopies (hle₃.trans hle₄)
  have hsame : b₂.current = b.current := by
    rw [hcur, regs_mapM hparams]
  have hregs : List.Forall₂ (fun t r => F.regs.lookup t = some r) k.params params :=
    (lookup_mapM hb hparams).imp fun _ _ ht => hle₂.regs ht
  have hbegins : Begins cx F (fun r => (A r ∨ r ∈ copies) ∨ r ∈ params) node := by
    refine ⟨target, k, hle.labels (hacts₅.labels hlabels), hblock, fun t ht r hr => .inr ?_⟩
    obtain ⟨r', hr', hreg⟩ := Machine.exists_of_mem_right hregs.flip ht
    cases hr.symm.trans hreg
    exact hr'
  intro start hstart
  refine supplied_moves hb₂ hle₄ hcount hout hargs ?_ start (hsame.trans hstart)
  refine supplied_moves hb₃ (hle₅.trans hle) (hlen.trans hcount.symm) hin (fun r => .inr) ?_
  exact supplied_terminate hle hend nofun fun s hs => .inl (List.mem_singleton.mp hs ▸ hbegins)

theorem supplied_jump (hcx : cx.Ready fields) {c : BlockCall} (hc : CallOk cx fields c ρs)
    (hb : b.Sound (lawful cx ρs.length) D) (hle : b'.Le F) (hscope : InScope scope c.args)
    (hheld : Held F A scope) (h : Builds cx (jump c) b u b') : SuppliedAt cx F A b := by
  cases jumps_of_builds h with
  | @leave args name b₁ b₂ hargs hnone hroot hname hend =>
      rw [hcx.words.resolve hc.reach] at hroot hname
      obtain ⟨hacts₁, hlen⟩ := acts_atoms (w := ρs.length) (D := D) hargs
      obtain ⟨hacts₂, hname'⟩ := acts_symbol (R := lawful cx ρs.length) (D := D) hname
      have hsymbol := hc.symbol hcx.words hroot hname'
      rw [← hlen] at hsymbol
      obtain ⟨hb₁, -⟩ := hacts₁.sound hb
      obtain ⟨hb₂, hle₂⟩ := hacts₂.sound hb₁
      obtain ⟨-, hle₃⟩ := (acts_terminate (R := lawful cx ρs.length) (D := D) hend hsymbol nofun).1.sound hb₂
      refine supplied_atoms hb (hle₂.trans (hle₃.trans hle)) hscope hheld hargs ?_
      have hsupplied : SuppliedAt cx F (fun r => A r ∨ r ∈ args) b₂ :=
        supplied_terminate hle hend (fun r hr => .inr (by simpa [Instr.uses, Callee.regs] using hr)) nofun
      obtain ⟨-, rfl⟩ := Builds.symbol_iff.mp hname
      exact hsupplied
  | @again args node b₁ hargs hlabel hlands =>
      obtain ⟨hb₁, -⟩ := (acts_atoms (w := ρs.length) (D := D) hargs).1.sound hb
      obtain ⟨-, hle₁⟩ := (acts_lands (w := ρs.length) (D := D) hlabel hlands).1.sound hb₁
      exact supplied_atoms hb (hle₁.trans hle) hscope hheld hargs
        (supplied_lands hb₁ hle hlabel (fun r => .inr) hlands)
  | @new args node b₁ b₂ hargs hnone hnew hlands =>
      rw [hcx.words.resolve hc.reach] at hnone hnew hlands
      obtain ⟨rfl, rfl⟩ := Builds.newLabel_iff.mp hnew
      have hlabel := (lookup_cons_ite c.block c.block b₁.nextNode b₁.labels).trans (if_pos rfl)
      obtain ⟨hb₁, -⟩ := (acts_atoms (w := ρs.length) (D := D) hargs).1.sound hb
      obtain ⟨hb₂, hle₂⟩ := Act.sound hb₁ (.label hnone (hc.joins hcx.words))
      obtain ⟨-, hle₃⟩ := (acts_lands (w := ρs.length) (D := D) hlabel hlands).1.sound hb₂
      refine supplied_atoms hb (hle₂.trans (hle₃.trans hle)) hscope hheld hargs fun start hstart => ?_
      exact supplied_lands hb₂ hle hlabel (fun r => .inr) hlands start hstart

theorem supplied_tail (hcx : cx.Ready fields) {t : Tail} (ht : TailOk cx fields t ρs)
    (hb : b.Sound (lawful cx ρs.length) D) (hle : b'.Le F) (hscope : InScope scope t.atoms)
    (hheld : Held F A scope) (h : Builds cx (BuildM.tail (some t)) b u b') : SuppliedAt cx F A b := by
  unfold BuildM.tail at h
  split at h
  · rename_i c heq
    cases heq
    exact supplied_jump hcx ht.call hb hle hscope hheld h
  · rename_i fn args heq
    cases heq
    obtain ⟨⟨code, operands⟩, b₁, hentered, h⟩ := Builds.bind_iff.mp h
    obtain ⟨hacts, r, hr⟩ := acts_entered (w := ρs.length) (D := D) hentered
    cases hr
    obtain ⟨hb₁, -⟩ := hacts.sound hb
    obtain ⟨-, hle₁⟩ := (acts_terminate (R := lawful cx ρs.length) (D := D) h trivial nofun).1.sound hb₁
    exact supplied_entered hb (hle₁.trans hle) hscope hheld hentered
      (supplied_terminate hle h (fun q hq => .inr hq) nofun)
  · rename_i args heq
    cases heq
    obtain ⟨regs, b₁, hregs, h⟩ := Builds.bind_iff.mp h
    obtain ⟨hacts, hlen⟩ := acts_atoms (w := ρs.length) (D := D) hregs
    obtain ⟨τs, hτs, hargs⟩ := ht.typed.ret_inv
    cases hτs
    obtain ⟨hb₁, -⟩ := hacts.sound hb
    obtain ⟨-, hle₁⟩ := (acts_terminate (R := lawful cx ρs.length) (D := D) h
      (hlen.trans (length_of_argsHave hargs)) nofun).1.sound hb₁
    exact supplied_atoms hb (hle₁.trans hle) hscope hheld hregs
      (supplied_terminate hle h (fun r hr => .inr hr) nofun)
  · rename_i hcall henter hret
    rw [Builds.read_bind] at h
    obtain ⟨dests, b₁, hdests, h⟩ := Builds.bind_iff.mp h
    obtain ⟨_, b₂, hcompute, h⟩ := Builds.bind_iff.mp h
    rw [Builds.isOpen_bind] at h
    obtain ⟨hacts₁, hlen⟩ := acts_freshRegs (R := lawful cx ρs.length) (D := D) hdests
    obtain ⟨hacts₂, hends⟩ := acts_compute (w := ρs.length) (D := D) hcx.words ht hcompute
    obtain ⟨hb₁, -⟩ := hacts₁.sound hb
    obtain ⟨hb₂, hle₁⟩ := hacts₂.sound hb₁
    have hresults : t.doesntReturn = false → dests.length = ρs.length := fun hreturns =>
      hlen.trans (ht.resultsOf (fun c hc => hcall c (congrArg some hc))
        (fun fn args he => henter fn args (congrArg some he)) hreturns)
    have hrest : b₂.Le F ∧ SuppliedAt cx F (fun r => A r ∨ r ∈ dests) b₂ := by
      split at h
      · rename_i hopen
        have hreturns : t.doesntReturn = false := by
          by_contra hdoesnt
          rw [hends (by simpa using hdoesnt)] at hopen
          cases hopen
        obtain ⟨-, hle₂⟩ := (acts_terminate (R := lawful cx ρs.length) (D := D) h (hresults hreturns)
          nofun).1.sound hb₂
        exact ⟨hle₂.trans hle, supplied_terminate hle h (fun r hr => .inr hr) nofun⟩
      · rename_i hclosed
        obtain ⟨-, rfl⟩ := Builds.pure_iff.mp h
        refine ⟨hle, fun node hnode => ?_⟩
        rw [hnode] at hclosed
        exact absurd rfl hclosed
    obtain ⟨hcur, -⟩ := fresh_freshRegs hb hdests (hle₁.trans hrest.1)
    intro node hnode
    exact supplied_compute hcx hb₁ hrest.1 ht hresults hscope hheld hcompute hrest.2 node (hcur.trans hnode)

theorem supplied_otherwise (hcx : cx.Ready fields) {default : Option BlockCall}
    (hdefault : ∀ c, default = some c → CallOk cx fields c ρs ∧ InScope scope c.args)
    (hb : b.Sound (lawful cx ρs.length) D) (hle : b'.Le F) (hheld : Held F A scope)
    (h : Builds cx (otherwise default) b u b') : SuppliedAt cx F A b := by
  cases default with
  | some c => exact supplied_jump hcx (hdefault c rfl).1 hb hle (hdefault c rfl).2 hheld h
  | none => exact supplied_terminate hle h nofun nofun

end Jumps

/-! ### Bodies -/

section Bodies

variable {cx : Setting} {fields : FieldLayout} {D : List Node} {F b b' : Builder}
  {A : Reg → Prop} {scope : List Temp} {ρs : List Ty} {u : Unit}

/-- A branch on a constructor reads the number of the constructor, and jumps from every node that it
leads to. -/
theorem supplied_choose (hcx : cx.Ready fields) {scrut : Atom} {alts : List (Cfun × BlockCall)}
    {default : Option BlockCall} (hcalls : ∀ alt ∈ alts, CallOk cx fields alt.2 ρs)
    (hdefault : ∀ c, default = some c → CallOk cx fields c ρs)
    (hscope : InScope scope (Code.case scrut alts default).atoms) (hheld : Held F A scope)
    (hb : b.Sound (lawful cx ρs.length) D) (hle : b'.Le F)
    (h : Builds cx (choose scrut alts default) b u b') : SuppliedAt cx F A b := by
  have hscrut : InScope scope [scrut] := fun t ht => hscope t (List.mem_singleton.mp ht ▸ .head _)
  have hother : ∀ c, default = some c → CallOk cx fields c ρs ∧ InScope scope c.args := fun c hc =>
    ⟨hdefault c hc, fun t ht => hscope t (.tail _ (List.mem_flatMap.mpr
      ⟨c, List.mem_append_right _ (Option.mem_toList.mpr hc), ht⟩))⟩
  cases chooses_of_builds h with
  | rest hnil hvalue hrest =>
      obtain ⟨hb₁, -⟩ := (acts_atom (w := ρs.length) (D := D) hvalue).sound hb
      obtain ⟨-, hle₁⟩ := (acts_otherwise (D := D) hcx.words hdefault hrest).1.sound hb₁
      exact supplied_atom (hle₁.trans hle) hscrut hheld hvalue
        (supplied_otherwise hcx hother hb₁ hle (hheld.mono fun r => .inl) hrest)
  | @split first call others count value placed targets rest b₁ b₂ b₃ b₄ b₅ b₆ hcons hcount hvalue
      hload hplace hrest hjump halts hend =>
      obtain ⟨hb₁, -⟩ := (acts_atom (w := ρs.length) (D := D) hvalue).sound hb
      obtain ⟨hb₂, hle₁⟩ := Acts.sound (.step .reg (acts_loadWord (w := ρs.length) (D := D) hload)) hb₁
      obtain ⟨hplaced, hcur₄, hle₂, hb₅, hcur₅, hle₅, hb₆, hcur₆, hle₆⟩ :=
        sound_split hcx.words hcalls hdefault hb₂ hplace hrest hjump halts hend
      obtain ⟨-, halt, htargets⟩ := acts_placeAlts (R := lawful cx ρs.length) (D := D) hplace
      have hle₆ := hle₆.trans hle
      have hle₅ := hle₅.trans hle₆
      have hle₂ := hle₂.trans hle₅
      -- every entry of the table is a node that jumps to an alternative, or the one for the rest
      have htable : ∀ {B : Reg → Prop}, (∀ r, A r → B r) → ∀ s ∈ (List.range count).map (fun t =>
          (targets.lookup t).getD (rest.getD 0)), Supplied cx F B s := by
        intro B hAB s hs
        have hheld := hheld.mono hAB
        obtain ⟨t, ht, rfl⟩ := List.mem_map.mp hs
        cases hn : targets.lookup t with
        | some node =>
            obtain ⟨q, hq, rfl⟩ := List.mem_map.mp ((htargets hn).resolve_left nofun)
            obtain ⟨k, hk⟩ := halt q hq
            obtain ⟨c₁, c₂, D', hc₁, hcur, hjump, hle⟩ := exists_alt hcx.words hplaced hb₅ hcur₅ halts hq
            refine supplied_jump hcx (hplaced q hq) hc₁ (hle.trans hle₆) (fun t ht => hscope t ?_) hheld hjump
              _ hcur
            exact .tail _ (List.mem_flatMap.mpr
              ⟨q.2, List.mem_append_left _ (List.mem_map_of_mem (f := Prod.snd) hk), ht⟩)
        | none =>
            rcases hend with ⟨rfl, -⟩ | ⟨node, rfl, hend⟩
            · rcases hrest with ⟨hall, -⟩ | ⟨hsome, -⟩
              · have := hall t (List.mem_range.mp ht)
                rw [hn] at this
                cases this
              · cases hsome
            · obtain ⟨hb₆', -⟩ := Act.sound hb₆ (.start hcur₆)
              exact supplied_otherwise hcx hother hb₆' hle hheld hend node rfl
      refine supplied_atom (hle₁.trans hle₂) hscrut hheld hvalue ?_
      have htag : SuppliedAt cx F (fun r => (A r ∨ r ∈ [value]) ∨ r ∈ [b₁.nextReg]) b₂ := fun node hnode =>
        supplied_terminate hle₅ hjump (fun r hr => .inr hr)
          (fun s hs => .inr (htable (fun r hr => .inl (.inl hr)) s hs)) node (hcur₄.trans hnode)
      have hsupplied := supplied_loadWord (A := fun r => A r ∨ r ∈ [value]) hle₂ hload (.inr (.head _)) htag
      exact hsupplied

/-- A body that is placed reads the registers of temporaries in scope, and those that it has written. -/
theorem supplied_code (hcx : cx.Ready fields) {c : Code} (hc : CodeOk cx fields c ρs)
    (hb : b.Sound (lawful cx ρs.length) D) (hle : b'.Le F) (hscope : c.Scoped scope)
    (hheld : Held F A scope) (h : Builds cx (code c) b u b') : SuppliedAt cx F A b := by
  induction c generalizing b scope A with
  | bind vars t next ih =>
      obtain ⟨⟨τs, ht, hvars⟩, hroot, hnext⟩ := hc.bind
      obtain ⟨dests, b₁, hdests, h⟩ := Builds.bind_iff.mp h
      obtain ⟨_, b₂, hbind, h⟩ := Builds.bind_iff.mp h
      rw [Builds.isOpen_bind] at h
      obtain ⟨hacts₁, hlen⟩ := acts_mapM (R := lawful cx ρs.length) (D := D) (fun _ _ => acts_regOf) hdests
      have hvars := length_of_argsHave hvars
      rw [List.length_map] at hvars
      have hlen := hlen.trans hvars
      obtain ⟨hb₁, -⟩ := hacts₁.sound hb
      obtain ⟨hb₂, hle₁⟩ := (acts_bind (w := ρs.length) (D := D) hcx.words ht hroot hlen hbind).sound hb₁
      have hrest : b₂.Le F ∧ ((∀ t ∈ vars, ∃ r ∈ dests, F.regs.lookup t = some r) →
          SuppliedAt cx F (fun r => A r ∨ r ∈ dests) b₂) := by
        split at h
        · refine ⟨((acts_code (D := D) hcx.words hnext h).1.sound hb₂).2.trans hle, fun hregs => ?_⟩
          refine ih hnext hb₂ hscope.2 (fun t ht r hr => ?_) h
          rcases List.mem_append.mp ht with ht | ht
          · obtain ⟨r', hr', hreg⟩ := hregs t ht
            cases hr.symm.trans hreg
            exact .inr hr'
          · exact .inl (hheld t ht r hr)
        · rename_i hclosed
          obtain ⟨-, rfl⟩ := Builds.pure_iff.mp h
          refine ⟨hle, fun _ node hnode => ?_⟩
          rw [hnode] at hclosed
          exact absurd rfl hclosed
      have hregs := (lookup_mapM hb hdests).imp fun _ _ ht => (hle₁.trans hrest.1).regs ht
      have hcur : b₁.current = b.current := by rw [regs_mapM hdests]
      intro node hnode
      exact supplied_bind hcx hb₁ hrest.1 ht hroot hlen hscope.1 hheld hbind
        (hrest.2 fun t ht => Machine.exists_of_mem_right hregs.flip ht) node (hcur.trans hnode)
  | done t => exact supplied_tail hcx hc.tail hb hle hscope hheld h
  | branch cond c d =>
      obtain ⟨hc, hd⟩ := hc.branch
      obtain ⟨r, b₁, hr, h⟩ := Builds.bind_iff.mp h
      rw [Builds.freshNode_bind, Builds.freshNode_bind] at h
      dsimp only at h
      obtain ⟨_, b₂, hbranch, h⟩ := Builds.bind_iff.mp h
      rw [Builds.startAt_bind] at h
      obtain ⟨_, b₃, hjump, h⟩ := Builds.bind_iff.mp h
      rw [Builds.startAt_bind] at h
      obtain ⟨hb₁, -⟩ := (acts_atom (w := ρs.length) (D := D) hr).sound hb
      obtain ⟨hacts₂, hcur₂⟩ := acts_terminate (R := lawful cx ρs.length)
        (D := (b₁.nextNode + 1) :: b₁.nextNode :: D) hbranch trivial (by simp [Instr.successors])
      obtain ⟨hb₂, hle₂⟩ := Acts.sound (.step .node (.step .node hacts₂)) hb₁
      obtain ⟨hb₂', hle₂'⟩ := Acts.sound (.step (.perm (.swap _ _ _)) (.of (.start hcur₂))) hb₂
      obtain ⟨hacts₃, hcur₃⟩ := acts_jump (D := (b₁.nextNode + 1) :: D) hcx.words hc hjump
      obtain ⟨hb₃, hle₃⟩ := hacts₃.sound hb₂'
      obtain ⟨hb₃', hle₃'⟩ := Act.sound hb₃ (.start hcur₃)
      obtain ⟨-, hle₄⟩ := (acts_jump (D := D) hcx.words hd h).1.sound hb₃'
      have hle₃' := hle₃'.trans (hle₄.trans hle)
      have hle₂' := hle₂'.trans (hle₃.trans hle₃')
      have hheld' : Held F (fun q => A q ∨ q ∈ [r]) scope := hheld.mono fun q => .inl
      have hso := supplied_jump hcx hc hb₂' hle₃' (fun t ht => hscope t (by simp [Code.atoms, ht])) hheld'
        hjump
      have hnot := supplied_jump hcx hd hb₃' hle (fun t ht => hscope t (by simp [Code.atoms, ht])) hheld' h
      refine supplied_atom (hle₂.trans hle₂') (fun t ht => ?_) hheld hr fun node hnode =>
        supplied_terminate hle₂' hbranch (fun q hq => .inr hq) (fun s hs => .inr ?_) node hnode
      · exact hscope t (List.mem_singleton.mp ht ▸ .head _)
      · rcases List.mem_cons.mp hs with rfl | hs
        · exact hso _ rfl
        · rw [List.mem_singleton.mp hs]
          exact hnot _ rfl
  | case scrut alts default =>
      obtain ⟨hcalls, hdefault⟩ := hc.case
      exact supplied_choose hcx hcalls hdefault hscope hheld hb hle h

end Bodies

/-! ### Functions -/

section Functions

variable {cx : Setting} {fields : FieldLayout} {results w : Nat} {F b b' : Builder} {A : Reg → Prop}
  {id : DefnId} {d : Defn} {raw f : Function}

/-- The code of a block in a finished function reads its parameters, and what it has written. -/
theorem Builder.Drained.supplied (hcx : cx.Ready fields) (hF : F.Drained cx results) {k : Block}
    {node : Node} (hlabel : F.labels.lookup id = some node) (hk : cx.program.block id = .ok k) :
    Supplied cx F (fun r => ∃ t ∈ k.params, F.regs.lookup t = some r) node := by
  obtain ⟨hid, d, k', hd, hk', hresults⟩ := (hF.sound.labels hlabel).1
  obtain rfl : k' = k := Except.ok.inj ((block_eq hd hk').symm.trans hk)
  obtain ⟨c, τs, ρs, hc, hok, -, -, hlen⟩ := hcx.block hid hd hk'
  obtain rfl := hresults.symm.trans hlen
  obtain ⟨k₁, c₁, b₁, b₂, hk₁, hc₁, hb₁, hnode, hcode, hle⟩ := hF.placed hlabel
  cases hk.symm.trans hk₁
  cases hc.symm.trans hc₁
  have hscope := (hcx.words.onWords hid hd).inScope
  rw [hk'] at hscope
  exact supplied_code hcx hok hb₁ hle (hscope c hc) (fun t ht r hr => ⟨t, ht, hr⟩) hcode node hnode

/-- A function writes first what it reads if its parameters supply the node that it starts at. -/
theorem Made.writesFirst (hcx : cx.Ready fields) (hmade : Made cx results F raw f)
    (h : Supplied cx F (fun r => r ∈ raw.params) raw.entry) : f.WritesFirst := by
  rw [hmade.final]
  refine Function.writesFirst_passes (fun _ => trivial) hmade.sound_raw
    (Function.writesFirst_iff.mpr fun r hreads => ?_)
  rw [hmade.code] at hreads
  exact h.of_reads (fun hlabel hk => hmade.drained.supplied hcx hlabel hk) hreads

/-- What a closure stores is loaded from its record. -/
theorem supplied_loads (hb : b.Sound (lawful cx w) []) (hle : b'.Le F) {record : Reg} (hrecord : A record)
    {ts : List Temp} {i : Nat} {u : Unit} (h : Builds cx ((ts.zipIdx i).forM fun (t, i) => do
      let r ← regOf t
      loadWord record (1 + i) r) b u b')
    (hrest : ∀ {B : Reg → Prop}, (∀ r, A r → B r) → Held F B ts → SuppliedAt cx F B b') :
    SuppliedAt cx F A b := by
  induction ts generalizing b i A with
  | nil =>
      rw [← Builds.forM_nil_iff.mp h]
      exact hrest (fun r hr => hr) nofun
  | cons t ts ih =>
      rw [List.zipIdx_cons] at h
      obtain ⟨b₂, hfirst, h⟩ := Builds.forM_cons_iff.mp h
      obtain ⟨r, b₁, hr, hload⟩ := Builds.bind_iff.mp hfirst
      obtain ⟨hb₁, -⟩ := (acts_regOf (R := lawful cx w) (D := []) hr).sound hb
      obtain ⟨hb₂, hle₁⟩ := (acts_loadWord (w := w) (D := []) hload).sound hb₁
      have hacts : Acts (lawful cx w) [] b₂ [] b' := by
        refine acts_forM (fun q _ {b b'} hq => ?_) h
        obtain ⟨r, b₁, hr, hload⟩ := Builds.bind_iff.mp hq
        exact (acts_regOf hr).trans (acts_loadWord hload)
      obtain ⟨-, hle₂⟩ := hacts.sound hb₂
      have hle₂ := hle₂.trans hle
      obtain ⟨hreg, hcur⟩ : F.regs.lookup t = some r ∧ b₁.current = b.current := by
        rcases Builds.regOf_iff.mp hr with ⟨hr, rfl⟩ | ⟨-, rfl, rfl⟩
        · exact ⟨(hle₁.trans hle₂).regs hr, rfl⟩
        · exact ⟨(hle₁.trans hle₂).regs ((lookup_cons_ite t t _ _).trans (if_pos rfl)), rfl⟩
      intro node hnode
      refine supplied_loadWord hle₂ hload hrecord (ih hb₂ (.inl hrecord) h fun {B} hAB hheld => ?_) node
        (hcur.trans hnode)
      refine hrest (fun q hq => hAB q (.inl hq)) (List.forall_mem_cons.mpr ⟨fun q hq => ?_, hheld⟩)
      cases hreg.symm.trans hq
      exact hAB r (.inr (.head _))

/-- The function of a closure takes the record and the arguments, and loads the rest. -/
theorem Opens.supplied (hcx : cx.Ready fields) (hid : id ∈ cx.program.reachable)
    (hd : cx.program.defns[id]? = some d) {k : Closure} (hk : d.body = .closure k) {s : Symbols}
    (h : Opens cx k raw s F) : Supplied cx F (fun r => r ∈ raw.params) raw.entry := by
  obtain ⟨t, stored, τs, ρs, ht, hok, -⟩ := hcx.closure hid hd hk
  obtain ⟨args, b₂, b₄, b₅, hparams, hentry, hmap, hloads, htail, hle⟩ := h.parts
  rw [ht] at htail
  obtain ⟨hb₁, -⟩ := (Acts.of (.reg (R := lawful cx ρs.length) (D := []))).sound (sound_new s)
  obtain ⟨hb₂, -⟩ := (acts_mapM (R := lawful cx ρs.length) (D := []) (fun _ _ => acts_regOf) hmap).1.sound hb₁
  have hcur : b₂.current = none := by
    rw [regs_mapM hmap]
    rfl
  obtain ⟨hb₃, hle₂⟩ := Acts.sound (.step .node (.of (.start hcur))) hb₂
  have hacts : Acts (lawful cx ρs.length) []
      { b₂ with nextNode := b₂.nextNode + 1, current := some b₂.nextNode } [] b₄ := by
    refine acts_forM (fun q _ {b b'} hq => ?_) hloads
    obtain ⟨r, b₁, hr, hload⟩ := Builds.bind_iff.mp hq
    exact (acts_regOf hr).trans (acts_loadWord hload)
  obtain ⟨hb₄, hle₃⟩ := hacts.sound hb₃
  obtain ⟨-, hle₄⟩ := (acts_tail (D := []) hcx.words hok htail).1.sound hb₄
  have hle₄ := hle₄.trans hle
  have hregs : List.Forall₂ (fun t r => F.regs.lookup t = some r) k.args args :=
    (lookup_mapM hb₁ hmap).imp fun _ _ hr => (hle₂.trans (hle₃.trans hle₄)).regs hr
  have hscope := (hcx.words.onWords hid hd).inScope
  rw [hk] at hscope
  rw [hparams, hentry]
  refine supplied_loads (w := ρs.length) hb₃ hle₄ (.head _) hloads (fun {B} hAB hheld => ?_) _ rfl
  refine supplied_tail hcx hok hb₄ hle (hscope t ht) (fun u hu r hr => ?_) htail
  rcases List.mem_append.mp hu with hu | hu
  · exact hheld u hu r hr
  · obtain ⟨r', hr', hreg⟩ := Machine.exists_of_mem_right hregs.flip hu
    cases hr.symm.trans hreg
    exact hAB r (.tail _ hr')

/-- The words of a top-level definition are stored in its global. -/
theorem supplied_globals (hb : b.Sound (lawful cx w) []) (hle : b'.Le F) {name : String}
    {words : List (Reg × Nat)} {u : Unit} (hwords : ∀ p ∈ words, A p.1)
    (h : Builds cx (words.forM fun (r, i) => do
      let offset ← wordOffset i
      emit (.store (← read).chunk (.global name offset) [] r)) b u b')
    (hrest : SuppliedAt cx F A b') : SuppliedAt cx F A b := by
  induction words generalizing b with
  | nil =>
      rw [← Builds.forM_nil_iff.mp h]
      exact hrest
  | cons p words ih =>
      obtain ⟨hp, hwords⟩ := List.forall_mem_cons.mp hwords
      obtain ⟨b₁, hstore, h⟩ := Builds.forM_cons_iff.mp h
      dsimp only at hstore
      rw [Builds.wordOffset_bind, Builds.read_bind] at hstore
      have hacts := acts_emit (R := lawful cx w) (D := []) hstore (fun _ => rfl) fun _ => trivial
      obtain ⟨hb₁, -⟩ := hacts.sound hb
      obtain ⟨-, hle₁⟩ := (acts_globals h).sound hb₁
      refine supplied_emit (hle₁.trans hle) hstore (fun _ => rfl) (fun _ => rfl) (fun _ => rfl) ?_
        ((ih hb₁ hwords h).mono fun r => .inl)
      exact fun r hr => List.mem_singleton.mp hr ▸ hp

/-- The function of a top-level definition takes nothing. -/
theorem Starts.supplied (hcx : cx.Ready fields) (hid : id ∈ cx.program.reachable)
    (hd : cx.program.defns[id]? = some d) {l : TopLevel} (hl : d.body = .top l)
    (h : Starts cx l raw F) : Supplied cx F (fun r => r ∈ raw.params) raw.entry := by
  obtain ⟨t, τs, ht, hok, hroot, hlen⟩ := hcx.top hid hd hl
  obtain ⟨dests, b₁, b₂, b₃, hb₁, hnode, hdests, hbind, hle, hends⟩ := h.parts
  rw [ht] at hbind
  have hscope := (hcx.words.onWords hid hd).inScope
  rw [hl] at hscope
  obtain ⟨hacts₁, hcount⟩ := acts_freshRegs (R := lawful cx 0) (D := []) hdests
  have hcount := hcount.trans hlen
  obtain ⟨hb₂, -⟩ := hacts₁.sound hb₁
  obtain ⟨hb₃, hle₂⟩ := (acts_bind (w := 0) (D := []) hcx.words hok hroot hcount hbind).sound hb₂
  obtain ⟨hcur, -⟩ := fresh_freshRegs hb₁ hdests (hle₂.trans hle)
  refine supplied_bind hcx hb₂ hle hok hroot hcount (hscope t ht) nofun hbind ?_ _ (hcur.trans hnode)
  rcases hends with hclosed | ⟨name, b₄, b₅, hstores, hret, hle⟩
  · exact fun node hnode => nomatch hclosed.symm.trans hnode
  · obtain ⟨hb₄, -⟩ := (acts_globals hstores).sound hb₃
    obtain ⟨-, hle₄⟩ := (acts_terminate (R := lawful cx 0) (D := []) hret rfl nofun).1.sound hb₄
    refine supplied_globals hb₃ (hle₄.trans hle) (fun p hp => ?_) hstores
      (supplied_terminate hle hret nofun nofun)
    obtain ⟨-, -, hword⟩ := List.mem_zipIdx hp
    rw [hword]
    exact .inr (List.getElem_mem _)

/-- Every function of a program writes first what it reads. -/
theorem Emits.writesFirst (hcx : cx.Ready fields) (hid : id ∈ cx.program.reachable) {taken : List String}
    {s : Symbols} (h : Emits cx taken s id f) : f.WritesFirst := by
  cases h with
  | @block d k raw F hd hk hmade hentry hparams =>
      refine hmade.writesFirst hcx ((hmade.drained.supplied hcx hentry (block_eq hd hk)).mono fun r hr => ?_)
      obtain ⟨t, ht, hr⟩ := hr
      obtain ⟨r', hr', hreg⟩ := Machine.exists_of_mem_right hparams.flip ht
      cases hr.symm.trans hreg
      exact hr'
  | closure hd hk hmade hopens => exact hmade.writesFirst hcx (hopens.supplied hcx hid hd hk)
  | top hd hl hmade hstarts => exact hmade.writesFirst hcx (hstarts.supplied hcx hid hd hl)

end Functions

end Mil.Rtl

namespace Mil

open Rtl

section Outputs

variable {p : Program} {fields : FieldLayout} {size : Int} {out : Rtl.Program}

/-- In every function of the register transfer program of a word-level program, what a path from the
entry reads is a parameter or was written on the path; what is live at the entry are parameters. -/
theorem Program.toRtl_writesFirst (hp : p.WordLevel fields) (h : p.toRtl size = .ok out) :
    ∀ f ∈ out.functions, f.WritesFirst ∧ (Live.ofGraph f.code).before f.entry ⊆ f.params := by
  intro f hf
  obtain ⟨chunk, o, taken, done, -, rfl, ho, hdone⟩ := Program.toRtl_sound hp h
  have hready := ready_ofDefns hp size (size.tdiv 8) chunk
  obtain ⟨id, hid, hemits⟩ := ho.source hf
  obtain ⟨_, -, hsound⟩ := hemits.sound
  have hfirst : f.WritesFirst := hemits.writesFirst hready ((hdone id).mp hid)
  exact ⟨hfirst, fun r hr =>
    Function.writesFirst_iff.mp hfirst r ((Live.mem_before_ofGraph hsound.keys).mp hr)⟩

theorem toRtl_writesFirst_adder : adder.WordLevel (fun _ _ => []) ∧
    ∃ out, adder.toRtl 64 = .ok out ∧ out.functions.length = 2 ∧
      ∀ f ∈ out.functions, f.WritesFirst ∧ (Live.ofGraph f.code).before f.entry ⊆ f.params := by
  have hok : (adder.toRtl 64).toOption.any (fun out => decide (out.functions.length = 2)) = true := by
    decide +kernel
  refine ⟨adder_wordLevel, ?_⟩
  cases hout : adder.toRtl 64 with
  | error e =>
      rw [hout] at hok
      cases hok
  | ok out =>
      rw [hout] at hok
      exact ⟨out, rfl, of_decide_eq_true hok, Program.toRtl_writesFirst adder_wordLevel hout⟩

end Outputs

end Mil
