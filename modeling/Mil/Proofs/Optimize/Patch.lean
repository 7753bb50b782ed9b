import Mil.Proofs.Optimize.Copy
import Mil.Proofs.Optimize.Pass

/-!
Programs in which bodies were replaced by better ones. If the new body of each definition comes to
what the old one comes to, in the old program, then whatever a job comes to in the old program it
comes to in the new one. A derivation is followed step by step; where it goes into a body that was
replaced, it is exchanged for a derivation of the new body, which is no longer, and followed there.

Changes that come one after another can be composed, and a run of a block is then read off again.
-/

namespace Mil.Machine

/-- A tail was replaced by a better one. -/
inductive TailPatch (size : Int) (p : Program) : Option Tail → Option Tail → Prop
  | none : TailPatch size p none none
  | some {t t' : Tail} (h : ∀ env, Improves size p p (.tail t env) (.tail t' env)) :
      TailPatch size p (some t) (some t')

/-- The job of a body that starts with the values of parameters. -/
abbrev bodyJob (c : Code) (params : List Temp) (vals : List Value) : Job := .code c (assign [] params vals)

/-- The body of a block with some parameters was replaced by a better one. -/
inductive CodePatch (size : Int) (p : Program) (params : List Temp) : Option Code → Option Code → Prop
  | none : CodePatch size p params none none
  | some {c c' : Code} (h : ∀ vals, Improves size p p (bodyJob c params vals) (bodyJob c' params vals)) :
      CodePatch size p params (some c) (some c')

/-- The code of a definition was replaced by a better one. -/
inductive BodyPatch (size : Int) (p : Program) : DefnBody → DefnBody → Prop
  | block {b b' : Block} (hparams : b'.params = b.params) (hbody : CodePatch size p b.params b.body b'.body) :
      BodyPatch size p (.block b) (.block b')
  | closure {k k' : Closure} (hparams : k'.params = k.params) (hargs : k'.args = k.args)
      (htail : TailPatch size p k.tail k'.tail) : BodyPatch size p (.closure k) (.closure k')
  | top {t t' : TopLevel} (htail : TailPatch size p t.tail t'.tail) : BodyPatch size p (.top t) (.top t')
  | external (e : External) : BodyPatch size p (.external e) (.external e)

theorem BodyPatch.refl (size : Int) (p : Program) (body : DefnBody) : BodyPatch size p body body := by
  have htail (t : Option Tail) : TailPatch size p t t := by
    cases t with
    | none => exact .none
    | some t => exact .some fun env => .refl size p _
  cases body with
  | block b =>
      refine .block rfl ?_
      cases b.body with
      | none => exact .none
      | some c => exact .some fun vals => .refl size p _
  | closure k => exact .closure rfl rfl (htail _)
  | top t => exact .top (htail _)
  | external e => exact .external e

/-- The code of definitions was replaced by better code. -/
structure Patched (size : Int) (p p' : Program) : Prop where
  resolve : ∀ id, p.resolve id = id
  resolve' : ∀ id, p'.resolve id = id
  defns_size : p'.defns.size = p.defns.size
  defns : ∀ {i : DefnId} {d : Defn}, p.defns[i]? = some d →
    ∃ d', p'.defns[i]? = some d' ∧ d'.pos = d.pos ∧ BodyPatch size p d.body d'.body

/-- What an operation comes to, when code is replaced. -/
inductive EffectPatch (size : Int) (p : Program) : Effect → Effect → Prop
  | values (vs : List Value) : EffectPatch size p (.values vs) (.values vs)
  | body {c c' : Option Code} {params : List Temp} (h : CodePatch size p params c c') (vals : List Value) :
      EffectPatch size p (.body c (assign [] params vals)) (.body c' (assign [] params vals))
  | tail {t t' : Option Tail} (h : TailPatch size p t t') (env : Locals) :
      EffectPatch size p (.tail t env) (.tail t' env)

/-- What a job comes to, when code is replaced. -/
inductive MovePatch (size : Int) (p : Program) : Move → Move → Prop
  | refl (mv : Move) : MovePatch size p mv mv
  | job {j j' : Job} (h : Improves size p p j j') (hweight : j'.weight = j.weight) :
      MovePatch size p (.job j) (.job j')

section Patched

variable {size : Int} {p p' : Program} {w w₁ : Machine} {env : Locals}

theorem Patched.atom (h : Patched size p p') {a : Atom} {v : Value} (ha : Machine.atom p w env a = .ok v) :
    Machine.atom p' w env a = .ok v := by
  cases a with
  | temp t => exact ha
  | lit l => exact ha
  | top i index site =>
      obtain ⟨id, vals, htarget, hlookup, hget⟩ := topValue_eq_ok.mp ha
      refine topValue_eq_ok.mpr ⟨id, vals, ?_, hlookup, hget⟩
      unfold topTarget at htarget ⊢
      dsimp only at htarget ⊢
      rw [h.resolve] at htarget
      rw [h.resolve']
      cases hd : p.defns[i]? with
      | none =>
          have hd' : p'.defns[i]? = none := by
            rw [Array.getElem?_eq_none_iff] at hd ⊢
            rw [h.defns_size]
            exact hd
          rw [hd] at htarget
          rw [hd']
          exact htarget
      | some d =>
          obtain ⟨d', hd', -, hpatch⟩ := h.defns hd
          rw [hd] at htarget
          rw [hd']
          dsimp only at htarget ⊢
          generalize d.body = b, d'.body = b' at hpatch htarget ⊢
          cases hpatch with
          | block => exact htarget
          | closure => exact htarget
          | top => exact htarget
          | external e =>
              dsimp only at htarget ⊢
              split at htarget
              · cases htarget
                rw [h.resolve, h.resolve']
              · cases htarget

theorem Patched.atoms (h : Patched size p p') {as : List Atom} {vs : List Value}
    (has : Machine.atoms p w env as = .ok vs) : Machine.atoms p' w env as = .ok vs :=
  atoms_eq_ok.mpr ((atoms_eq_ok.mp has).imp fun _ _ ha => h.atom ha)

/-- An operation goes through as before, and comes to what was put in place of what it came to. -/
theorem Patched.operate (h : Patched size p p') {t : Tail} {e : Effect}
    (hop : Machine.operate p w env t = .ok (e, w₁)) :
    ∃ e', Machine.operate p' w env t = .ok (e', w₁) ∧ EffectPatch size p e e' := by
  cases t with
  | ret args =>
      obtain ⟨vals, hvals, hop⟩ := Except.bind_eq_ok.mp hop
      cases hop
      exact ⟨_, Except.bind_eq_ok.mpr ⟨vals, h.atoms hvals, rfl⟩, .values _⟩
  | call c =>
      obtain ⟨vals, hvals, hop⟩ := Except.bind_eq_ok.mp hop
      obtain ⟨b, hb, hop⟩ := Except.bind_eq_ok.mp hop
      obtain ⟨d, hd, hop⟩ := Except.bind_eq_ok.mp hop
      cases hop
      rw [h.resolve] at hb hd
      obtain ⟨d₀, hd₀, hbody⟩ := exists_of_block (orDefect_eq_ok hb)
      cases hd₀.symm.trans (exists_of_defn (orDefect_eq_ok hd))
      obtain ⟨d', hd', hpos, hpatch⟩ := h.defns hd₀
      generalize hbody' : d'.body = body' at hpatch
      rw [hbody] at hpatch
      cases hpatch with
      | @block _ b' hparams hcode =>
          refine ⟨.body b'.body (assign [] b'.params vals), ?_, ?_⟩
          · refine Except.bind_eq_ok.mpr ⟨vals, h.atoms hvals, ?_⟩
            dsimp only
            rw [h.resolve', block_eq hd' hbody', defn_eq hd', ← hpos]
            rfl
          · rw [hparams]
            exact .body hcode _
  | prim q args inst =>
      obtain ⟨vals, hvals, hop⟩ := Except.bind_eq_ok.mp hop
      exact ⟨e, Except.bind_eq_ok.mpr ⟨vals, h.atoms hvals, hop⟩, by
        obtain ⟨r, -, hop⟩ := Except.bind_eq_ok.mp hop
        cases hop
        exact .values _⟩
  | alloc k args inst =>
      obtain ⟨vals, hvals, hop⟩ := Except.bind_eq_ok.mp hop
      cases hop
      refine ⟨_, Except.bind_eq_ok.mpr ⟨vals, h.atoms hvals, rfl⟩, ?_⟩
      rw [h.resolve, h.resolve']
      exact .values _
  | data k args inst =>
      obtain ⟨vals, hvals, hop⟩ := Except.bind_eq_ok.mp hop
      cases hop
      exact ⟨_, Except.bind_eq_ok.mpr ⟨vals, h.atoms hvals, rfl⟩, .values _⟩
  | enter fn args =>
      obtain ⟨v, hv, hop⟩ := Except.bind_eq_ok.mp hop
      split at hop
      · rename_i id fields
        obtain ⟨vals, hvals, hop⟩ := Except.bind_eq_ok.mp hop
        obtain ⟨k, hk, hop⟩ := Except.bind_eq_ok.mp hop
        split at hop
        · cases hop
        · rename_i hlens
          obtain ⟨d, hd, hop⟩ := Except.bind_eq_ok.mp hop
          cases hop
          rw [h.resolve] at hk hd
          obtain ⟨d₀, hd₀, hbody⟩ := exists_of_closure (orDefect_eq_ok hk)
          cases hd₀.symm.trans (exists_of_defn (orDefect_eq_ok hd))
          obtain ⟨d', hd', hpos, hpatch⟩ := h.defns hd₀
          generalize hbody' : d'.body = body' at hpatch
          rw [hbody] at hpatch
          cases hpatch with
          | @closure _ k' hparams hargs htail =>
              refine ⟨.tail k'.tail (assign (assign [] k'.params fields) k'.args vals), ?_, ?_⟩
              · refine Except.bind_eq_ok.mpr ⟨_, h.atom hv, ?_⟩
                dsimp only
                refine Except.bind_eq_ok.mpr ⟨vals, h.atoms hvals, ?_⟩
                rw [h.resolve', closure_eq hd' hbody', defn_eq hd', ← hpos]
                dsimp only [orDefect, Bind.bind, Except.bind]
                rw [hargs, hparams, if_neg hlens]
                rfl
              · rw [hparams, hargs]
                exact .tail htail _
      · cases hop
  | sel k field arg inst =>
      obtain ⟨v, hv, hop⟩ := Except.bind_eq_ok.mp hop
      exact ⟨e, Except.bind_eq_ok.mpr ⟨v, h.atom hv, hop⟩, by
        dsimp only at hop
        split at hop
        · cases hop
          exact .values _
        · cases hop⟩

/-- A job makes a move as before, to what was put in place of what it came to. -/
theorem Patched.move (h : Patched size p p') {j : Job} {mv : Move}
    (hmove : j.move p w = .ok (mv, w₁)) :
    ∃ mv', j.move p' w = .ok (mv', w₁) ∧ MovePatch size p mv mv' := by
  cases j with
  | tail t env =>
      obtain ⟨e, hop, hmv⟩ := move_tail_inv hmove
      obtain ⟨e', hop', hpatch⟩ := h.operate hop
      have hmove' {mv' : Move} (hmv' : e'.move = .ok mv') :
          Job.move p' w (.tail t env) = .ok (mv', w₁) :=
        Except.bind_eq_ok.mpr ⟨_, hop', Except.bind_eq_ok.mpr ⟨mv', hmv', rfl⟩⟩
      cases hpatch with
      | values vs => exact ⟨mv, hmove' hmv, .refl mv⟩
      | body hcode vals =>
          cases hcode with
          | none => cases hmv
          | some himp =>
              cases hmv
              exact ⟨_, hmove' rfl, .job (himp vals) rfl⟩
      | tail htail env' =>
          cases htail with
          | none => cases hmv
          | some himp =>
              cases hmv
              exact ⟨_, hmove' rfl, .job (himp env') rfl⟩
  | code c env =>
      refine ⟨mv, ?_, .refl mv⟩
      cases c with
      | bind vars t next => exact hmove
      | done t => exact hmove
      | branch cond c d =>
          obtain ⟨call, hcall, hmove⟩ := Except.bind_eq_ok.mp hmove
          obtain ⟨v, hv, hcall⟩ := Except.bind_eq_ok.mp hcall
          exact Except.bind_eq_ok.mpr ⟨call, Except.bind_eq_ok.mpr ⟨v, h.atom hv, hcall⟩, hmove⟩
      | case scrut alts default =>
          obtain ⟨call, hcall, hmove⟩ := Except.bind_eq_ok.mp hmove
          obtain ⟨v, hv, hcall⟩ := Except.bind_eq_ok.mp hcall
          exact Except.bind_eq_ok.mpr ⟨call, Except.bind_eq_ok.mpr ⟨v, h.atom hv, hcall⟩, hmove⟩

theorem Comes.steps_le {quiet : Prop} {j : Job} {r : Except Failure (List Value)} {w' : Machine}
    (h : Comes p quiet w j r w') : w.steps ≤ w'.steps := by
  induction h with
  | values _ hmove => exact Nat.le_of_eq (still_move hmove).steps.symm
  | fails => exact Nat.le_refl _
  | job _ hmove _ ih =>
      rw [steps_taking, (still_move hmove).steps] at ih
      omega
  | bind _ hmove _ _ _ ih₁ ih₂ =>
      rw [steps_tick, (still_move hmove).steps] at ih₁
      omega
  | breaks _ hmove _ ih =>
      rw [steps_tick, (still_move hmove).steps] at ih
      omega

/-- A job comes to the values that it came to before. -/
theorem Patched.improves (h : Patched size p p') (j : Job) : Improves size p p' j j := by
  refine ⟨?_⟩
  intro quiet w w₂ w' vs hsize hw hc
  induction hn : 2 * (w'.steps - w.steps) + j.weight using Nat.strong_induction_on
    generalizing j w w₂ w' vs with
  | h n ih =>
      have htrace {j : Job} (_ : j.leavesTrace = true) : w₂.trace = w.trace := hw.trace
      cases hc with
      | values hq hmove =>
          obtain ⟨w₂', hmove₂, -, hecho, -, hsteps⟩ := move_beyond hmove hw.toBeyond htrace
          obtain ⟨mv', hmove', hpatch⟩ := h.move hmove₂
          cases hpatch
          exact ⟨w₂', .values hq hmove', hecho.trace_eq hw.trace, Nat.le_of_eq hsteps⟩
      | @job _ w₁ _ _ j₁ _ hq hmove hrest =>
          obtain ⟨w₂₁, hmove₂, hbeyond, hecho, -, hsteps⟩ := move_beyond hmove hw.toBeyond htrace
          obtain ⟨mv', hmove', hpatch⟩ := h.move hmove₂
          obtain ⟨j₁', rfl, himp, hweight⟩ :
              ∃ j₁', mv' = .job j₁' ∧ Improves size p p j₁ j₁' ∧ j₁'.weight = j₁.weight := by
            cases hpatch with
            | refl => exact ⟨j₁, rfl, .refl size p j₁, rfl⟩
            | job himp hweight => exact ⟨_, rfl, himp, hweight⟩
          -- the derivation of the old code is exchanged for one of the new code
          have hw₁ : Abreast w₁ w₂₁ := ⟨hbeyond, hecho.trace_eq hw.trace⟩
          have hsize₁ := ((steady_move hmove).trans (.taking w₁ j₁)).size.trans hsize
          obtain ⟨w₃, hrest', htrace', hsteps'⟩ := himp.comes hsize₁ (hw₁.taking j₁ j₁') hrest
          have hle := hrest.steps_le
          have hsteps₁ := (still_move hmove).steps
          rw [steps_taking] at hle
          rw [steps_taking, steps_taking, hweight] at hsteps'
          have hlt : 2 * (w₃.steps - (w₂₁.taking j₁').steps) + j₁'.weight < n := by
            rw [steps_taking, hweight]
            cases j₁ with
            | tail t env =>
                simp only [Job.weight] at hle hsteps' ⊢
                omega
            | code c env =>
                have hweight' := weight_of_move hmove
                simp only [show (Job.code c env).weight = 0 from rfl] at hle hsteps' ⊢
                omega
          obtain ⟨w₃', hc₃, htrace₃, hsteps₃⟩ :=
            ih _ hlt j₁' ((hw₁.taking j₁ j₁').size.trans hsize₁) (.refl _) hrest' rfl
          exact ⟨w₃', .job hq hmove' hc₃, htrace₃.trans htrace', by omega⟩
      | @bind _ w₁ m₂ _ _ vars t env next vs₁ _ hq hmove htail hlen hnext =>
          obtain ⟨w₂₁, hmove₂, hbeyond, hecho, -, hsteps⟩ := move_beyond hmove hw.toBeyond htrace
          obtain ⟨mv', hmove', hpatch⟩ := h.move hmove₂
          cases hpatch
          have hw₁ : Abreast w₁ w₂₁ := ⟨hbeyond, hecho.trace_eq hw.trace⟩
          have hsize₁ := ((steady_move hmove).trans (.tick w₁)).size.trans hsize
          have hle := htail.steps_le
          have hle' := hnext.steps_le
          have hsteps₁ := (still_move hmove).steps
          rw [steps_tick] at hle
          obtain ⟨w₂₂, htail', htrace₂, hsteps₂⟩ := ih _ (by
            rw [steps_tick]
            simp only [Job.weight]
            omega) (.tail t env) hsize₁ hw₁.tick htail rfl
          obtain ⟨w₂', hnext', htrace', hsteps'⟩ := ih _ (by
            simp only [Job.weight]
            omega) (.code next (assign env vars vs₁)) (htail.steady.size.trans hsize₁)
            (hw₁.tick.steady htail.steady htail'.steady htrace₂) hnext rfl
          rw [steps_tick, steps_tick] at hsteps₂
          exact ⟨w₂', .bind hq hmove' htail' hlen hnext', htrace', by omega⟩

end Patched

/-! ### One definition -/

section Edited

variable {size : Int} {p : Program} {id : DefnId} {d : Defn} {body : DefnBody}

theorem bodyPatch_of_edit (h : Optimize.BodyEdit
    (fun c c' => ∀ vals, Improves size p p (bodyJob c d.body.params vals) (bodyJob c' d.body.params vals))
    (fun t t' => ∀ env, Improves size p p (.tail t env) (.tail t' env)) d.body body) :
    BodyPatch size p d.body body := by
  generalize d.body = old at h
  cases h with
  | block hbody h => exact .block rfl (hbody ▸ .some h)
  | closure htail h => exact .closure rfl rfl (htail ▸ .some h)
  | top htail h => exact .top (htail ▸ .some h)
  | blockMissing => exact .refl size p _
  | closureMissing => exact .refl size p _
  | topMissing => exact .refl size p _
  | external e => exact .external e

/-- What a definition is after the body of one was replaced. -/
theorem BodyPatch.exists_of_setBody (h : BodyPatch size p d.body body) (hd : p.defns[id]? = some d)
    (temps : TempTypes) {i : DefnId} {e : Defn} (he : p.defns[i]? = some e) :
    ∃ e', (Program.setBody { p with temps } id body).defns[i]? = some e' ∧ e'.pos = e.pos ∧
      e'.replacedBy = e.replacedBy ∧ BodyPatch size p e.body e'.body ∧ (i ≠ id → e' = e) := by
  rw [Program.getElem?_setBody]
  split
  · rename_i heq
    subst heq
    cases hd.symm.trans he
    refine ⟨{ d with body }, ?_, rfl, rfl, h, fun hne => absurd rfl hne⟩
    rw [show ({ p with temps } : Program).defns[id]? = some d from hd]
    rfl
  · exact ⟨e, he, rfl, rfl, .refl size p _, fun _ => rfl⟩

/-- A program after the body of one definition was replaced by a better one. -/
theorem BodyPatch.patched (h : BodyPatch size p d.body body) (hd : p.defns[id]? = some d) (temps : TempTypes)
    (hwhole : ∀ {j : DefnId} {e : Defn}, p.defns[j]? = some e → e.replacedBy = none) :
    Patched size p (Program.setBody { p with temps } id body) ∧
      ∀ {j : DefnId} {e : Defn}, (Program.setBody { p with temps } id body).defns[j]? = some e →
        e.replacedBy = none := by
  have hdefns : (Program.setBody { p with temps } id body).defns.size = p.defns.size :=
    Array.size_modify
  have hwhole' : ∀ {j : DefnId} {e : Defn},
      (Program.setBody { p with temps } id body).defns[j]? = some e → e.replacedBy = none := by
    intro j e he
    have hlt := hdefns ▸ (Array.getElem?_eq_some_iff.mp he).1
    obtain ⟨e', he', -, hreplaced, -⟩ := h.exists_of_setBody hd temps (Array.getElem?_eq_getElem hlt)
    cases he'.symm.trans he
    exact hreplaced.trans (hwhole (Array.getElem?_eq_getElem hlt))
  refine ⟨⟨Program.resolve_of_whole hwhole, Program.resolve_of_whole hwhole', hdefns, fun he => ?_⟩,
    hwhole'⟩
  obtain ⟨e', he', hpos, -, hpatch, -⟩ := h.exists_of_setBody hd temps he
  exact ⟨e', he', hpos, hpatch⟩

end Edited

/-! ### Changes one after another -/

/-- What one program does at a word size, the other does, in no more steps. -/
structure Refines (size : Int) (p p' : Program) : Prop where
  settled : ∀ {m₀ : Machine} {T : Table}, m₀.size = size → Settled p m₀ T →
    ∃ T' : Table, Settled p' m₀ T' ∧ T'.tops = T.tops ∧ T'.cost ≤ T.cost
  block : ∀ {id : DefnId} {d : Defn} {b : Block} {c : Code}, p.defns[id]? = some d →
    d.body = .block b → b.body = some c → ∃ d' b' c', p'.defns[id]? = some d' ∧ d'.pos = d.pos ∧
      d'.body = .block b' ∧ b'.body = some c' ∧ b'.params = b.params ∧
      ∀ vals, Improves size p p' (bodyJob c b.params vals) (bodyJob c' b.params vals)

section Refines

variable {size : Int} {p p' p'' : Program}

theorem Refines.refl (size : Int) (p : Program) : Refines size p p :=
  ⟨fun {_ T} _ h => ⟨T, h, rfl, Nat.le_refl _⟩,
    fun {_ d b c} hd hb hc => ⟨d, b, c, hd, rfl, hb, hc, rfl, fun _ => .refl size p _⟩⟩

theorem Refines.trans (h : Refines size p p') (h' : Refines size p' p'') : Refines size p p'' where
  settled hsize hT := by
    obtain ⟨T', hT', htops, hcost⟩ := h.settled hsize hT
    obtain ⟨T'', hT'', htops', hcost'⟩ := h'.settled hsize hT'
    exact ⟨T'', hT'', htops'.trans htops, Nat.le_trans hcost' hcost⟩
  block hd hb hc := by
    obtain ⟨d', b', c', hd', hpos, hb', hc', hparams, himp⟩ := h.block hd hb hc
    obtain ⟨d'', b'', c'', hd'', hpos', hb'', hc'', hparams', himp'⟩ := h'.block hd' hb' hc'
    exact ⟨d'', b'', c'', hd'', hpos'.trans hpos, hb'', hc'', hparams'.trans hparams,
      fun vals => (himp vals).trans (hparams ▸ himp' vals)⟩

theorem Patched.refines (h : Patched size p p') : Refines size p p' where
  settled {m₀ T} hsize₀ hT := by
    induction hT with
    | given => exact ⟨_, .given, rfl, Nat.le_refl _⟩
    | @cons e T d tl t m m' hT hnew hd hbody htail hsize htops hrun hcost ih =>
        obtain ⟨T', hT', htops', hcost'⟩ := ih
        obtain ⟨d', hd', -, hpatch⟩ := h.defns hd
        generalize hbody' : d'.body = body' at hpatch
        rw [hbody] at hpatch
        cases hpatch with
        | @top _ tl' hpatch =>
            generalize htail' : tl'.tail = tail' at hpatch
            rw [htail] at hpatch
            cases hpatch with
            | some himp =>
                obtain ⟨m₂, hrun₂, -, hsteps⟩ :=
                  ((himp []).trans (h.improves _)).comes (hsize.trans hsize₀) (.refl m) hrun
                have hle := hrun₂.steps_le
                refine ⟨⟨e.id, e.vals, m₂.steps + 1 - m.steps⟩ :: T',
                  .cons hT' (htops' ▸ hnew) hd' hbody' htail' hsize (htops.trans htops'.symm) hrun₂ ?_,
                  ?_, ?_⟩
                · dsimp only
                  omega
                · rw [Table.tops, Table.tops, List.map_cons, List.map_cons]
                  exact congrArg _ htops'
                · rw [Table.cost_cons, Table.cost_cons]
                  dsimp only
                  omega
  block {id d b c} hd hb hc := by
    obtain ⟨d', hd', hpos, hpatch⟩ := h.defns hd
    generalize hb' : d'.body = body' at hpatch
    rw [hb] at hpatch
    cases hpatch with
    | @block _ b' hparams hpatch =>
        generalize hc' : b'.body = body' at hpatch
        rw [hc] at hpatch
        cases hpatch with
        | some himp =>
            exact ⟨d', b', _, hd', hpos, hb', hc', hparams, fun vals => (himp vals).trans (h.improves _)⟩

/-- A run of a block that returns values returns them in the other program, in no more steps. -/
theorem Refines.returns {m₀ : Machine} (h : Refines m₀.size p p') {R : DefnId → Prop} {T : Table}
    (hT : Covers p m₀ R T) (hresolve' : ∀ id, p'.resolve id = id) {id : DefnId} {d : Defn} {b : Block}
    (hd : p.defns[id]? = some d) (hb : d.body = .block b) (hid : R id) {args vals : List Value}
    (hargs : ∀ v ∈ args, v.Within R) {m : Machine} (hrun : Returns p m₀ id args vals m) :
    ∃ m', Returns p' m₀ id args vals m' ∧ m'.trace = m.trace ∧ m'.steps ≤ m.steps := by
  have hlen := hrun.length_eq (hT.region.resolve _) hd hb
  obtain ⟨c, hc, hj, hends⟩ := hrun.ends.leads_body hT.region hid hd hb hargs hlen
  obtain ⟨S, w', hS, hcomes, htrace, hsteps⟩ := exists_comes hT hj hends
  obtain ⟨S', hS', htops, hcost⟩ := h.settled rfl hS
  obtain ⟨d', b', c', hd', hpos, hb', hc', hparams, himp⟩ := h.block hd hb hc
  obtain ⟨w₂, hcomes₂, htrace₂, hsteps₂⟩ := (himp _).comes (by rfl) (.refl _) hcomes
  obtain ⟨m', hleads, htrace', hsteps'⟩ := hcomes₂.leads hT.toAtRest hS' rfl htops.symm rfl rfl hpos.symm
  refine ⟨m', Ends.returns ?_, htrace'.trans (htrace₂.trans htrace), ?_⟩
  · unfold Ends
    rw [start_block (hresolve' _) hd' hb' hc' (hparams ▸ hlen), hparams]
    exact hleads
  · have hsame : (({ m₀ with pos := d.pos } : Machine).under S).steps = m₀.steps := rfl
    omega

end Refines

end Mil.Machine
