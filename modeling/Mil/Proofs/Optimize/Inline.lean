import Mil.Proofs.Optimize.Patch
import Mil.Proofs.Rep.Carry

/-!
Inlining preserves behaviour. A call that is replaced by a copy of the body of its block comes to the
same values in one step less. Bodies are changed one after the other, and a copy may be of a body that
was changed before; so each change is compared with the program as it stands then, and the changes
are composed.
-/

namespace Mil

open Machine

namespace Machine

section Calls

variable {p : Program} {quiet : Prop} {w w₂ w' : Machine} {env env₂ : Locals} {vs : List Value} {n : Nat}

theorem AgreeBelow.agreeOn (h : AgreeBelow n env env₂) {as : List Atom} (has : AtomsBelow n as) :
    AgreeOn as env env₂ := fun t ht => h t (has t ht)

theorem below_params {ts : List Temp} {as : List Atom} (has : AtomsBelow n as) :
    Below (Replacement.extend [] ts as) n := by
  intro t y hy
  rw [Replacement.extend, List.append_nil] at hy
  exact has y (List.of_mem_zip (List.mem_reverse.mp (mem_of_lookup hy))).2

theorem Comes.call_body_inv (hresolve : ∀ id, p.resolve id = id) {c : BlockCall} {b : Block} {body : Code}
    (hb : p.block c.block = .ok b) (hbody : b.body = some body)
    (h : Comes p quiet w (.tail (.call c) env) (.ok vs) w') :
    ∃ vals w₁, List.Forall₂ (fun a v => atom p w env a = .ok v) c.args vals ∧ Still w w₁ ∧
      w₁.trace = w.trace ∧ Comes p quiet w₁ (.code body (assign [] b.params vals)) (.ok vs) w' := by
  obtain ⟨vals, b', body', w₁, hvals, hb', hbody', hstill, htrace, hcomes⟩ := h.call_inv
  rw [hresolve, hb] at hb'
  cases hb'
  cases hbody.symm.trans hbody'
  exact ⟨vals, w₁, hvals, hstill, htrace, hcomes⟩

/-- What the parameters of a block stand for, where the call is made. -/
theorem carried_of_call {c : BlockCall} {b : Block} (hlen : c.args.length = b.params.length)
    (hw : Beyond w w₂) (hagree : AgreeBelow n env env₂) (has : AtomsBelow n c.args) {vals : List Value}
    (hvals : List.Forall₂ (fun a v => atom p w env a = .ok v) c.args vals) :
    Carried p w₂ (Replacement.extend [] b.params c.args) (assign [] b.params vals) env₂ := by
  have hbase : Carried p w₂ [] [] env₂ := fun _ _ h => nomatch h
  refine hbase.params hlen ?_
  have hreads := (hagree.agreeOn has).sameReads (p := p) hw
  clear hlen has
  generalize c.args = as at hvals hreads
  induction hvals with
  | nil => exact .nil
  | cons ha _ ih =>
      exact .cons (hreads _ (.head _) _ ha) (ih fun a ha' => hreads a (.tail _ ha'))

end Calls

end Machine

namespace Optimize

namespace Inline

/-- What there is to inline for a tail: the body of a block that it calls, with the operands in place
of the parameters. -/
inductive Target (p : Program) : Tail → Option (Replacement × Code) → Prop
  | none (t : Tail) : Target p t none
  | some {c : BlockCall} {b : Block} {body : Code} (hb : p.block c.block = .ok b)
      (hbody : b.body = some body) (hlen : c.args.length = b.params.length) :
      Target p (.call c) (some (Replacement.extend [] b.params c.args, body))

/-- The program has the given definitions, and enough temporaries. -/
def Stage (p : Program) (n : Nat) (s : Progress) : Prop :=
  ∃ temps : TempTypes, s.program = { p with temps } ∧ n ≤ temps.size

section Steps

variable {p : Program} {size : Int} {n : Nat} {s : Progress} {limits : Limits}

theorem Stage.block (h : Stage p n s) (id : DefnId) : s.program.block id = p.block id := by
  obtain ⟨temps, h, -⟩ := h
  rw [h]
  rfl

theorem gets_target (hs : Stage p n s) {t : Tail} (ht : ∀ c ∈ t.call?, ∃ b, p.block c.block = .ok b)
    (self : Option DefnId) :
    Gets (target? limits self t) s fun r s' => Target p t r ∧ s' = s := by
  cases t with
  | call c =>
      unfold target?
      dsimp only
      split
      · exact .pure ⟨.none _, rfl⟩
      · obtain ⟨b, hb⟩ := ht c rfl
        refine (gets_block ((hs.block _).trans hb)).bind ?_
        rintro a s' ⟨rfl, rfl⟩
        cases hbody : a.body with
        | none => exact .pure ⟨.none _, rfl⟩
        | some body =>
            dsimp only
            split
            · exact .pure ⟨.none _, rfl⟩
            · rename_i hnot
              have hlen : c.args.length = a.params.length := by
                by_contra hne
                exact hnot (.inr (.inl fun heq => hne heq.symm))
              exact .pure ⟨.some hb hbody hlen, rfl⟩
  | _ => exact .pure ⟨.none _, rfl⟩

theorem gets_copy (hs : Stage p n s) (ρ : Replacement) (body : Code) :
    Gets (copy ρ body) s fun c s' => Stage p n s' ∧
      ∃ temps : TempTypes, n ≤ temps.size ∧ c = (body.copy ρ temps).1 := by
  refine (gets_onProgram _ s).mono ?_
  obtain ⟨temps, h, hn⟩ := hs
  rw [h]
  rintro c s' ⟨rfl, hs'⟩
  exact ⟨⟨_, hs', Nat.le_trans hn (le_size_copy body ρ temps)⟩, temps, hn, rfl⟩

/-- The new body comes to what the old one comes to, wherever the temporaries of the old one have the
same values. -/
def CodeBetter (size : Int) (p : Program) (n : Nat) (c c' : Code) : Prop :=
  ∀ env env₂, AgreeBelow n env env₂ → Improves size p p (.code c env) (.code c' env₂)

/-- The new tail comes to what the old one comes to. -/
def TailBetter (size : Int) (p : Program) (t t' : Tail) : Prop :=
  ∀ env, Improves size p p (.tail t env) (.tail t' env)

theorem CodeBetter.bind {vars : List Temp} {t : Tail} {next next' : Code}
    (ht : AtomsBelow n t.atoms) (h : CodeBetter size p n next next') :
    CodeBetter size p n (.bind vars t next) (.bind vars t next') := by
  intro env env₂ hagree
  refine ⟨?_⟩
  intro quiet w w₂ w' vs hsize hw hc
  rcases hc.bind_inv with ⟨vs₁, w₁, htail, hlen, hnext⟩ | ⟨f, hf, -⟩
  · obtain ⟨w₂₁, htail₂, htrace, hsteps⟩ := htail.agrees hw.tick (hagree.agreeOn ht)
    rw [steps_tick, steps_tick] at hsteps
    obtain ⟨w₂', hnext₂, htrace', hsteps'⟩ := (h _ _ (hagree.assign vars vs₁)).comes
      (htail.steady.size.trans hsize) (hw.tick.steady htail.steady htail₂.steady htrace) hnext
    exact ⟨w₂', .bind (fun _ => rfl) rfl htail₂ hlen hnext₂, htrace', by omega⟩
  · cases hf

theorem CodeBetter.refl {c : Code} (hc : AtomsBelow n c.atoms) : CodeBetter size p n c c := by
  have hends {c : Code} (hc : AtomsBelow n c.atoms) (hbind : ∀ vs t next, c ≠ .bind vs t next) :
      CodeBetter size p n c c := by
    intro env env₂ hagree
    refine ⟨?_⟩
    intro quiet w w₂ w' vs _ hw hcomes
    exact hcomes.code_agrees hw (hagree.agreeOn hc) hbind
  induction c with
  | bind vars t next ih =>
      exact .bind (fun t ht => hc t (List.mem_append_left _ ht))
        (ih fun t ht => hc t (List.mem_append_right _ ht))
  | done t => exact hends hc (by rintro _ _ _ ⟨⟩)
  | branch cond c d => exact hends hc (by rintro _ _ _ ⟨⟩)
  | case scrut alts default => exact hends hc (by rintro _ _ _ ⟨⟩)

section Copied

variable {c : BlockCall} {b : Block} {body : Code} {temps : TempTypes}

/-- A call at the end of a body is replaced by a copy. -/
theorem codeBetter_done (hresolve : ∀ id, p.resolve id = id) (hb : p.block c.block = .ok b)
    (hbody : b.body = some body) (hlen : c.args.length = b.params.length)
    (hargs : AtomsBelow n c.args) (hn : n ≤ temps.size) :
    CodeBetter size p n (.done (.call c)) (body.copy (Replacement.extend [] b.params c.args) temps).1 := by
  intro env env₂ hagree
  refine ⟨?_⟩
  intro quiet w w₂ w' vs _ hw hc
  obtain ⟨vals, w₁, hvals, hstill, htrace₁, hcomes⟩ := hc.done_inv.call_body_inv hresolve hb hbody
  have hw₁ := hw.steady (.tick w) (.refl w₂) hw.trace
  have hbelow : Below (Replacement.extend [] b.params c.args) temps.size :=
    below_params (hargs.mono hn)
  obtain ⟨w₂', hc₂, htrace, hsteps⟩ := hcomes.copied
    (hw₁.steady hstill.toSteady (.refl w₂) (hw.trace.trans htrace₁.symm))
    (carried_of_call hlen hw₁.toBeyond hagree hargs hvals) hbelow
  rw [hstill.steps, steps_tick] at hsteps
  exact ⟨w₂', hc₂, htrace, by omega⟩

/-- A call whose results are bound is replaced by a copy that is spliced. -/
theorem codeBetter_splice (hresolve : ∀ id, p.resolve id = id) (hb : p.block c.block = .ok b)
    (hbody : b.body = some body) (hlen : c.args.length = b.params.length)
    (hargs : AtomsBelow n c.args) (hn : n ≤ temps.size) (hstraight : body.isStraight = true)
    (vars : List Temp) {next next' : Code} (h : CodeBetter size p n next next') :
    CodeBetter size p n (.bind vars (.call c) next) (Code.splice vars next'
      (body.copy (Replacement.extend [] b.params c.args) temps).1) := by
  intro env env₂ hagree
  refine ⟨?_⟩
  intro quiet w w₂ w' vs hsize hw hc
  rcases hc.bind_inv with ⟨vs₁, w₁, htail, hlen₁, hnext⟩ | ⟨f, hf, -⟩
  · obtain ⟨vals, w₃, hvals, hstill, htrace₁, hcomes⟩ := htail.call_body_inv hresolve hb hbody
    have hw₁ := hw.steady (.tick w) (.refl w₂) hw.trace
    have hbelow : Below (Replacement.extend [] b.params c.args) temps.size :=
      below_params (hargs.mono hn)
    obtain ⟨w₂₁, env₂', hw₂, hagree', hsteps, hrest⟩ := hcomes.spliced hstraight
      (hw₁.steady hstill.toSteady (.refl w₂) (hw.trace.trans htrace₁.symm))
      (carried_of_call hlen hw₁.toBeyond hagree hargs hvals) hbelow hlen₁ next'
    obtain ⟨w₂', hnext₂, htrace, hsteps'⟩ :=
      (h _ _ ((hagree.trans (hagree'.mono hn)).assign vars vs₁)).comes
        (hcomes.steady.size.trans (hstill.size.trans hsize)) hw₂ hnext
    rw [hstill.steps, steps_tick] at hsteps
    exact ⟨w₂', hrest _ _ hnext₂, htrace, by omega⟩
  · cases hf

/-- A call in place of a whole tail is replaced by the tail of the block. -/
theorem tailBetter_call (hresolve : ∀ id, p.resolve id = id) (hb : p.block c.block = .ok b) {t : Tail}
    (hbody : b.body = some (.done t)) (hlen : c.args.length = b.params.length) :
    TailBetter size p (.call c) (t.mapAtoms (Replacement.extend [] b.params c.args).atom) := by
  intro env
  refine ⟨?_⟩
  intro quiet w w₂ w' vs _ hw hc
  obtain ⟨vals, w₁, hvals, hstill, htrace₁, hcomes⟩ := hc.call_body_inv hresolve hb hbody
  have hbase : Carried p w₂ [] [] env := fun _ _ h => nomatch h
  have hcarried := hbase.params hlen (hvals.imp fun _ _ h => atom_ok_beyond hw.toBeyond h)
  have hw₁ := hw.steady (hstill.toSteady.trans (.tick w₁)) (.refl w₂) (hw.trace.trans htrace₁.symm)
  obtain ⟨w₂', hc₂, htrace, hsteps⟩ :=
    hcomes.done_inv.replaced hw₁ (hcarried.sameReads hw₁.toBeyond t.atoms)
  rw [steps_tick, hstill.steps] at hsteps
  exact ⟨w₂', hc₂, htrace, by omega⟩

end Copied

/-- A body is rewritten into a better one. -/
theorem gets_code (hresolve : ∀ id, p.resolve id = id) {c : Code} (hs : Stage p n s)
    (hatoms : AtomsBelow n c.atoms) (hcalls : ∀ call ∈ c.allCalls, ∃ b, p.block call.block = .ok b)
    (self : DefnId) :
    Gets (code limits self c) s fun c' s' => Stage p n s' ∧ CodeBetter size p n c c' := by
  induction c generalizing s with
  | bind vars t next ih =>
      have ht : AtomsBelow n t.atoms := fun t' ht' => hatoms t' (List.mem_append_left _ ht')
      refine (ih hs (fun t' ht' => hatoms t' (List.mem_append_right _ ht'))
        fun call h => hcalls call (List.mem_append_right _ h)).bind fun next' s₁ ⟨hs₁, hnext⟩ => ?_
      refine (gets_target hs₁ (fun call h => hcalls call
        (List.mem_append_left _ (Option.mem_toList.mpr h))) (some self)).bind ?_
      rintro r s' ⟨htarget, rfl⟩
      cases htarget with
      | none => exact .pure ⟨hs₁, .bind ht hnext⟩
      | some hb hbody hlen =>
          dsimp only
          split
          · rename_i hstraight
            refine (gets_changed s').bind fun _ s₂ hs₂ => ?_
            have hs₂ : Stage p n s₂ := by rw [Stage, hs₂]; exact hs₁
            refine (gets_copy hs₂ _ _).bind ?_
            rintro c' s₃ ⟨hs₃, temps, hn, rfl⟩
            exact .pure ⟨hs₃, codeBetter_splice hresolve hb hbody hlen ht hn hstraight vars hnext⟩
          · exact .pure ⟨hs₁, .bind ht hnext⟩
  | done t =>
      refine (gets_target hs (fun call h => hcalls call (Option.mem_toList.mpr h)) (some self)).bind ?_
      rintro r s' ⟨htarget, rfl⟩
      cases htarget with
      | none => exact .pure ⟨hs, .refl hatoms⟩
      | some hb hbody hlen =>
          refine (gets_changed s').bind fun _ s₂ hs₂ => ?_
          have hs₂ : Stage p n s₂ := by rw [Stage, hs₂]; exact hs
          refine (gets_copy hs₂ _ _).mono ?_
          rintro c' s₃ ⟨hs₃, temps, hn, rfl⟩
          exact ⟨hs₃, codeBetter_done hresolve hb hbody hlen hatoms hn⟩
  | branch cond c d => exact .pure ⟨hs, .refl hatoms⟩
  | case scrut alts default => exact .pure ⟨hs, .refl hatoms⟩

/-- A tail is rewritten into a better one. -/
theorem gets_tail (hresolve : ∀ id, p.resolve id = id) {t : Tail} (hs : Stage p n s)
    (hcalls : ∀ call ∈ t.call?, ∃ b, p.block call.block = .ok b) :
    Gets (tail limits t) s fun t' s' => Stage p n s' ∧ TailBetter size p t t' := by
  refine (gets_target hs hcalls none).bind ?_
  rintro r s' ⟨htarget, rfl⟩
  cases htarget with
  | none => exact .pure ⟨hs, fun env => .refl size p _⟩
  | @some c b body hb hbody hlen =>
      cases body with
      | done t =>
          refine (gets_changed s').bind fun _ s₂ hs₂ => ?_
          have hs₂ : Stage p n s₂ := by rw [Stage, hs₂]; exact hs
          exact .pure ⟨hs₂, tailBetter_call hresolve hb hbody hlen⟩
      | _ => exact .pure ⟨hs, fun env => .refl size p _⟩

end Steps

/-! ### The pass -/

/-- The temporaries that a definition reads are those of the program, and it calls blocks. -/
structure Ready (p : Program) (d : Defn) : Prop where
  atoms : AtomsBelow p.temps.size d.body.atoms
  calls : ∀ c ∈ d.body.calls, ∃ b, p.block c.block = .ok b

section Pass

variable {p : Program} {size : Int} {id : DefnId} {d : Defn} {n : Nat} {body : DefnBody} {temps : TempTypes}

theorem bodyPatch (h : BodyEdit (CodeBetter size p n) (TailBetter size p) d.body body) :
    BodyPatch size p d.body body :=
  bodyPatch_of_edit (h.mono (fun _ _ hc _ => hc _ _ (.refl n _)) fun _ _ ht => ht)

theorem Ready.of_edit {i : DefnId} {e : Defn} (hready : Ready p e) (hd : p.defns[id]? = some d)
    (h : BodyPatch size p d.body body) (he : p.defns[i]? = some e)
    (hne : i ≠ id) (htemps : p.temps.size ≤ temps.size) :
    (Program.setBody { p with temps } id body).defns[i]? = some e ∧
      Ready (Program.setBody { p with temps } id body) e := by
  obtain ⟨e', he', -, -, -, heq⟩ := h.exists_of_setBody hd temps he
  cases heq hne
  refine ⟨he', fun t ht => Nat.lt_of_lt_of_le (hready.atoms t ht) htemps, fun c hc => ?_⟩
  obtain ⟨b, hb⟩ := hready.calls c hc
  obtain ⟨d₁, hd₁, hbody⟩ := exists_of_block hb
  obtain ⟨d₂, hd₂, -, -, hpatch, -⟩ := h.exists_of_setBody hd temps hd₁
  generalize hbody₂ : d₂.body = body₂ at hpatch
  rw [hbody] at hpatch
  cases hpatch
  exact ⟨_, block_eq hd₂ hbody₂⟩

end Pass

end Inline

/-- Inlining goes through, and what the program did it still does, in no more steps. -/
theorem inline_refines (size limit : Int) {p : Program}
    (hwhole : ∀ {j : DefnId} {d : Defn}, p.defns[j]? = some d → d.replacedBy = none)
    (hready : ∀ id ∈ p.reachable, ∃ d, p.defns[id]? = some d ∧ Inline.Ready p d) :
    ∃ changed p', inline limit p = .ok (changed, p') ∧ Refines size p p' ∧ ∀ id, p'.resolve id = id := by
  let limits : Inline.Limits := ⟨limit, ((p.components p.reachable).filter p.isRecursive).flatten⟩
  have hpass : Gets (p.reachable.forM fun id =>
      PassM.onBody (Inline.code limits id) (Inline.tail limits) id) ⟨p, 0⟩ fun _ s' =>
        Refines size p s'.program ∧ ∀ {j : DefnId} {d : Defn}, s'.program.defns[j]? = some d →
          d.replacedBy = none := by
    refine (gets_forM (I := fun ids s => (Refines size p s.program ∧ ∀ {j : DefnId} {d : Defn},
      s.program.defns[j]? = some d → d.replacedBy = none) ∧ ids.Nodup ∧
        ∀ id ∈ ids, ∃ d, s.program.defns[id]? = some d ∧ Inline.Ready s.program d)
      ?_ ⟨⟨.refl size p, hwhole⟩, ?_, hready⟩).mono fun _ _ h => h.1
    · rintro id ids s ⟨⟨hrefines, hwhole⟩, hnodup, hready⟩
      obtain ⟨d, hd, hatoms, hcalls⟩ := hready id (.head _)
      have hresolve := Program.resolve_of_whole hwhole
      refine (gets_onBody hd (K := Inline.Stage s.program s.program.temps.size)
        (C := Inline.CodeBetter size s.program s.program.temps.size) (T := Inline.TailBetter size s.program)
        ⟨s.program.temps, rfl, Nat.le_refl _⟩ ?_ ?_ ?_).mono ?_
      · intro b c hb hc
        rw [hb, DefnBody.atoms, hc] at hatoms
        rw [hb, DefnBody.calls, hc] at hcalls
        exact Inline.gets_code hresolve ⟨s.program.temps, rfl, Nat.le_refl _⟩ hatoms hcalls id
      · intro k t hk ht
        rw [hk, DefnBody.calls, ht] at hcalls
        exact Inline.gets_tail hresolve ⟨s.program.temps, rfl, Nat.le_refl _⟩
          fun c hc => hcalls c (Option.mem_toList.mpr hc)
      · intro l t hl ht
        rw [hl, DefnBody.calls, ht] at hcalls
        exact Inline.gets_tail hresolve ⟨s.program.temps, rfl, Nat.le_refl _⟩
          fun c hc => hcalls c (Option.mem_toList.mpr hc)
      · rintro _ s' ⟨s₁, body, ⟨temps, hs₁, htemps⟩, hedit, hs'⟩
        rw [hs₁] at hs'
        have hpatch := Inline.bodyPatch hedit
        obtain ⟨hpatched, hwhole'⟩ := hpatch.patched hd temps hwhole
        obtain ⟨hid, hnodup⟩ := List.nodup_cons.mp hnodup
        rw [hs']
        refine ⟨⟨hrefines.trans hpatched.refines, hwhole'⟩, hnodup, fun i hi => ?_⟩
        obtain ⟨e, he, hready'⟩ := hready i (.tail _ hi)
        exact ⟨e, hready'.of_edit hd hpatch he (fun heq => hid (heq ▸ hi)) htemps⟩
    · exact List.nodup_range.filter _
  obtain ⟨changed, s, hrun, hrefines, hwhole'⟩ := hpass.run
  exact ⟨changed, s.program, hrun, hrefines, Program.resolve_of_whole hwhole'⟩

/-- A text with a block that calls a small block twice, which reads a top-level value. -/
def twiceText : String :=
  "tops:\n- names: [base]\n  tail: \x7breturn: [5]\x7d\nblocks:\n- name: f\n" ++
  "  type: \"[Word] >>= [Word]\"\n  params: [x]\n  code:\n  - bind: [y]\n    call: g\n" ++
  "    args: [x]\n  - call: g\n    args: [y]\n- name: g\n  params: [x]\n  code:\n  - bind: [z]\n" ++
  "    prim: add\n    args: [x, base]\n  - return: [z]\n"

end Optimize

end Mil
