import Mil.Proofs.Machine.Follow
import Mil.Proofs.Program.Copy

/-!
Two machines side by side. Each performs an operation on operands of its own; if the operands of one
have the values of the other's, the second answers the first: it comes to the same values or jobs,
or fails with the same message. An answer may be late, if the second machine has to compute a
top-level value first. What the first machine waits for, or breaks an invariant with, needs no
answer.
-/

namespace Mil

/-- Values that a primitive and a message cannot tell apart. -/
structure Value.Looks (v v' : Value) : Prop where
  word : v'.asWord = v.asWord
  lit : v'.lit? = v.lit?
  text : v'.render = v.render

theorem Value.Looks.refl (v : Value) : v.Looks v := ⟨rfl, rfl, rfl⟩

theorem Value.looks_refl (vs : List Value) : List.Forall₂ Value.Looks vs vs :=
  List.forall₂_same.mpr fun v _ => .refl v

namespace Machine

/-- The outcome on one side is answered by the outcome on the other. Failures count only while the
answer is live. -/
inductive Answers {α β : Type} (live : Prop) (late : Stall → Prop) (R : α → β → Prop) :
    Except Stall α → Except Stall β → Prop
  | ok {a : α} {b : β} (h : R a b) : Answers live late R (.ok a) (.ok b)
  | failure (f : Failure) :
      Answers live late R (.error (.halt (.failure f))) (.error (.halt (.failure f)))
  | dead {f : Failure} {y : Except Stall β} (h : ¬ live) :
      Answers live late R (.error (.halt (.failure f))) y
  | defect {d : Defect} {y : Except Stall β} : Answers live late R (.error (.halt (.defect d))) y
  | stall {id : DefnId} {pos : Position} {t : Option Tail} {y : Except Stall β} :
      Answers live late R (.error (.top id pos t)) y
  | late {x : Except Stall α} {s : Stall} (h : late s) : Answers live late R x (.error s)

section Answers

variable {α β γ δ : Type} {live : Prop} {late : Stall → Prop} {R : α → β → Prop} {R' : γ → δ → Prop}

theorem Answers.bind {x : Except Stall α} {y : Except Stall β} {f : α → Except Stall γ}
    {g : β → Except Stall δ} (h : Answers live late R x y)
    (hfg : ∀ a b, R a b → Answers live late R' (f a) (g b)) :
    Answers live late R' (x >>= f) (y >>= g) := by
  cases h with
  | ok h => exact hfg _ _ h
  | failure f => exact .failure f
  | dead h => exact .dead h
  | defect => exact .defect
  | stall => exact .stall
  | late h => exact .late h

theorem Answers.refl (x : Except Stall α) : Answers live late Eq x x := by
  cases x with
  | ok a => exact .ok rfl
  | error s =>
      cases s with
      | halt h =>
          cases h with
          | defect d => exact .defect
          | failure f => exact .failure f
      | top id pos t => exact .stall

/-- If failures do not count, it is enough to look at what goes through. -/
theorem answers_of_ok {x : Except Stall α} {y : Except Stall β}
    (h : ∀ a, x = .ok a → ∃ b, y = .ok b ∧ R a b) : Answers False late R x y := by
  cases x with
  | ok a =>
      obtain ⟨b, rfl, hab⟩ := h a rfl
      exact .ok hab
  | error s =>
      cases s with
      | halt e =>
          cases e with
          | defect d => exact .defect
          | failure f => exact .dead id
      | top id pos t => exact .stall

end Answers

/-! ### Primitives -/

section Primitives

variable {m m₂ m' : Machine} {live : Prop} {late : Stall → Prop} {q : Prim}
  {vals vals₂ vs : List Value}

theorem fail_answers {α β : Type} {R : α → β → Prop} (hpos : live → m₂.pos = m.pos) (msg : String) :
    Answers live late R (.error (.halt (m.fail msg))) (.error (.halt (m₂.fail msg))) := by
  by_cases h : live
  · rw [fail, fail, hpos h]
    exact .failure _
  · exact .dead h

theorem map_asWord_of_looks (h : List.Forall₂ Value.Looks vals vals₂) :
    vals₂.map Value.asWord = vals.map Value.asWord := by
  induction h with
  | nil => rfl
  | cons hv _ ih => rw [List.map_cons, List.map_cons, hv.word, ih]

theorem getElem?_asWord_of_looks (h : List.Forall₂ Value.Looks vals vals₂) (i : Nat) :
    (vals₂[i]?).map Value.asWord = (vals[i]?).map Value.asWord := by
  rw [← List.getElem?_map, ← List.getElem?_map, map_asWord_of_looks h]

theorem head?_asWord_of_looks (h : List.Forall₂ Value.Looks vals vals₂) :
    (vals₂.head?).map Value.asWord = (vals.head?).map Value.asWord := by
  rw [List.head?_eq_getElem?, List.head?_eq_getElem?, getElem?_asWord_of_looks h]

/-- The same literals come out on both sides. -/
def SameLits (vs vs₂ : List Value) : Prop := vs₂ = vs ∧ ∀ v ∈ vs, v.lit?.isSome = true

theorem sameLits_ofLit (l : Literal) : SameLits [.ofLit l] [.ofLit l] := by
  refine ⟨rfl, fun v hv => ?_⟩
  rw [List.mem_singleton.mp hv]
  cases l <;> rfl

theorem sameLits_words (ws : List Word) : SameLits (ws.map .word) (ws.map .word) := by
  refine ⟨rfl, fun v hv => ?_⟩
  obtain ⟨w, -, rfl⟩ := List.mem_map.mp hv
  rfl

theorem divide_answers (h : List.Forall₂ Value.Looks vals vals₂) (hsize : m₂.size = m.size)
    (hpos : live → m₂.pos = m.pos) (rem : Bool) :
    Answers live late SameLits (orHalt (m.divide rem vals)) (orHalt (m₂.divide rem vals₂)) := by
  unfold divide
  dsimp only
  rw [getElem?_asWord_of_looks h, getElem?_asWord_of_looks h, hsize]
  split
  · exact fail_answers hpos _
  · exact .ok (sameLits_words [_])

theorem operands_answers (h : List.Forall₂ Value.Looks vals vals₂) (hpos : live → m₂.pos = m.pos) :
    Answers live late Eq (orHalt (vals.mapM (m.operand q))) (orHalt (vals₂.mapM (m₂.operand q))) := by
  induction h with
  | nil => exact .ok rfl
  | @cons v v' vs vs' hv _ ih =>
      have hone : Answers live late Eq (orHalt (m.operand q v)) (orHalt (m₂.operand q v')) := by
        unfold operand
        rw [hv.lit, hv.text]
        split
        · exact .ok rfl
        · exact fail_answers hpos _
      have hcons (m : Machine) (v : Value) (vs : List Value) :
          orHalt ((v :: vs).mapM (m.operand q)) = orHalt (m.operand q v) >>= fun l =>
            orHalt (vs.mapM (m.operand q)) >>= fun ls => .ok (l :: ls) := by
        rw [List.mapM_cons]
        cases m.operand q v with
        | error h => rfl
        | ok l => cases vs.mapM (m.operand q) <;> rfl
      rw [hcons, hcons]
      refine hone.bind fun l l' hl => Answers.bind ih fun ls ls' hls => ?_
      rw [hl, hls]
      exact .ok rfl

theorem pureCall_answers (h : List.Forall₂ Value.Looks vals vals₂) (hsize : m₂.size = m.size)
    (hpos : live → m₂.pos = m.pos) :
    Answers live late SameLits (orHalt (m.pureCall q vals)) (orHalt (m₂.pureCall q vals₂)) := by
  have hcall (m : Machine) (vals : List Value) : orHalt (m.pureCall q vals) =
      orHalt (vals.mapM (m.operand q)) >>= fun lits => (q.fold? m.size lits).elim
        (.error (.halt (m.fail ("cannot evaluate " ++ q.name)))) fun l => .ok [.ofLit l] := by
    unfold pureCall
    cases vals.mapM (m.operand q) with
    | error h => rfl
    | ok lits =>
        dsimp only [Bind.bind, Except.bind, orHalt]
        cases q.fold? m.size lits <;> rfl
  rw [hcall, hcall]
  refine (operands_answers h hpos).bind fun lits lits' hlits => ?_
  rw [hlits, hsize]
  cases q.fold? m.size lits' with
  | some l => exact .ok (sameLits_ofLit _)
  | none => exact fail_answers hpos _

theorem access_echoes (h : List.Forall₂ Value.Looks vals vals₂) (hsize : m₂.size = m.size)
    (htrace : m₂.trace = m.trace) (a : MemAccess) :
    SameLits (m.access a vals).1 (m₂.access a vals₂).1 ∧
      (m₂.access a vals₂).2.trace = (m.access a vals).2.trace := by
  obtain ⟨hmemory, hprinted⟩ := Prod.mk.inj htrace
  have htail : vals₂.tail.map Value.asWord = vals.tail.map Value.asWord := by
    rw [List.map_tail, List.map_tail, map_asWord_of_looks h]
  unfold access
  dsimp only
  rw [head?_asWord_of_looks h, htail, hsize, hmemory]
  split
  · exact ⟨⟨rfl, fun _ h => nomatch h⟩, by rw [trace, trace, hprinted]⟩
  · exact ⟨sameLits_words _, htrace⟩

/-- What comes out is the same on both sides, the same can be seen of it, and machines that were in
one place still are. -/
def Alongside {α : Type} (traced : Bool) (m m₂ : Machine) (r r₂ : α × Machine) : Prop :=
  r₂.1 = r.1 ∧ Echoes traced m m₂ r.2 r₂.2 ∧ (m₂.pos = m.pos → r₂.2.pos = r.2.pos)

theorem pos_access (m : Machine) (a : MemAccess) (vals : List Value) :
    (m.access a vals).2.pos = m.pos := by
  unfold access
  dsimp only
  split <;> rfl

/-- A primitive gives the same literals on both sides, and the same can be seen of it. -/
theorem prim_answers (h : List.Forall₂ Value.Looks vals vals₂) (hsize : m₂.size = m.size)
    (hpos : live → m₂.pos = m.pos) (htrace : q.op.leavesTrace = true → m₂.trace = m.trace) :
    Answers live late
      (fun r r₂ => Alongside q.op.leavesTrace m m₂ r r₂ ∧ ∀ v ∈ r.1, v.lit?.isSome = true)
      (orHalt (m.prim q vals)) (orHalt (m₂.prim q vals₂)) := by
  have hvalues {r r₂ : Except Halt (List Value)} (traced : Bool)
      (hr : Answers live late SameLits (orHalt r) (orHalt r₂)) :
      Answers live late
        (fun r r₂ => Alongside traced m m₂ r r₂ ∧ ∀ v ∈ r.1, v.lit?.isSome = true)
        (orHalt (r.map fun vs => (vs, m))) (orHalt (r₂.map fun vs => (vs, m₂))) := by
    have hmap (m : Machine) (r : Except Halt (List Value)) :
        orHalt (r.map fun vs => (vs, m)) = orHalt r >>= fun vs => .ok (vs, m) := by
      cases r <;> rfl
    rw [hmap, hmap]
    exact hr.bind fun vs vs₂ hvs => .ok ⟨⟨hvs.1, .inl ⟨rfl, rfl⟩, id⟩, hvs.2⟩
  unfold prim
  split
  · exact hvalues _ (divide_answers h hsize hpos false)
  · exact hvalues _ (divide_answers h hsize hpos false)
  · exact hvalues _ (divide_answers h hsize hpos true)
  · exact fail_answers hpos _
  · exact fail_answers hpos _
  · rename_i hop
    rw [hop] at htrace ⊢
    obtain ⟨hmemory, hprinted⟩ := Prod.mk.inj (htrace rfl)
    refine .ok ⟨⟨rfl, .inr ⟨rfl, ?_⟩, id⟩, fun _ h => nomatch h⟩
    rw [trace, trace, head?_asWord_of_looks h, hsize, hmemory, hprinted]
  · exact fail_answers hpos _
  · split
    · rename_i a ha
      have htraced : q.op.leavesTrace = true := by
        rw [PrimOp.leavesTrace, ha]
        simp
      obtain ⟨hvs, htrace'⟩ := access_echoes h hsize (htrace htraced) a
      refine .ok ⟨⟨hvs.1, .inr ⟨htraced, htrace'⟩, fun hsame => ?_⟩, hvs.2⟩
      rw [pos_access, pos_access, hsame]
    · exact hvalues _ (pureCall_answers h hsize hpos)

end Primitives

/-! ### Operations -/

section Operations

variable {p : Program} {m m₂ m' : Machine} {env env₂ : Locals} {live : Prop} {late : Stall → Prop}
  {f : Atom → Atom}

theorem atoms_answers {q : Program} {V : Value → Value → Prop} {as bs : List Atom}
    (h : List.Forall₂ (fun a b => Answers live late V (atom p m env a) (atom q m₂ env₂ b)) as bs) :
    Answers live late (List.Forall₂ V) (atoms p m env as) (atoms q m₂ env₂ bs) := by
  induction h with
  | nil => exact .ok .nil
  | cons ha _ ih =>
      unfold atoms
      rw [List.mapM_cons, List.mapM_cons]
      exact ha.bind fun v v' hv => Answers.bind ih fun vs vs' hvs => .ok (.cons hv hvs)

/-- Operands that are replaced have the values that they had. -/
theorem atoms_answers_map (as : List Atom)
    (h : ∀ a ∈ as, Answers live late Eq (atom p m env a) (atom p m₂ env₂ (f a))) :
    Answers live late Eq (atoms p m env as) (atoms p m₂ env₂ (as.map f)) := by
  have hall : List.Forall₂ (fun a b => Answers live late Eq (atom p m env a) (atom p m₂ env₂ b)) as
      (as.map f) := by
    rw [List.forall₂_map_right_iff]
    exact List.forall₂_same.mpr h
  have hatoms := atoms_answers hall
  rwa [List.forall₂_eq_eq_eq] at hatoms

theorem enter_answers (hpos : live → m₂.pos = m.pos) {fn : Atom} {args : List Atom}
    (hfn : Answers live late Eq (atom p m env fn) (atom p m₂ env₂ (f fn)))
    (hargs : ∀ a ∈ args, Answers live late Eq (atom p m env a) (atom p m₂ env₂ (f a))) :
    Answers live late (Alongside false m m₂) (enter p m env fn args)
      (enter p m₂ env₂ (f fn) (args.map f)) := by
  refine hfn.bind fun v v₂ hv => ?_
  subst hv
  cases v with
  | word w => exact fail_answers hpos _
  | flag b => exact fail_answers hpos _
  | data k fields => exact fail_answers hpos _
  | closure id fields =>
      dsimp only
      refine (atoms_answers_map args hargs).bind fun vals vals₂ hvals => ?_
      subst hvals
      refine (Answers.refl (orDefect _)).bind fun k k₂ hk => ?_
      subst hk
      split
      · exact fail_answers hpos _
      · refine (Answers.refl (orDefect _)).bind fun d d₂ hd => ?_
        subst hd
        exact .ok ⟨rfl, .inl ⟨rfl, rfl⟩, fun _ => rfl⟩

/-- An operation on operands that have the values of the other's answers the other. -/
theorem operate_answers {t : Tail} (hsize : m₂.size = m.size) (hpos : live → m₂.pos = m.pos)
    (htrace : t.leavesTrace = true → m₂.trace = m.trace)
    (hatoms : ∀ a ∈ t.atoms, Answers live late Eq (atom p m env a) (atom p m₂ env₂ (f a))) :
    Answers live late (Alongside t.leavesTrace m m₂) (operate p m env t)
      (operate p m₂ env₂ (t.mapAtoms f)) := by
  cases t with
  | ret args =>
      refine (atoms_answers_map args hatoms).bind fun vals vals₂ hvals => ?_
      subst hvals
      exact .ok ⟨rfl, .inl ⟨rfl, rfl⟩, id⟩
  | call c =>
      refine (atoms_answers_map c.args hatoms).bind fun vals vals₂ hvals => ?_
      subst hvals
      refine (Answers.refl (orDefect _)).bind fun b b₂ hb => ?_
      subst hb
      refine (Answers.refl (orDefect _)).bind fun d d₂ hd => ?_
      subst hd
      exact .ok ⟨rfl, .inl ⟨rfl, rfl⟩, fun _ => rfl⟩
  | prim q args inst =>
      refine (atoms_answers_map args hatoms).bind fun vals vals₂ hvals => ?_
      subst hvals
      refine (prim_answers (Value.looks_refl vals) hsize hpos htrace).bind fun r r₂ hr => ?_
      obtain ⟨⟨hvs, hecho, hpos'⟩, -⟩ := hr
      exact .ok ⟨congrArg Effect.values hvs, hecho, hpos'⟩
  | alloc k args inst =>
      refine (atoms_answers_map args hatoms).bind fun vals vals₂ hvals => ?_
      subst hvals
      exact .ok ⟨rfl, .inl ⟨rfl, rfl⟩, id⟩
  | data k args inst =>
      refine (atoms_answers_map args hatoms).bind fun vals vals₂ hvals => ?_
      subst hvals
      exact .ok ⟨rfl, .inl ⟨rfl, rfl⟩, id⟩
  | enter fn args => exact enter_answers hpos (hatoms fn (.head _)) fun a ha => hatoms a (.tail _ ha)
  | sel k field arg inst =>
      refine (hatoms arg (.head _)).bind fun v v₂ hv => ?_
      subst hv
      dsimp only
      split
      · exact .ok ⟨rfl, .inl ⟨rfl, rfl⟩, id⟩
      · exact fail_answers hpos _

theorem chooseFlag_answers (hpos : live → m₂.pos = m.pos) {cond : Atom} (c d : BlockCall)
    (hcond : Answers live late Eq (atom p m env cond) (atom p m₂ env₂ (f cond))) :
    Answers live late (fun r r₂ => r₂ = r.mapAtoms f ∧ (r = c ∨ r = d)) (chooseFlag p m env cond c d)
      (chooseFlag p m₂ env₂ (f cond) (c.mapAtoms f) (d.mapAtoms f)) := by
  refine hcond.bind fun v v₂ hv => ?_
  subst hv
  cases v with
  | word w => exact fail_answers hpos _
  | closure id fields => exact fail_answers hpos _
  | data k fields => exact fail_answers hpos _
  | flag b =>
      cases b with
      | true => exact .ok ⟨rfl, .inl rfl⟩
      | false => exact .ok ⟨rfl, .inr rfl⟩

theorem chooseAlt_answers (hpos : live → m₂.pos = m.pos) {scrut : Atom}
    (alts : List (Cfun × BlockCall)) (default : Option BlockCall)
    (hscrut : Answers live late Eq (atom p m env scrut) (atom p m₂ env₂ (f scrut))) :
    Answers live late
      (fun r r₂ => r₂ = r.mapAtoms f ∧ r ∈ (Code.case scrut alts default).calls)
      (chooseAlt p m env scrut alts default)
      (chooseAlt p m₂ env₂ (f scrut) (alts.map fun (k, c) => (k, c.mapAtoms f))
        (default.map (·.mapAtoms f))) := by
  refine hscrut.bind fun v v₂ hv => ?_
  subst hv
  cases v with
  | word w => exact fail_answers hpos _
  | flag b => exact fail_answers hpos _
  | closure id fields => exact fail_answers hpos _
  | data k fields =>
      dsimp only
      have hfind : (alts.map fun (k, c) => (k, c.mapAtoms f)).find? (fun a => a.1.tag = k.tag) =
          (alts.find? fun a => a.1.tag = k.tag).map fun (k, c) => (k, c.mapAtoms f) := by
        rw [List.find?_map]
        rfl
      rw [hfind]
      cases halt : alts.find? fun a => a.1.tag = k.tag with
      | some a =>
          refine .ok ⟨rfl, List.mem_append_left _ ?_⟩
          exact List.mem_map.mpr ⟨a, List.mem_of_find?_eq_some halt, rfl⟩
      | none =>
          cases default with
          | some c => exact .ok ⟨rfl, List.mem_append_right _ (.head _)⟩
          | none => exact fail_answers hpos _

end Operations

/-! ### Moves -/

section Moves

variable {p : Program} {m m₂ : Machine} {live : Prop} {late : Stall → Prop} {j : Job}

/-- Machines on which the operands of a job have the same values answer each other. -/
theorem move_answers (hsize : m₂.size = m.size) (hpos : live → m₂.pos = m.pos)
    (htrace : j.leavesTrace = true → m₂.trace = m.trace)
    (hreads : ∀ a ∈ j.reads, Answers live late Eq (atom p m j.env a) (atom p m₂ j.env a)) :
    Answers live late (Alongside j.leavesTrace m m₂) (j.move p m) (j.move p m₂) := by
  cases j with
  | tail t env =>
      have hop := operate_answers (f := id) hsize hpos htrace hreads
      rw [Tail.mapAtoms_id] at hop
      refine hop.bind fun r r₂ hr => ?_
      obtain ⟨e, w⟩ := r
      obtain ⟨e₂, w₂⟩ := r₂
      obtain ⟨heffect, hecho, hpos'⟩ := hr
      dsimp only at heffect ⊢
      have hmove : Answers live late Eq e.move e.move := by
        unfold Effect.move
        split
        · exact .ok rfl
        · exact .ok rfl
        · exact .defect
        · exact .ok rfl
        · exact .defect
      rw [heffect]
      refine hmove.bind fun mv mv₂ hmv => ?_
      rw [hmv]
      exact .ok ⟨rfl, hecho, hpos'⟩
  | code c env =>
      have hsame (c : BlockCall) : c.mapAtoms id = c := by rw [BlockCall.mapAtoms, List.map_id]
      cases c with
      | bind vars t next => exact .ok ⟨rfl, .inl ⟨rfl, rfl⟩, id⟩
      | done t => exact .ok ⟨rfl, .inl ⟨rfl, rfl⟩, id⟩
      | branch cond c d =>
          have hchoose := chooseFlag_answers (f := id) hpos c d (hreads cond (.head _))
          rw [hsame, hsame] at hchoose
          refine hchoose.bind fun r r₂ hr => ?_
          rw [hr.1, hsame]
          exact .ok ⟨rfl, .inl ⟨rfl, rfl⟩, id⟩
      | case scrut alts default =>
          have hchoose := chooseAlt_answers (f := id) hpos alts default (hreads scrut (.head _))
          simp only [hsame, List.map_id', Option.map_id'] at hchoose
          refine hchoose.bind fun r r₂ hr => ?_
          rw [hr.1]
          exact .ok ⟨rfl, .inl ⟨rfl, rfl⟩, id⟩

/-- Nothing can be seen of a move that leaves no trace. -/
theorem trace_of_move {mv : Move} {m' : Machine} (hquiet : j.leavesTrace = false)
    (hmove : j.move p m = .ok (mv, m')) : m'.trace = m.trace := by
  have h : Answers True (fun _ => False) (Alongside j.leavesTrace m m) (j.move p m) (j.move p m) :=
    move_answers rfl (fun _ => rfl) (fun _ => rfl) fun a _ => .refl _
  rw [hmove] at h
  cases h with
  | ok h =>
      rcases h.2.1 with ⟨htrace, -⟩ | ⟨htraced, -⟩
      · exact htrace
      · rw [hquiet] at htraced
        cases htraced

end Moves

end Machine

end Mil
