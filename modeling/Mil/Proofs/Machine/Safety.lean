import Mil.Proofs.Machine.Checked
import Mil.Proofs.Machine.Operate
import Mil.Proofs.Mono.Fill
import Mil.Proofs.Typing.References

/-!
The world of a specialised program. Types play no part in how the machine runs, so a copy can be used
at every type at which the definition that it serves can be used, and not only at the one that it was
asked for. What one coherent world says of the definitions at the start therefore says the same of
the copies at the end.
-/

namespace Mil

namespace Mono

section Served

variable {p : Program} {s : State}

/-- A definition can take the place of itself, whether it was asked for or not, and of what it
serves. -/
def State.StandsFor (p : Program) (s : State) (i j : DefnId) : Prop := i = j ∨ s.Serves p i j

/-- When no request waits, what stands for a definition is the definition as it was or a copy of
it. -/
theorem Tracks.servedBy (h : Tracks p [] s) (hqueue : s.queue = []) {i j : DefnId} {d : Defn}
    (hstands : s.StandsFor p i j) (hd : p.defns[i]? = some d) :
    ∃ d', s.program.defns[j]? = some d' ∧ (d' = d ∨ BodyCopy p (s.StandsFor p) d.body d'.body) := by
  have hcopies {d' : Defn} (hcopy : BodyCopy p (s.Serves p) d.body d'.body) :
      BodyCopy p (s.StandsFor p) d.body d'.body := hcopy.mono fun _ _ => .inr
  have hself : ∃ d', s.program.defns[i]? = some d' ∧
      (d' = d ∨ BodyCopy p (s.StandsFor p) d.body d'.body) := by
    have hlt := Nat.lt_of_lt_of_le (Array.getElem?_eq_some_iff.mp hd).1 h.size
    refine ⟨s.program.defns[i], Array.getElem?_eq_getElem hlt, ?_⟩
    exact (h.standing hd (Array.getElem?_eq_getElem hlt)).imp_right fun h => hcopies h.2
  rcases hstands with rfl | ⟨k, hk, rfl⟩ | ⟨rfl, -⟩
  · exact hself
  · rcases h.served hk hd with ⟨q, hq, -⟩ | ⟨d', hd', hcopy⟩
    · rw [hqueue] at hq
      exact absurd hq List.not_mem_nil
    · exact ⟨d', hd', .inr (hcopies hcopy)⟩
  · exact hself

end Served

end Mono

namespace Machine

open Mono (Renames AtomCopy AtomsCopy CallCopy TailCopy CodeCopy BodyCopy PrimCopy)

/-- A definition can be used at all types at which one that it serves can be used. -/
def World.served (W : World) (S : DefnId → DefnId → Prop) : World where
  block j τs τ := ∃ i, S i j ∧ W.block i τs τ
  closure j stored τs τ := ∃ i, S i j ∧ W.closure i stored τs τ
  tops j τs := ∃ i, S i j ∧ W.tops i τs
  external j := ∃ i, S i j ∧ W.external i

theorem World.le_served (W : World) {S : DefnId → DefnId → Prop} (hS : ∀ i, S i i) :
    W.Le (W.served S) :=
  ⟨fun i _ _ h => ⟨i, hS i, h⟩, fun i _ _ _ h => ⟨i, hS i, h⟩, fun i _ h => ⟨i, hS i, h⟩,
    fun i h => ⟨i, hS i, h⟩⟩

theorem exists_of_mem_right {α β : Type} {R : α → β → Prop} {as : List α} {bs : List β} {b : β}
    (h : List.Forall₂ R as bs) (hb : b ∈ bs) : ∃ a ∈ as, R a b := by
  obtain ⟨i, hi⟩ := List.mem_iff_getElem?.mp hb
  obtain ⟨a, ha, hr⟩ := forall₂_getElem? h hi
  exact ⟨a, List.mem_of_getElem? ha, hr⟩

section Copies

variable {p : Program} {W : World} {S : DefnId → DefnId → Prop} {E : Env} {env : Renames}
  {L L' : LocalTypes}

theorem AtomTyped.copy (hW : W.Coherent p) (hL : env.Carries Eq L L') {a a' : Atom} {τ : Ty}
    (hcopy : AtomCopy p S env a a') (h : AtomTyped W L a τ) : AtomTyped (W.served S) L' a' τ := by
  cases hcopy with
  | temp hlookup =>
      obtain ⟨τ', hτ', rfl⟩ := hL _ _ h _ hlookup
      exact hτ'
  | lit l => cases l <;> exact h
  | @top id id' _ _ _ _ hserves hindex =>
      rcases h with hext | ⟨τs, hτs, hget⟩
      · exact .inl ⟨id, hserves, hext⟩
      · refine .inr ⟨τs, ⟨id, hserves, hτs⟩, ?_⟩
        rcases hindex with rfl | ⟨d, e, hd, he⟩
        · exact hget
        · -- what has types as a top-level definition is no external
          obtain ⟨d', t, tail, hd', ht, -⟩ := hW.tops hτs
          rw [hd] at hd'
          cases hd'
          rw [he] at ht
          cases ht

theorem AtomsTyped.copy (hW : W.Coherent p) (hL : env.Carries Eq L L') {as as' : List Atom}
    {τs : List Ty} (hcopy : AtomsCopy p S env as as') (h : AtomsTyped W L as τs) :
    AtomsTyped (W.served S) L' as' τs := by
  induction h generalizing as' with
  | nil =>
      cases hcopy
      exact .nil
  | cons ha _ ih =>
      cases hcopy with
      | cons hcopy hrest => exact .cons (ha.copy hW hL hcopy) (ih hrest)

theorem CallTyped.copy (hW : W.Coherent p) (hL : env.Carries Eq L L') {c c' : BlockCall} {τ : Ty}
    (hcopy : CallCopy p S env c c') (h : CallTyped W L c τ) : CallTyped (W.served S) L' c' τ := by
  obtain ⟨τs, hblock, hargs⟩ := h
  exact ⟨τs, ⟨_, hcopy.serves, hblock⟩, hargs.copy hW hL hcopy.args⟩

theorem PrimTyped.copy {q q' : Prim} {τs : List Ty} {τ : Ty} (hcopy : PrimCopy q q')
    (h : PrimTyped q τs τ) : PrimTyped q' τs τ := by
  unfold PrimTyped at h ⊢
  rw [hcopy.op, hcopy.purity]
  exact h

theorem TailTyped.copy (hW : W.Coherent p) (hL : env.Carries Eq L L') {t t' : Tail} {τ : Ty}
    (hcopy : TailCopy p S env t t') (h : TailTyped E W L t τ) :
    TailTyped E (W.served S) L' t' τ := by
  cases h with
  | ret hargs =>
      cases hcopy with
      | ret hcopy => exact .ret (hargs.copy hW hL hcopy)
  | call hcall =>
      cases hcopy with
      | call hcopy => exact .call (hcall.copy hW hL hcopy)
  | prim hprim hargs =>
      cases hcopy with
      | prim hq hcopy => exact .prim (hprim.copy hq) (hargs.copy hW hL hcopy)
  | alloc hclosure hargs =>
      cases hcopy with
      | alloc hserves hcopy => exact .alloc ⟨_, hserves, hclosure⟩ (hargs.copy hW hL hcopy)
  | data hcfun hargs =>
      cases hcopy with
      | data hcopy => exact .data hcfun (hargs.copy hW hL hcopy)
  | enter hfn hargs =>
      cases hcopy with
      | enter hcopy hcopy' => exact .enter (hfn.copy hW hL hcopy) (hargs.copy hW hL hcopy')
  | sel hcfun hfield harg =>
      cases hcopy with
      | sel hcopy => exact .sel hcfun hfield (harg.copy hW hL hcopy)

theorem CodeTyped.copy (hW : W.Coherent p) (hL : env.Carries Eq L L') {c c' : Code} {τ : Ty}
    (hcopy : CodeCopy p S env c c') (h : CodeTyped E W L c τ) :
    CodeTyped E (W.served S) L' c' τ := by
  induction hcopy generalizing L L' with
  | bind hcopy hlen hfresh _ ih =>
      cases h with
      | bind htail hlen' hnext =>
          exact .bind (htail.copy hW hL hcopy) (hlen.trans hlen')
            (ih (hL.extend hlen hlen'.symm hfresh (List.forall₂_same.mpr fun _ _ => rfl)) hnext)
  | done hcopy =>
      cases h with
      | done htail => exact .done (htail.copy hW hL hcopy)
  | branch hcopy hcopy' hcopy'' =>
      cases h with
      | branch hcond ht hf =>
          exact .branch (hcond.copy hW hL hcopy) (ht.copy hW hL hcopy') (hf.copy hW hL hcopy'')
  | case hcopy halts hdefault =>
      cases h with
      | case hscrut hdata htyped htyped' =>
          refine .case (hscrut.copy hW hL hcopy) hdata (fun alt' halt' => ?_) fun c' hc' => ?_
          · obtain ⟨alt, halt, -, hcall⟩ := exists_of_mem_right halts halt'
            exact (htyped alt halt).copy hW hL hcall
          · subst hc'
            cases hdefault with
            | some hcall => exact (htyped' _ rfl).copy hW hL hcall

end Copies

/-- A coherent world of a program is one of the specialised program, for all that serve. -/
theorem World.Coherent.served {p : Program} {W : World} {s : Mono.State} (hW : W.Coherent p)
    (h : Mono.Tracks p [] s) (hqueue : s.queue = []) :
    (W.served (s.StandsFor p)).Coherent s.program := by
  have hle := W.le_served (S := s.StandsFor p) fun i => .inl rfl
  refine ⟨?_, ?_, ?_, ?_⟩
  · rintro j τs τ ⟨i, hserves, hblock⟩
    obtain ⟨d, b, code, hd, hb, hcode, hlen, htyped⟩ := hW.block hblock
    obtain ⟨d', hd', rfl | hcopy⟩ := h.servedBy hqueue hserves hd
    · exact ⟨d', b, code, hd', hb, hcode, hlen, h.env ▸ htyped.mono hle⟩
    · rw [hb] at hcopy
      generalize hb' : d'.body = body at hcopy
      cases hcopy with
      | @block _ b' _ code' hsource hcopy hlen' hfresh hcodecopy _ =>
          rw [hcode] at hsource
          cases hsource
          refine ⟨d', b', code', hd', hb', hcopy, hlen'.trans hlen, h.env ▸ htyped.copy hW ?_ hcodecopy⟩
          exact (Renames.Carries.nil [] []).extend hlen' hlen.symm hfresh
            (List.forall₂_same.mpr fun _ _ => rfl)
  · rintro j stored τs τ ⟨i, hserves, hclosure⟩
    obtain ⟨d, k, tail, hd, hk, htail, hlen, hlen', htyped⟩ := hW.closure hclosure
    obtain ⟨d', hd', rfl | hcopy⟩ := h.servedBy hqueue hserves hd
    · exact ⟨d', k, tail, hd', hk, htail, hlen, hlen', h.env ▸ htyped.mono hle⟩
    · rw [hk] at hcopy
      generalize hb' : d'.body = body at hcopy
      cases hcopy with
      | @closure _ k' _ tail' hsource hcopy hparams hargs hfresh hfresh' htailcopy _ =>
          rw [htail] at hsource
          cases hsource
          refine ⟨d', k', tail', hd', hb', hcopy, hparams.trans hlen, hargs.trans hlen',
            h.env ▸ htyped.copy hW ?_ htailcopy⟩
          exact ((Renames.Carries.nil [] []).extend hparams hlen.symm hfresh
            (List.forall₂_same.mpr fun _ _ => rfl)).extend hargs hlen'.symm hfresh'
              (List.forall₂_same.mpr fun _ _ => rfl)
  · rintro j τs ⟨i, hserves, htops⟩
    obtain ⟨d, t, tail, hd, ht, htail, htyped⟩ := hW.tops htops
    obtain ⟨d', hd', rfl | hcopy⟩ := h.servedBy hqueue hserves hd
    · exact ⟨d', t, tail, hd', ht, htail, h.env ▸ htyped.mono hle⟩
    · rw [ht] at hcopy
      generalize hb' : d'.body = body at hcopy
      cases hcopy with
      | @top _ t' _ tail' hsource hcopy htailcopy _ =>
          rw [htail] at hsource
          cases hsource
          exact ⟨d', t', tail', hd', hb', hcopy,
            h.env ▸ htyped.copy hW (Renames.Carries.nil [] []) htailcopy⟩
  · rintro j ⟨i, hserves, hext⟩
    obtain ⟨d, e, hd, he, himpl⟩ := hW.external hext
    obtain ⟨d', hd', rfl | hcopy⟩ := h.servedBy hqueue hserves hd
    · exact ⟨d', e, hd', he, himpl⟩
    · rw [he] at hcopy
      generalize hb' : d'.body = body at hcopy
      cases hcopy with
      | @external _ e' himpl' _ => exact ⟨d', e', hd', hb', himpl'⟩

end Machine

end Mil

/-!
Well-typed programs do not go wrong. Whatever a checked program is run on, before or after
specialisation, values of the declared types lead to values of the declared types or to one of the
failures that types do not exclude.

Two things have to be granted. The check lets a case with nothing but a default look at any value,
while the machine wants one built by a constructor; and the machine takes the field of a selection
from any value built by a constructor, be it another one than the selection names.
-/

namespace Mil

/-! ### References of checked programs -/

namespace Typing

theorem working_within (p : Program) (θ : Nat → Ty) : (p.working θ).Within (· < p.defns.size) where
  block := by
    rintro id inst ⟨d, b, hd, -⟩
    exact (Array.getElem?_eq_some_iff.mp hd).1
  closure := by
    rintro id inst ⟨d, k, hd, -⟩
    exact (Array.getElem?_eq_some_iff.mp hd).1
  top := by
    rintro id index t ⟨d, i, hd, -⟩
    exact (Array.getElem?_eq_some_iff.mp hd).1

/-- A checked program can be specialised. -/
theorem Complete.prepared {p : Program} (h : Complete p) : Mono.Prepared p where
  formed := h.layout.formed
  whole := h.layout.whole
  refs hd r hr := by
    refine DefnHas.refs_within (working_within p p.store.reading)
      ((h.stage hd).derivation _ h.regular.solves_reading) (fun e he => ?_) hr
    have hformed := h.layout.formed hd
    rw [he] at hformed
    exact hformed

end Typing

/-! ### Runs -/

/-- Where no definition is replaced, every definition stands for itself. -/
theorem Program.resolve_of_whole {p : Program}
    (h : ∀ {j : DefnId} {d : Defn}, p.defns[j]? = some d → d.replacedBy = none) (id : DefnId) :
    p.resolve id = id :=
  resolve_of_standing h

namespace Machine

open Typing (Complete Checker accepted accepted_eq accepted_spec)

variable {p q : Program}

/-- A checked program, and what specialisation makes of it, can be run at the declared types: each is
a setting in which every block has the types that checking has found for it. -/
theorem setting_of_complete (h : Complete p) (hcases : p.casesOnData = true)
    (hq : q = p ∨ p.specialize = .ok q) :
    Setting q q.world ∧ ∀ {id τs τ}, p.checkedWorld.block id τs τ → q.world.block id τs τ := by
  have hcoherent := h.coherent hcases
  rcases hq with rfl | hq
  · exact ⟨⟨coherent_world q, h.layout.env.shaped, q.resolve_of_whole h.layout.whole⟩,
      fun hblock => hcoherent.le.block _ _ _ hblock⟩
  · obtain ⟨s, hrun, rfl⟩ := Mono.exists_of_specialize hq
    obtain ⟨htracks, hqueue, -⟩ := Mono.program_spec h.prepared hrun
    have hserved := hcoherent.served htracks hqueue
    refine ⟨⟨coherent_world _, ?_, Program.resolve_of_whole htracks.whole⟩, fun hblock => ?_⟩
    · rw [htracks.env]
      exact h.layout.env.shaped
    · exact hserved.le.block _ _ _ ⟨_, .inl rfl, hblock⟩

/-- A block of a checked program that quantifies nothing takes and gives a tuple of values, and can
be used at its declared type. -/
theorem block_of_declared (h : Complete p) {id : DefnId} {d : Defn} {b : Block} {type : BlockType}
    (hd : p.defns[id]? = some d) (hb : d.body = .block b) (htype : b.declared = some type)
    (hmono : type.kinds = []) :
    ∃ τs, type.dom = .tuple τs ∧ p.checkedWorld.block id τs type.rng := by
  have hlen : ([] : List Ty).length = type.kinds.length := by
    rw [hmono]
    rfl
  obtain ⟨working, θ, hworking, hθ, hdom, hrng⟩ := h.block_instance hd hb htype hlen
  rw [Ty.instantiate_nil] at hdom hrng
  have hder := (h.stage hd).derivation θ hθ
  rw [hb] at hder
  cases hder with
  | @block _ working' _ τs hworking' _ hdom' _ _ =>
      rw [hworking] at hworking'
      cases hworking'
      have hdom' : working.dom.mapVars θ = .tuple τs := hdom'
      exact ⟨τs, hdom.symm.trans hdom', d, b, working, θ, hd, hb, hworking, hθ, hdom', hrng⟩

/-- Well-typed programs do not go wrong: if a program is loaded and its check ends with no failure,
then a block that quantifies nothing, run on values of its declared parameter types, before or after
specialisation, gives values of its declared range or ends in a failure that types do not exclude. A
new machine can be used, and so can every machine that such a run leaves. It is granted that a case
without alternatives looks at a value of a data type, and that no selection of the run meets a value
of another constructor. -/
theorem run_outcomeOk {file text : String} {names : List String} {p : Program} {log : FailureLog}
    {c : Checker} {q : Program} {id : DefnId} {d : Defn} {b : Block} {type : BlockType}
    (hload : (Program.parse file text >>= fun p => Compiler.addEntries p names) = .ok p)
    (hcheck : p.check.run ⟨p, log⟩ = (.ok (), c)) (hlog : c.log.entries = [])
    (hcases : c.program.casesOnData = true)
    (hq : q = c.program ∨ c.program.specialize = .ok q)
    (hd : c.program.defns[id]? = some d) (hb : d.body = .block b)
    (htype : b.declared = some type) (hmono : type.kinds = []) :
    ∃ τs, type.dom = .tuple τs ∧ (∀ fuel, MachineOk q q.world (.new 64 fuel)) ∧
      ∀ m args, MachineOk q q.world m → List.Forall₂ (ValueHas q.env q.world) args τs →
        runStrays q m id args = false → OutcomeOk q q.world type.rng (run q m id args).1 ∧
          MachineOk q q.world (run q m id args).2 := by
  have hcomplete := Typing.complete_of_check (Source.loaded_of_parse hload) hcheck hlog
  obtain ⟨hsetting, hworld⟩ := setting_of_complete hcomplete hcases hq
  obtain ⟨τs, hdom, hblock⟩ := block_of_declared hcomplete hd hb htype hmono
  refine ⟨τs, hdom, fun fuel => ⟨rfl, fun h => nomatch h⟩, fun m args hm hargs hstray => ?_⟩
  exact run_ok hsetting hm (hworld hblock) hargs hstray

/-- The constructor that a type is. -/
def con? : Ty → Option Tycon
  | .con c => some c
  | _ => none

theorem eq_con_of_con? {ts : List Ty} {cs : List Tycon} (h : ts.map con? = cs.map some) :
    ts = cs.map .con := by
  induction ts generalizing cs with
  | nil => rw [List.map_eq_nil_iff.mp h.symm, List.map_nil]
  | cons t ts ih =>
      cases cs with
      | nil => cases h
      | cons c cs =>
          obtain ⟨ht, hts⟩ := List.cons.inj h
          rw [List.map_cons, ih hts]
          cases t <;> cases ht
          rfl

/-- Does the block at a position quantify nothing and take values of the given types? -/
def takes (p : Program) (id : DefnId) (cs : List Tycon) : Bool :=
  match (p.block? id).bind Block.declared with
  | some ⟨[], .tuple ts, _⟩ => ts.map con? = cs.map some
  | _ => false

theorem takes_spec {p : Program} {id : DefnId} {cs : List Tycon} (h : takes p id cs = true) :
    ∃ d b type, p.defns[id]? = some d ∧ d.body = .block b ∧ b.declared = some type ∧
      type.kinds = [] ∧ type.dom = .tuple (cs.map .con) := by
  unfold takes at h
  split at h
  · rename_i ts rng hdecl
    obtain ⟨b, hb, hdecl⟩ := Option.bind_eq_some_iff.mp hdecl
    obtain ⟨d, hd, hbody⟩ := Source.exists_of_block? hb
    refine ⟨d, b, _, hd, hbody, hdecl, rfl, ?_⟩
    rw [eq_con_of_con? (of_decide_eq_true h)]
  · cases h

/-- Is the specialised program of a checked one there, and does a run of it on three not stray? -/
def runsStraight (p : Program) : Bool :=
  match p.specialize with
  | .ok q => !runStrays q (.new 64 10) 0 [.word 3]
  | .error _ => false

/-- A text with a block from words to words. -/
def wordText : String :=
  "blocks:\n- name: f\n  type: \"[Word] >>= [Word]\"\n  params: [x]\n  code:\n  - return: [x]\n"

theorem run_outcomeOk_word : ∃ p c q, ∃ type : BlockType,
    (Program.parse "word" wordText >>= fun p => Compiler.addEntries p ["f"]) = .ok p ∧
    p.check.run ⟨p, .empty⟩ = (.ok (), c) ∧ c.program.specialize = .ok q ∧
    OutcomeOk q q.world type.rng (run q (.new 64 10) 0 [.word 3]).1 := by
  have hall : (accepted "word" wordText ["f"]).any (fun c => takes c.program 0 [.word] &&
      c.program.casesOnData && runsStraight c.program) = true := by
    rw [accepted_eq _ wordText _ String.toList_ofList]
    decide +kernel
  obtain ⟨c, hc, hall⟩ := (Option.any_eq_true _ _).mp hall
  rw [Bool.and_eq_true, Bool.and_eq_true] at hall
  obtain ⟨p, hload, hcheck, hlog⟩ := accepted_spec hc
  obtain ⟨d, b, type, hd, hb, htype, hmono, hdom⟩ := takes_spec hall.1.1
  have hstraight := hall.2
  unfold runsStraight at hstraight
  split at hstraight
  · rename_i q hq
    obtain ⟨τs, hdom', hnew, hrun⟩ :=
      run_outcomeOk hload hcheck hlog hall.1.2 (.inr hq) hd hb htype hmono
    obtain rfl : τs = [.word] := by
      rw [hdom] at hdom'
      injection hdom'.symm
    refine ⟨p, c, q, type, hload, hcheck, hq, (hrun _ [.word 3] (hnew 10) ?_ ?_).1⟩
    · exact .cons (.word ⟨.word, rfl, .inl rfl⟩) .nil
    · simpa using hstraight
  · cases hstraight

/-- The message of a run that fails. -/
def failureOf : Except Halt (List Value) → Option String
  | .error (.failure f) => some f.msg
  | _ => none

/-- The first block of an accepted text, run on values of its declared parameter types, fails with a
message. -/
def GoesWrong (text : String) (args : List Value) (msg : String) : Prop :=
  ∃ p c d b, ∃ type : BlockType, ∃ τs,
    (Program.parse "text" text >>= fun p => Compiler.addEntries p ["f"]) = .ok p ∧
    p.check.run ⟨p, .empty⟩ = (.ok (), c) ∧ c.log.entries = [] ∧
    c.program.defns[0]? = some d ∧ d.body = .block b ∧ b.declared = some type ∧ type.kinds = [] ∧
    type.dom = .tuple τs ∧ List.Forall₂ (ValueHas c.program.env c.program.world) args τs ∧
    failureOf (run c.program (.new 64 10) 0 args).1 = some msg

theorem goesWrong_of_accepted {text msg : String} (cs : List Tycon) {args : List Value}
    (hargs : ∀ E W, List.Forall₂ (ValueHas E W) args (cs.map .con))
    (h : (accepted "text" text ["f"]).any (fun c => takes c.program 0 cs &&
      failureOf (run c.program (.new 64 10) 0 args).1 = some msg) = true) :
    GoesWrong text args msg := by
  obtain ⟨c, hc, hall⟩ := (Option.any_eq_true _ _).mp h
  rw [Bool.and_eq_true, decide_eq_true_eq] at hall
  obtain ⟨p, hload, hcheck, hlog⟩ := accepted_spec hc
  obtain ⟨d, b, type, hd, hb, htype, hmono, hdom⟩ := takes_spec hall.1
  exact ⟨p, c, d, b, type, _, hload, hcheck, hlog, hd, hb, htype, hmono, hdom, hargs _ _, hall.2⟩

/-- A text with a case that has only a default, on a word. -/
def defaultText : String :=
  "blocks:\n- name: f\n  type: \"[Word] >>= [Word]\"\n  params: [x]\n  code:\n" ++
  "  - case: x\n    default: \x7bcall: f, args: [x]\x7d\n"

/-- A text with a selection from a value of another constructor. -/
def selectText : String :=
  "types:\n- name: D\n  cfuns:\n  - name: A\n    fields: [\"[] ->> [Word]\"]\n  - name: B\n" ++
  "    fields: [Word]\nblocks:\n- name: f\n  code:\n  - bind: [d]\n    data: B\n    args: [1]\n" ++
  "  - bind: [g]\n    sel: A\n    field: 0\n    args: [d]\n  - enter: g\n"

/-- Neither of the two things that are granted can be left out. -/
theorem accepted_goesWrong :
    GoesWrong defaultText [.word 3] "case on 3, which is not a data value" ∧
      GoesWrong selectText [] "entering 1, which is not a closure" := by
  refine ⟨goesWrong_of_accepted [.word] ?_ ?_, goesWrong_of_accepted [] (fun _ _ => .nil) ?_⟩
  · exact fun _ _ => .cons (.word ⟨.word, rfl, .inl rfl⟩) .nil
  · rw [accepted_eq _ defaultText _ (toList_append_ofList String.toList_ofList)]
    decide +kernel
  · rw [accepted_eq _ selectText _ (toList_append_ofList (toList_append_ofList String.toList_ofList))]
    decide +kernel

end Machine

end Mil
