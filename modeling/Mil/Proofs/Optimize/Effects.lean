import Mil.Proofs.Optimize.Inline
import Mil.Proofs.Optimize.Simplify
import Mil.Proofs.Optimize.Unused

/-!
Effects of top-level definitions. A top-level definition is computed when it is first read, so a pass
that moves or drops an operand may move or drop what its computation prints. Once the values are there
of the definitions that print or access memory, reading an operand shows nothing, and nothing of a run
is lost.
-/

namespace Mil

namespace Optimize

open Machine

variable {width : Int} {q : Program} {m mf : Machine} {id : DefnId} {d : Defn} {b : Block}
  {args vals : List Value}

/-- On a machine that has the values of those top-level definitions that are not silent, inlining, the
removal of parameters and simplification without its doubtful rewrites preserve what a run of an entrypoint
returns and all that it prints. Nothing is assumed of what the definitions print whose values are there. -/
theorem effects_provided (hq : q.Lowered width) (hregular : q.Regular) (hm : Provided q m)
    (hfree : ∀ {i vs}, m.tops.lookup i = some vs → Value.closureFrees vs = true)
    (hentry : id ∈ q.entries) (hd : q.defns[id]? = some d) (hflag : d.entry = true)
    (hb : d.body = .block b) (hargs : Value.closureFrees args = true)
    (hrun : Returns q m id args vals mf) :
    (∀ limit, ∃ changed q' mf', inline limit q = .ok (changed, q') ∧ Returns q' m id args vals mf' ∧
      mf'.printed = mf.printed ∧ mf'.memory = mf.memory ∧ mf'.steps ≤ mf.steps) ∧
    (∃ changed q' vals' mf', removeUnused q = .ok (changed, q') ∧ Returns q' m id args vals' mf' ∧
      List.Forall₂ Value.Alike vals vals' ∧ mf'.printed = mf.printed ∧ mf'.memory = mf.memory ∧
      mf'.steps ≤ mf.steps) ∧
    (q.Registered → ∃ changed q' mf', simplifyExcept (Simplify.doubtful m.size) m.size q = .ok (changed, q') ∧
      Returns q' m id args vals mf' ∧ mf'.printed = mf.printed ∧ mf'.memory = mf.memory ∧
      mf'.steps ≤ mf.steps) := by
  obtain ⟨hlinked, hbelow⟩ := hq.linked_below
  obtain ⟨T, hT⟩ := exists_covers hlinked hm fun _ _ _ hi => Value.within_of_closureFrees (hfree hi)
  have hid := hlinked.entries id hentry
  -- a program that does what the program did returns the same from the same machine
  have hreturns {q' : Program} (hrefines : Refines m.size q q') (hresolve : ∀ id, q'.resolve id = id) :
      ∃ mf', Returns q' m id args vals mf' ∧ mf'.printed = mf.printed ∧ mf'.memory = mf.memory ∧
        mf'.steps ≤ mf.steps := by
    obtain ⟨mf', hrun', htrace, hsteps⟩ := hrefines.returns hT hresolve hd hb hid
      (Value.within_of_closureFrees hargs) hrun
    obtain ⟨hmemory, hprinted⟩ := Prod.mk.inj htrace
    exact ⟨mf', hrun', hprinted, hmemory, hsteps⟩
  refine ⟨fun limit => ?_, ?_, fun hprims => ?_⟩
  · obtain ⟨changed, q', hinline, hrefines, hresolve⟩ := inline_refines m.size limit hlinked.whole
      fun i hi => by
        obtain ⟨e, he⟩ := Program.exists_of_reachable hi
        exact ⟨e, he, hbelow hi he, hlinked.calls hi he⟩
    obtain ⟨mf', h⟩ := hreturns hrefines hresolve
    exact ⟨changed, q', mf', hinline, h⟩
  · obtain ⟨changed, q', hremove, rfl | htrimmed⟩ := removeUnused_trims hlinked hregular
    · exact ⟨changed, q', vals, mf, hremove, hrun, alikes_refl vals, rfl, rfl, Nat.le_refl _⟩
    · have hleaner := leaner_of_trimmed hlinked hregular htrimmed
      obtain ⟨o, mf', hrun', ho, htrace, hsteps⟩ := hleaner.ends hT hfree hid hd hb
        (fun bits hbits => (Needs.lookup_least hbits hd).2 hflag) hargs hrun.ends
      obtain ⟨hmemory, hprinted⟩ := Prod.mk.inj htrace
      cases ho with
      | ok hvals =>
          exact ⟨changed, q', _, mf', hremove, hrun'.returns, hvals, hprinted, hmemory, hsteps⟩
  · obtain ⟨R, hready, hbodies⟩ := ready_of_registered hlinked hregular hprims
    obtain ⟨changed, q', hsimplify, hrefines, hresolve⟩ := simplify_refines hlinked.whole hready hbodies
    obtain ⟨mf', h⟩ := hreturns hrefines hresolve
    exact ⟨changed, q', mf', hsimplify, h⟩

/-- A text with two entrypoints that read a top-level value and do not use it. When the value is
computed, a word is printed. Another value is computed in silence. -/
def printingText : String :=
  "types:\n- name: Box\n  cfuns:\n  - name: B\n    fields: [Word]\ntops:\n- names: [t]\n" ++
  "  types: [Word]\n  tail: \x7bcall: init\x7d\n- names: [u]\n  types: [Word]\n" ++
  "  tail: \x7breturn: [5]\x7d\nblocks:\n- name: init\n  code:\n  - bind: []\n" ++
  "    prim: printWord\n    args: [7]\n  - return: [3]\n- name: pack\n  type: \"[] >>= [Word]\"\n" ++
  "  code:\n  - bind: [b]\n    data: B\n    args: [t]\n  - return: [5]\n- name: pass\n" ++
  "  type: \"[] >>= [Word]\"\n  code:\n  - bind: []\n    prim: printWord\n    args: [9]\n" ++
  "  - call: pick\n    args: [t, u]\n- name: pick\n  params: [x, y]\n  code:\n  - return: [y]\n"

/-- The machine that has the first of the two values. -/
def printingMachine : Machine := { Machine.new 64 0 with tops := [(4, [.word 3])] }

/-- Does a run return five within some steps, having printed the words, the last one first? -/
def shows (q : Program) (m : Machine) (id : DefnId) (ws : List Word) (n : Nat) : Bool :=
  match loop q n (start q m id []).1 (start q m id []).2 with
  | (.ok [.word w], mf) => decide (w = 5 ∧ mf.printed = ws)
  | _ => false

theorem returns_of_shows {ws : List Word} {n : Nat} (h : shows q m id ws n = true) :
    ∃ mf, Returns q m id [] [.word 5] mf ∧ mf.printed = ws := by
  unfold shows at h
  split at h
  · rename_i w mf hloop
    obtain ⟨rfl, hprinted⟩ := of_decide_eq_true h
    exact ⟨mf, ⟨n, hloop⟩, hprinted⟩
  · cases h

/-- Does a run return five after a pass, having printed the words? -/
def showsAfter (r : Except Defect (Bool × Program)) (id : DefnId) (ws : List Word) : Bool :=
  r.toOption.any fun x => shows x.2 (.new 64 0) id ws 10

theorem returns_of_showsAfter {r : Except Defect (Bool × Program)} {ws : List Word}
    (h : showsAfter r id ws = true) : ∃ changed q' mf, r = .ok (changed, q') ∧
      Returns q' (.new 64 0) id [] [.word 5] mf ∧ mf.printed = ws := by
  cases r with
  | error e => cases h
  | ok x =>
      obtain ⟨mf, hrun, hprinted⟩ := returns_of_shows h
      exact ⟨x.1, x.2, mf, rfl, hrun, hprinted⟩

/-- Do the entrypoints of that text print the word on a new machine, but not after the passes? -/
def losesPrint (q : Program) : Bool :=
  decide (1 ∈ q.entries ∧ 2 ∈ q.entries) && shows q (.new 64 0) 1 [7] 10 &&
    shows q (.new 64 0) 2 [7, 9] 10 && showsAfter (simplify 64 q) 1 [] &&
    showsAfter (inline 5 q) 2 [9] && showsAfter (removeUnused q) 2 [9]

/-- Is the second entrypoint of that text a block, and does it print its own word on the machine that has
the value of which a word is printed? -/
def keepsPrint (q : Program) : Bool :=
  decide (q.Regular ∧ q.Registered) && silentWithin q printingMachine 10 && (q.defns[2]?).any Defn.entry &&
    (q.block? 2).isSome && shows q printingMachine 2 [9] 10

theorem exists_printing : ∃ q, q.Lowered 64 ∧ losesPrint q = true ∧ keepsPrint q = true := by
  have hall : (lowered "printing" printingText ["pack", "pass"] 64).any
      (fun q => losesPrint q && keepsPrint q) = true := by
    rw [lowered, Typing.accepted_eq _ printingText _ (toList_append_ofList (toList_append_ofList
      (toList_append_ofList (toList_append_ofList (toList_append_ofList
        (toList_append_ofList String.toList_ofList))))))]
    decide +kernel
  obtain ⟨q, hq, hall⟩ := (Option.any_eq_true _ _).mp hall
  obtain ⟨hloses, hkeeps⟩ := Bool.and_eq_true_iff.mp hall
  exact ⟨q, lowered_spec hq, hloses, hkeeps⟩

theorem effects_provided_printing : ∃ q mf q' vals' mf', q.Lowered 64 ∧ q.Regular ∧
    Returns q printingMachine 2 [] [.word 5] mf ∧ mf.printed = [9] ∧
    (∃ changed, removeUnused q = .ok (changed, q')) ∧ Returns q' printingMachine 2 [] vals' mf' ∧
    List.Forall₂ Value.Alike [.word 5] vals' ∧ mf'.printed = [9] ∧ q.Registered ∧
    ∃ changed q' mf', simplifyExcept (Simplify.doubtful 64) 64 q = .ok (changed, q') ∧
      Returns q' printingMachine 2 [] [.word 5] mf' ∧ mf'.printed = [9] := by
  obtain ⟨q, hq, hloses, hkeeps⟩ := exists_printing
  unfold losesPrint at hloses
  unfold keepsPrint at hkeeps
  simp only [Bool.and_eq_true, decide_eq_true_eq] at hloses hkeeps
  obtain ⟨⟨⟨⟨⟨⟨-, hentry⟩, -⟩, -⟩, -⟩, -⟩, -⟩ := hloses
  obtain ⟨⟨⟨⟨⟨hregular, hprims⟩, hsilent⟩, hflag⟩, hblock⟩, hshows⟩ := hkeeps
  obtain ⟨b, hb⟩ := Option.isSome_iff_exists.mp hblock
  obtain ⟨d, hd, hb⟩ := Source.exists_of_block? hb
  rw [hd] at hflag
  obtain ⟨mf, hrun, hprinted⟩ := returns_of_shows hshows
  have hfree {i : DefnId} {vs : List Value} (hi : printingMachine.tops.lookup i = some vs) :
      Value.closureFrees vs = true := by
    cases List.mem_singleton.mp (mem_of_lookup hi)
    rfl
  obtain ⟨-, ⟨changed, q', vals', mf', hremove, hrun', hvals, hprinted', -⟩, hsimplify⟩ :=
    effects_provided hq hregular (provided_of_within ⟨Int.le_refl 0, rfl⟩ hsilent) hfree hentry hd hflag
      hb rfl hrun
  obtain ⟨changed', q₂, mf₂, hsimplify, hrun₂, hprinted₂, -⟩ := hsimplify hprims
  exact ⟨q, mf, q', vals', mf', hq, hregular, hrun, hprinted, ⟨changed, hremove⟩, hrun', hvals,
    hprinted'.trans hprinted, hprims, changed', q₂, mf₂, hsimplify, hrun₂, hprinted₂.trans hprinted⟩

/-- On a new machine, each of the three passes can drop what a top-level definition prints while it is
computed. -/
theorem passes_lose_effects : ∃ q m₁ m₂, q.Lowered 64 ∧ 1 ∈ q.entries ∧ 2 ∈ q.entries ∧
    Returns q (.new 64 0) 1 [] [.word 5] m₁ ∧ m₁.printed = [7] ∧
    Returns q (.new 64 0) 2 [] [.word 5] m₂ ∧ m₂.printed = [7, 9] ∧
    (∃ changed q' m', simplify 64 q = .ok (changed, q') ∧
      Returns q' (.new 64 0) 1 [] [.word 5] m' ∧ m'.printed = []) ∧
    (∃ changed q' m', inline 5 q = .ok (changed, q') ∧
      Returns q' (.new 64 0) 2 [] [.word 5] m' ∧ m'.printed = [9]) ∧
    ∃ changed q' m', removeUnused q = .ok (changed, q') ∧
      Returns q' (.new 64 0) 2 [] [.word 5] m' ∧ m'.printed = [9] := by
  obtain ⟨q, hq, hloses, -⟩ := exists_printing
  unfold losesPrint at hloses
  simp only [Bool.and_eq_true, decide_eq_true_eq] at hloses
  obtain ⟨⟨⟨⟨⟨hentries, hpack⟩, hpass⟩, hsimplify⟩, hinline⟩, hremove⟩ := hloses
  obtain ⟨m₁, hrun₁, hprinted₁⟩ := returns_of_shows hpack
  obtain ⟨m₂, hrun₂, hprinted₂⟩ := returns_of_shows hpass
  exact ⟨q, m₁, m₂, hq, hentries.1, hentries.2, hrun₁, hprinted₁, hrun₂, hprinted₂,
    returns_of_showsAfter hsimplify, returns_of_showsAfter hinline, returns_of_showsAfter hremove⟩

end Optimize

end Mil
