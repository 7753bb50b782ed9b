import Mathlib.Logic.Function.Basic
import Mil.Proofs.Rtl.Passes

/-!
What a function does, whatever its instructions mean. A meaning says what operations and loads give,
which leave the state of the machine alone, and how stores, allocations, builtins and calls change it.
A function does a sequence of such effects, which may go on for ever, and then it may end.

The removal of dead code goes through the same nodes at the same time. With detours cut short a run
takes fewer steps, so a run on either side is matched by some run on the other; a cycle of jumps does
nothing on both sides and never ends. So neither changes what a function does.
-/

namespace Mil.Rtl

/-! ### Meanings -/

/-- What is called: the code that a register holds, or a symbol. -/
inductive Target (V : Type)
  | value (x : V)
  | symbol (name : String)

/-- What instructions mean over values of registers and states of the machine. A call is told how
many results are asked for, and gives them by position. -/
structure Meaning (V S : Type) where
  op : Operation → List V → S → V
  load : Chunk → Address → List V → S → V
  store : Chunk → Address → List V → V → S → S
  alloc : Int → S → V × S
  builtin : String → List V → S → V × S
  call : Target V → List V → Nat → S → (Nat → V) × S
  test : Test → List V → S → Bool
  index : V → S → Nat

/-- What can be seen of an instruction, with the values of its operands. -/
inductive Event (V : Type)
  | store (chunk : Chunk) (addr : Address) (args : List V) (src : V)
  | alloc (words : Int)
  | builtin (name : String) (args : List V)
  | call (target : Target V) (args : List V)

/-- How a run ends. It goes astray at a jump outside its table, or at a node without instruction. -/
inductive Ending (V : Type)
  | ret (vals : List V)
  | tailcall (target : Target V) (args : List V)
  | abort (reason : String)
  | astray

/-- What an instruction comes to: the end, or some effects and the next node. -/
inductive Response (V S : Type)
  | stop (e : Ending V)
  | go (events : List (Event V)) (next : Node) (regs : Reg → V) (s : S)

variable {V S : Type}

def Callee.target (fn : Callee) (regs : Reg → V) : Target V :=
  match fn with
  | .reg r => .value (regs r)
  | .symbol name => .symbol name

/-- Registers get values, the last one last. -/
def setAll (regs : Reg → V) : List Reg → (Nat → V) → Reg → V
  | [], _ => regs
  | d :: ds, vals => setAll (Function.update regs d (vals 0)) ds fun k => vals (k + 1)

namespace Meaning

/-- What an instruction comes to under a meaning. -/
def act (M : Meaning V S) (i : Instr) (regs : Reg → V) (s : S) : Response V S :=
  match i with
  | .nop next => .go [] next regs s
  | .op o args d next => .go [] next (Function.update regs d (M.op o (args.map regs) s)) s
  | .load chunk addr args d next =>
    .go [] next (Function.update regs d (M.load chunk addr (args.map regs) s)) s
  | .store chunk addr args src next =>
    .go [.store chunk addr (args.map regs) (regs src)] next regs
      (M.store chunk addr (args.map regs) (regs src) s)
  | .call fn args dests next =>
    let (vals, s') := M.call (fn.target regs) (args.map regs) dests.length s
    .go [.call (fn.target regs) (args.map regs)] next (setAll regs dests vals) s'
  | .tailcall fn args => .stop (.tailcall (fn.target regs) (args.map regs))
  | .builtin name args dest next =>
    let (x, s') := M.builtin name (args.map regs) s
    .go [.builtin name (args.map regs)] next (setAll regs dest.toList fun _ => x) s'
  | .alloc words d next =>
    let (x, s') := M.alloc words s
    .go [.alloc words] next (Function.update regs d x) s'
  | .branch test args ifSo ifNot =>
    .go [] (if M.test test (args.map regs) s then ifSo else ifNot) regs s
  | .jump r targets =>
    match targets[M.index (regs r) s]? with
    | some next => .go [] next regs s
    | none => .stop .astray
  | .ret args => .stop (.ret (args.map regs))
  | .abort reason => .stop (.abort reason)

/-- The effects of the first `fuel` instructions from a node on, and the end if it comes by then. -/
def exec (M : Meaning V S) (g : Graph) :
    Nat → Node → (Reg → V) → S → List (Event V) × Option (Ending V)
  | 0, _, _, _ => ([], none)
  | fuel + 1, node, regs, s =>
    match g.lookup node with
    | none => ([], some .astray)
    | some i =>
      match M.act i regs s with
      | .stop e => ([], some e)
      | .go events next regs s => (exec M g fuel next regs s).map (events ++ ·) id

/-- The effects are the first ones of a run of the function. -/
def Does (M : Meaning V S) (f : Function) (regs : Reg → V) (s : S) (events : List (Event V)) : Prop :=
  ∃ fuel, events <+: (M.exec f.code fuel f.entry regs s).1

/-- The run of the function has exactly these effects and then ends. -/
def EndsWith (M : Meaning V S) (f : Function) (regs : Reg → V) (s : S) (events : List (Event V))
    (e : Ending V) : Prop :=
  ∃ fuel, M.exec f.code fuel f.entry regs s = (events, some e)

end Meaning

/-- The registers of a function that gets operands; the others hold what they held. -/
def Function.opened (f : Function) (args : Nat → V) (rest : Reg → V) : Reg → V :=
  setAll rest f.params args

/-! ### Single instructions -/

section Instructions

variable {M : Meaning V S} {regs regs₂ : Reg → V} {s : S} {i : Instr}

theorem setAll_congr {ds : List Reg} {vals : Nat → V} {r : Reg} (h : r ∈ ds ∨ regs r = regs₂ r) :
    setAll regs ds vals r = setAll regs₂ ds vals r := by
  induction ds generalizing regs regs₂ vals with
  | nil => exact h.resolve_left List.not_mem_nil
  | cons d ds ih =>
      refine ih ?_
      by_cases hd : r = d
      · subst hd
        rw [Function.update_self, Function.update_self]
        exact .inr rfl
      · rw [Function.update_of_ne hd, Function.update_of_ne hd]
        exact h.imp_left fun hr => (List.mem_cons.mp hr).resolve_left hd

theorem update_congr {d r : Reg} {x : V} (h : r ∈ [d] ∨ regs r = regs₂ r) :
    Function.update regs d x r = Function.update regs₂ d x r := by
  have hset : setAll regs [d] (fun _ => x) r = setAll regs₂ [d] (fun _ => x) r := setAll_congr h
  exact hset

/-- Two outcomes that differ only in registers which need not agree. -/
def Response.Agree (P : Reg → Prop) : Response V S → Response V S → Prop
  | .stop e, a => a = .stop e
  | .go events next regs s, a =>
    ∃ regs₂, a = .go events next regs₂ s ∧ ∀ r, P r → regs r = regs₂ r

theorem Meaning.act_congr (M : Meaning V S) (i : Instr) (s : S)
    (huses : ∀ r ∈ i.uses, regs r = regs₂ r) :
    (M.act i regs s).Agree (fun r => r ∈ i.defs ∨ regs r = regs₂ r) (M.act i regs₂ s) := by
  have hsame : ∀ r, (r ∈ [] ∨ regs r = regs₂ r) → regs r = regs₂ r :=
    fun r hr => hr.resolve_left List.not_mem_nil
  have hmap : ∀ rs : List Reg, (∀ r ∈ rs, r ∈ i.uses) → rs.map regs = rs.map regs₂ :=
    fun rs hrs => List.map_congr_left fun r hr => huses r (hrs r hr)
  have htarget : ∀ fn : Callee, (∀ r ∈ fn.regs, r ∈ i.uses) → fn.target regs = fn.target regs₂ := by
    rintro (r | name) hfn
    · exact congrArg Target.value (huses r (hfn r (.head _)))
    · rfl
  cases i with
  | nop next => exact ⟨regs₂, rfl, hsame⟩
  | op o args d next =>
      refine ⟨_, ?_, fun r hr => update_congr hr⟩
      rw [Meaning.act, hmap args fun r hr => hr]
  | load chunk addr args d next =>
      refine ⟨_, ?_, fun r hr => update_congr hr⟩
      rw [Meaning.act, hmap args fun r hr => hr]
  | store chunk addr args src next =>
      refine ⟨regs₂, ?_, hsame⟩
      rw [Meaning.act, hmap args fun r hr => List.mem_append_left _ hr,
        huses src (List.mem_append_right _ (.head _))]
  | call fn args dests next =>
      refine ⟨_, ?_, fun r hr => setAll_congr hr⟩
      rw [Meaning.act, hmap args fun r hr => List.mem_append_left _ hr,
        htarget fn fun r hr => List.mem_append_right _ hr]
  | tailcall fn args =>
      show Meaning.act M _ regs₂ s = _
      rw [Meaning.act, hmap args fun r hr => List.mem_append_left _ hr,
        htarget fn fun r hr => List.mem_append_right _ hr]
  | builtin name args dest next =>
      refine ⟨_, ?_, fun r hr => setAll_congr hr⟩
      rw [Meaning.act, hmap args fun r hr => hr]
  | alloc words d next => exact ⟨_, rfl, fun r hr => update_congr hr⟩
  | branch test args ifSo ifNot =>
      refine ⟨regs₂, ?_, hsame⟩
      rw [Meaning.act, hmap args fun r hr => hr]
  | jump r targets =>
      simp only [Meaning.act, huses r (.head _)]
      split
      · exact ⟨regs₂, rfl, hsame⟩
      · rfl
  | ret args =>
      show Meaning.act M _ regs₂ s = _
      rw [Meaning.act, hmap args fun r hr => hr]
  | abort reason => rfl

theorem Meaning.next_mem {events : List (Event V)} {next : Node} {regs' : Reg → V} {s' : S}
    (h : M.act i regs s = .go events next regs' s') : next ∈ i.successors := by
  cases i with
  | nop | op | load | store | call | builtin | alloc =>
      cases h
      exact .head _
  | branch test args ifSo ifNot =>
      cases h
      split
      · exact .head _
      · exact .tail _ (.head _)
  | jump r targets =>
      rw [Meaning.act] at h
      split at h
      · rename_i ht
        cases h
        exact List.mem_of_getElem? ht
      · cases h
  | tailcall | ret | abort => cases h

/-- An instruction without other effect goes on with another value in its result. -/
theorem Meaning.act_of_result? (M : Meaning V S) (regs : Reg → V) (s : S) {d : Reg} {next : Node}
    (h : i.result? = some (d, next)) :
    i.defs = [d] ∧ ∃ x, M.act i regs s = .go [] next (Function.update regs d x) s := by
  cases i with
  | op | load =>
      cases h
      exact ⟨rfl, _, rfl⟩
  | nop | store | call | tailcall | builtin | alloc | branch | jump | ret | abort => cases h

/-- The outcome with another next node. -/
def Response.mapNext (F : Node → Node) : Response V S → Response V S
  | .stop e => .stop e
  | .go events next regs s => .go events (F next) regs s

theorem Meaning.act_mapSuccessors (M : Meaning V S) (F : Node → Node) (i : Instr) (regs : Reg → V)
    (s : S) : M.act (i.mapSuccessors F) regs s = (M.act i regs s).mapNext F := by
  cases i with
  | branch test args ifSo ifNot =>
      simp only [Instr.mapSuccessors, Meaning.act, Response.mapNext]
      rw [apply_ite F]
  | jump r targets =>
      simp only [Instr.mapSuccessors, Meaning.act, List.getElem?_map]
      cases targets[M.index (regs r) s]? <;> rfl
  | _ => rfl

end Instructions

/-! ### Dead code -/

namespace Function

open Live

variable {M : Meaning V S} {f : Function} {regs regs₂ : Reg → V} {s : S} {node : Node}

/-- Without dead code the same happens in the same number of steps, from registers that agree where
they are live. -/
theorem exec_sweep (hkeys : (f.code.map Prod.fst).Nodup) (fuel : Nat)
    (hagree : ∀ r ∈ (Live.ofGraph f.code).before node, regs r = regs₂ r) :
    M.exec f.sweep.1.code fuel node regs₂ s = M.exec f.code fuel node regs s := by
  induction fuel generalizing node regs regs₂ s with
  | zero => rfl
  | succ fuel ih =>
      rw [Meaning.exec, Meaning.exec, lookup_sweep]
      cases hi : f.code.lookup node with
      | none => rfl
      | some i =>
          rw [before_of_round hkeys (round_ofGraph _) hi] at hagree
          -- what is live at the next node is set by the instruction or agreed before it
          have hout : ∀ {next}, next ∈ i.successors → ∀ r ∈ (Live.ofGraph f.code).before next,
              r ∈ i.defs ∨ regs r = regs₂ r := fun hnext r hr => by
            by_cases hdef : r ∈ i.defs
            · exact .inl hdef
            · exact .inr (hagree r (mem_through.mpr (.inl ⟨mem_after.mpr ⟨_, hnext, hr⟩, hdef⟩)))
          dsimp only [Option.map_some]
          rcases swept_eq_or (Live.ofGraph f.code) i with he | ⟨d, next, hresult, hdead, he⟩
          · rw [he]
            have hact := M.act_congr i s fun r hr => hagree r (mem_through.mpr (.inr hr))
            cases h : M.act i regs s with
            | stop e =>
                rw [h] at hact
                rw [show M.act i regs₂ s = .stop e from hact]
            | go events next regs' s' =>
                rw [h] at hact
                obtain ⟨regs₂', h₂, hsame⟩ := hact
                rw [h₂]
                dsimp only
                rw [ih fun r hr => hsame r (hout (Meaning.next_mem h) r hr)]
          · have hmem : next ∈ i.successors := Instr.successors_of_result? hresult ▸ .head _
            obtain ⟨hdefs, x, hact⟩ := M.act_of_result? regs s hresult
            rw [he, hact]
            dsimp only [Meaning.act]
            rw [ih fun r hr => ?_]
            have hne : r ≠ d := fun heq => hdead (heq ▸ mem_after.mpr ⟨next, hmem, hr⟩)
            rw [Function.update_of_ne hne]
            refine (hout hmem r hr).resolve_left fun hr => hne ?_
            rw [hdefs] at hr
            exact List.mem_singleton.mp hr

/-- Without all dead code the same happens in the same number of steps. -/
theorem exec_removeDead {ok : Instr → Prop} (hnop : ∀ s, ok (.nop s)) (hf : f.Sound ok) (fuel : Nat)
    (regs : Reg → V) (s : S) :
    M.exec f.removeDead.1.code fuel f.removeDead.1.entry regs s = M.exec f.code fuel f.entry regs s :=
  (removeDead_induction
    (P := fun g => g.Sound ok ∧ M.exec g.code fuel g.entry regs s = M.exec f.code fuel f.entry regs s)
    (fun _ hg => ⟨hg.1.sweep hnop, (exec_sweep hg.1.keys fuel fun _ _ => rfl).trans hg.2⟩)
    ⟨hf, rfl⟩).2

end Function

/-! ### Detours -/

namespace Graph

variable {M : Meaning V S} {g : Graph} {node last : Node} {path : List Node} {regs : Reg → V} {s : S}

/-- The jumps from the node go on for ever. -/
def Adrift (g : Graph) (node : Node) : Prop := ∀ path last, ¬ Detour g path node last

theorem Adrift.jump (h : Adrift g node) : ∃ next, g.lookup node = some (.nop next) ∧ Adrift g next := by
  cases hjump : g.jumpAt? node with
  | none => exact absurd (.done hjump) (h [] node)
  | some next =>
      refine ⟨next, ?_, fun path last hdetour => h _ _ (.jump hjump hdetour)⟩
      unfold jumpAt? at hjump
      split at hjump
      · rename_i hi
        cases hjump
        exact hi
      · cases hjump

/-- Where the jumps are followed to, they still go on for ever. -/
theorem Adrift.follow (h : Adrift g node) : Adrift g (g.follow node) := by
  refine followWith_mem (P := Adrift g) (fun n next hn hjump => ?_) _ _ h
  exact fun path last hdetour => hn _ _ (.jump hjump hdetour)

/-- Nothing happens along jumps that go on for ever. -/
theorem Adrift.exec (h : Adrift g node) (fuel : Nat) : M.exec g fuel node regs s = ([], none) := by
  induction fuel generalizing node with
  | zero => rfl
  | succ fuel ih =>
      obtain ⟨next, hi, hnext⟩ := h.jump
      rw [Meaning.exec, hi]
      dsimp only [Meaning.act]
      rw [ih hnext]
      rfl

theorem exec_jump {next : Node} (hjump : g.jumpAt? node = some next) (fuel : Nat) :
    M.exec g (fuel + 1) node regs s = M.exec g fuel next regs s := by
  unfold jumpAt? at hjump
  split at hjump
  · rename_i hi
    cases hjump
    rw [Meaning.exec, hi]
    rfl
  · cases hjump

theorem Detour.exec (h : Detour g path node last) (fuel : Nat) :
    M.exec g (path.length + fuel) node regs s = M.exec g fuel last regs s := by
  induction h with
  | done => rw [List.length_nil, Nat.zero_add]
  | jump hjump _ ih => rw [List.length_cons, Nat.add_right_comm, exec_jump hjump, ih]

theorem Detour.jumpAt?_last (h : Detour g path node last) : g.jumpAt? last = none := by
  induction h with
  | done hlast => exact hlast
  | jump _ _ ih => exact ih

end Graph

namespace Function

open Rtl.Graph

variable {M : Meaning V S} {f : Function} {regs : Reg → V} {s : S} {node : Node}

/-- Nothing happens there with detours cut short either. -/
theorem exec_shortcut_of_adrift (h : Adrift f.code node) (fuel : Nat) :
    M.exec f.shortcut fuel node regs s = ([], none) := by
  induction fuel generalizing node with
  | zero => rfl
  | succ fuel ih =>
      obtain ⟨next, hi, hnext⟩ := h.jump
      rw [Meaning.exec, lookup_shortcut, hi]
      dsimp only [Option.map_some, Instr.mapSuccessors, Meaning.act]
      rw [ih hnext.follow]
      rfl

/-- At a node where no jump stands, both runs come to the same end or have the same effects; the one
with detours cut short goes on where the jumps from the next node lead. -/
theorem exec_shortcut_succ (M : Meaning V S) (f : Function) (node : Node) (regs : Reg → V) (s : S) :
    (∃ r, ∀ fuel, M.exec f.code (fuel + 1) node regs s = r ∧
      M.exec f.shortcut (fuel + 1) node regs s = r) ∨
    ∃ (events : List (Event V)) (next : Node) (regs' : Reg → V) (s' : S), ∀ fuel,
      M.exec f.code (fuel + 1) node regs s =
        (M.exec f.code fuel next regs' s').map (events ++ ·) id ∧
      M.exec f.shortcut (fuel + 1) node regs s =
        (M.exec f.shortcut fuel (f.code.follow next) regs' s').map (events ++ ·) id := by
  simp only [Meaning.exec, lookup_shortcut]
  cases f.code.lookup node with
  | none => exact .inl ⟨_, fun _ => ⟨rfl, rfl⟩⟩
  | some i =>
      simp only [Option.map_some, Meaning.act_mapSuccessors]
      cases M.act i regs s with
      | stop e => exact .inl ⟨_, fun _ => ⟨rfl, rfl⟩⟩
      | go events next regs' s' => exact .inr ⟨events, next, regs', s', fun _ => ⟨rfl, rfl⟩⟩

theorem exists_exec_shortcut (fuel : Nat) (node : Node) (regs : Reg → V) (s : S) :
    ∃ fuel', M.exec f.shortcut fuel' (f.code.follow node) regs s = M.exec f.code fuel node regs s := by
  induction fuel generalizing node regs s with
  | zero => exact ⟨0, rfl⟩
  | succ fuel ih =>
      by_cases hadrift : Adrift f.code node
      · exact ⟨0, (hadrift.exec _).symm⟩
      · obtain ⟨path, last, hdetour⟩ : ∃ path last, Detour f.code path node last := by
          simpa [Adrift] using hadrift
        rw [hdetour.follow]
        cases hdetour with
        | done hlast =>
            rcases exec_shortcut_succ M f node regs s with ⟨r, hr⟩ | ⟨events, next, regs', s', hgo⟩
            · exact ⟨1, (hr 0).2.trans (hr fuel).1.symm⟩
            · obtain ⟨fuel', hrest⟩ := ih next regs' s'
              exact ⟨fuel' + 1, by rw [(hgo fuel').2, (hgo fuel).1, hrest]⟩
        | @jump _ _ next _ hjump hrest =>
            obtain ⟨fuel', hnext⟩ := ih next regs s
            refine ⟨fuel', ?_⟩
            rw [exec_jump hjump, ← hnext, hrest.follow]

/-- A run with detours cut short is matched by one that takes them. -/
theorem exists_exec_of_shortcut (fuel : Nat) (node : Node) (regs : Reg → V) (s : S) :
    ∃ fuel', M.exec f.code fuel' node regs s = M.exec f.shortcut fuel (f.code.follow node) regs s := by
  induction fuel generalizing node regs s with
  | zero => exact ⟨0, rfl⟩
  | succ fuel ih =>
      by_cases hadrift : Adrift f.code node
      · exact ⟨0, (exec_shortcut_of_adrift hadrift.follow _).symm⟩
      · obtain ⟨path, last, hdetour⟩ : ∃ path last, Detour f.code path node last := by
          simpa [Adrift] using hadrift
        rw [hdetour.follow]
        suffices hlast : ∃ fuel', M.exec f.code fuel' last regs s =
            M.exec f.shortcut (fuel + 1) last regs s by
          obtain ⟨fuel', hfuel⟩ := hlast
          exact ⟨path.length + fuel', (hdetour.exec fuel').trans hfuel⟩
        rcases exec_shortcut_succ M f last regs s with ⟨r, hr⟩ | ⟨events, next, regs', s', hgo⟩
        · exact ⟨1, (hr 0).1.trans (hr fuel).2.symm⟩
        · obtain ⟨fuel', hrest⟩ := ih next regs' s'
          exact ⟨fuel' + 1, by rw [(hgo fuel').1, (hgo fuel).2, hrest]⟩

/-- A run inside a set of nodes that it cannot leave needs nothing else. -/
theorem exec_filter {g : Graph} {P : Node → Bool}
    (hP : ∀ {node i}, P node = true → g.lookup node = some i → ∀ s ∈ i.successors, P s = true)
    (fuel : Nat) {node : Node} (hnode : P node = true) (regs : Reg → V) (s : S) :
    M.exec (g.filter fun q => P q.1) fuel node regs s = M.exec g fuel node regs s := by
  induction fuel generalizing node regs s with
  | zero => rfl
  | succ fuel ih =>
      rw [Meaning.exec, Meaning.exec, lookup_filter_key hnode]
      cases hi : g.lookup node with
      | none => rfl
      | some i =>
          dsimp only
          cases hact : M.act i regs s with
          | stop e => rfl
          | go events next regs' s' =>
              dsimp only
              rw [ih (hP hnode hi _ (Meaning.next_mem hact))]

theorem exec_tunnel {ok : Instr → Prop} (hf : f.Sound ok) (fuel : Nat) (regs : Reg → V) (s : S) :
    M.exec f.tunnel.code fuel f.tunnel.entry regs s =
      M.exec f.shortcut fuel (f.code.follow f.entry) regs s := by
  have hne : f.code ≠ [] := by
    intro hnil
    have := hf.entry
    rw [hnil] at this
    cases this
  obtain ⟨hentry, hcode⟩ := code_tunnel hne
  have hplaced : (f.shortcut.lookup (f.code.follow f.entry)).isSome := by
    rw [lookup_shortcut, Option.isSome_map]
    exact hf.isSome_follow hf.entry
  obtain ⟨hroot, hstep⟩ := Graph.reachable_closed hf.shortcut_closed hplaced
  rw [hentry, hcode]
  refine exec_filter (P := fun m => decide (m ∈ f.shortcut.reachable (f.code.follow f.entry)))
    (fun hm hi succ hsucc => ?_) fuel (decide_eq_true hroot) regs s
  exact decide_eq_true (hstep _ (of_decide_eq_true hm) _ hi succ hsucc)

end Function

/-! ### What a function does -/

namespace Meaning

variable {M : Meaning V S} {f g : Function} {regs : Reg → V} {s : S} {events : List (Event V)}
  {e : Ending V}

/-- Every run of one function is matched by one of another. -/
def Matched (M : Meaning V S) (f g : Function) (regs : Reg → V) (s : S) : Prop :=
  ∀ fuel, ∃ fuel', M.exec g.code fuel' g.entry regs s = M.exec f.code fuel f.entry regs s

theorem Matched.does (h : M.Matched f g regs s) (hdoes : M.Does f regs s events) :
    M.Does g regs s events := by
  obtain ⟨fuel, hpre⟩ := hdoes
  obtain ⟨fuel', heq⟩ := h fuel
  exact ⟨fuel', heq ▸ hpre⟩

theorem Matched.endsWith (h : M.Matched f g regs s) (hends : M.EndsWith f regs s events e) :
    M.EndsWith g regs s events e := by
  obtain ⟨fuel, hend⟩ := hends
  obtain ⟨fuel', heq⟩ := h fuel
  exact ⟨fuel', heq.trans hend⟩

end Meaning

/-- Under every meaning of its instructions, a function does the same and ends in the same way once
its dead code is removed and its detours are cut short. -/
theorem Function.tunnel_removeDead_does {f : Function} (hf : f.Sound fun _ => True)
    (M : Meaning V S) (args : Nat → V) (rest : Reg → V) (s : S) (events : List (Event V)) :
    let g := f.removeDead.1.tunnel
    (M.Does g (g.opened args rest) s events ↔ M.Does f (f.opened args rest) s events) ∧
      ∀ e, M.EndsWith g (g.opened args rest) s events e ↔
        M.EndsWith f (f.opened args rest) s events e := by
  intro g
  have hdead : f.removeDead.1.Sound fun _ => True := hf.removeDead fun _ => trivial
  have hparams : g.opened args rest = f.opened args rest := by
    unfold Function.opened
    rw [(f.like_removeDead.trans f.removeDead.1.like_tunnel).params]
  rw [hparams]
  generalize f.opened args rest = regs
  have hto : M.Matched f g regs s := by
    intro fuel
    obtain ⟨fuel', hfuel⟩ := exists_exec_shortcut (M := M) (f := f.removeDead.1) fuel
      f.removeDead.1.entry regs s
    exact ⟨fuel', (exec_tunnel hdead fuel' regs s).trans
      (hfuel.trans (exec_removeDead (fun _ => trivial) hf fuel regs s))⟩
  have hfrom : M.Matched g f regs s := by
    intro fuel
    obtain ⟨fuel', hfuel⟩ := exists_exec_of_shortcut (M := M) (f := f.removeDead.1) fuel
      f.removeDead.1.entry regs s
    exact ⟨fuel', (exec_removeDead (fun _ => trivial) hf fuel' regs s).symm.trans
      (hfuel.trans (exec_tunnel hdead fuel regs s).symm)⟩
  exact ⟨⟨hfrom.does, hto.does⟩, fun e => ⟨hfrom.endsWith, hto.endsWith⟩⟩

/-- Prints a number and all below it down to one; it has a constant that nothing reads and jumps on
its way round. -/
def countdown : Function where
  name := "countdown"
  params := [1]
  results := 1
  entry := 1
  exported := true
  code := [
    (1, .nop 2),
    (2, .op (.const 7) [] 9 3),
    (3, .branch (.const .ne 0) [1] 4 7),
    (4, .builtin "printWord" [1] none 5),
    (5, .op (.addConst (-1)) [1] 1 6),
    (6, .nop 1),
    (7, .ret [1])]

/-- Whole numbers as values, with a machine that has no state. -/
def counting : Meaning Int Unit where
  op o args _ :=
    match o, args with
    | .const k, _ => k
    | .addConst k, [x] => x + k
    | _, _ => 0
  load _ _ _ _ := 0
  store _ _ _ _ s := s
  alloc _ s := (0, s)
  builtin _ _ s := (0, s)
  call _ _ _ s := (fun _ => 0, s)
  test t args _ :=
    match t, args with
    | .const c k, [x] => c.holds x k
    | _, _ => false
  index x _ := x.toNat

theorem sound_countdown : countdown.Sound fun _ => True where
  keys := by decide
  entry := by decide
  closed {n i} h s hs := by
    have hall : ∀ q ∈ countdown.code, ∀ s ∈ q.2.successors, (countdown.code.lookup s).isSome := by
      decide
    exact hall (n, i) h s hs
  ok _ := trivial

/-- Without its dead constant and its jumps the countdown from two still prints two numbers and
returns zero. -/
theorem countdown_does : countdown.Sound (fun _ => True) ∧
    counting.EndsWith countdown.removeDead.1.tunnel
      (countdown.removeDead.1.tunnel.opened (fun _ => 2) fun _ => 0) ()
      [.builtin "printWord" [2], .builtin "printWord" [1]] (.ret [0]) :=
  ⟨sound_countdown, ((Function.tunnel_removeDead_does sound_countdown counting (fun _ => 2)
    (fun _ => 0) () _).2 _).mpr ⟨20, rfl⟩⟩

end Mil.Rtl
