import Mil.Proofs.Rtl.Liveness
import Mil.Proofs.Rtl.Semantics

/-!
Removing dead code and cutting short detours keeps what a function comes to, whatever its calls do.

Without dead code, a run goes through the same nodes, and its registers agree with those of the run
before wherever they are live. With detours cut short, a run goes from each instruction that is not a
jump to the next such one: the jumps between them lead there since the run before went through them,
so they form no cycle.
-/

namespace Mil.Rtl

variable {n : Nat} {call : String → List (Val n) → State n → List (Val n) → State n → Prop}

/-! ### Steps -/

section Steps

variable {regs regs' regs₂ : Regs n} {s s' : State n} {i : Instr} {next : Node}

theorem Regs.getAll_congr {rs : List Reg} (h : ∀ r ∈ rs, regs r = regs₂ r) :
    regs.getAll rs = regs₂.getAll rs := by
  unfold Regs.getAll
  induction rs with
  | nil => rfl
  | cons r rs ih =>
      rw [List.mapM_cons, List.mapM_cons, h r (.head _), ih fun r hr => h r (.tail _ hr)]

theorem Callee.name?_congr {fn : Callee} (h : ∀ r ∈ fn.regs, regs r = regs₂ r) :
    fn.name? regs = fn.name? regs₂ := by
  cases fn with
  | symbol name => rfl
  | reg r =>
      unfold Callee.name?
      dsimp only
      rw [h r (.head _)]

/-- Registers that get the same values agree where they did and where they were set. -/
theorem Regs.assign_congr {ds : List Reg} {xs : List (Val n)} (hlen : xs.length = ds.length) {r : Reg}
    (h : r ∈ ds ∨ regs r = regs₂ r) : regs.assign ds xs r = regs₂.assign ds xs r := by
  induction ds generalizing regs regs₂ xs with
  | nil => exact h.resolve_left List.not_mem_nil
  | cons d ds ih =>
      cases xs with
      | nil => cases hlen
      | cons x xs =>
          refine ih (Nat.succ.inj hlen) ?_
          unfold Regs.set
          by_cases hd : r = d
          · rw [if_pos hd, if_pos hd]
            exact .inr rfl
          · rw [if_neg hd, if_neg hd]
            exact h.imp_left fun hr => (List.mem_cons.mp hr).resolve_left hd

theorem Regs.set_congr {d r : Reg} {x : Val n} (h : r ∈ [d] ∨ regs r = regs₂ r) :
    regs.set d x r = regs₂.set d x r := by
  have hassign := Regs.assign_congr (show [x].length = [d].length from rfl) h
  exact hassign

/-- A step reads only what its instruction uses and writes only what it defines. -/
theorem Step.congr (h : Step i regs s next regs' s') (huses : ∀ r ∈ i.uses, regs r = regs₂ r) :
    ∃ regs₂', Step i regs₂ s next regs₂' s' ∧
      ∀ r, (r ∈ i.defs ∨ regs r = regs₂ r) → regs' r = regs₂' r := by
  have hsame : ∀ r, (r ∈ [] ∨ regs r = regs₂ r) → regs r = regs₂ r :=
    fun r hr => hr.resolve_left List.not_mem_nil
  cases h with
  | nop => exact ⟨regs₂, .nop, hsame⟩
  | op hargs hx =>
      exact ⟨_, .op ((Regs.getAll_congr huses).symm.trans hargs) hx, fun r hr => Regs.set_congr hr⟩
  | load hargs hslot hx =>
      exact ⟨_, .load ((Regs.getAll_congr huses).symm.trans hargs) hslot hx,
        fun r hr => Regs.set_congr hr⟩
  | store hargs hslot hsrc hs' =>
      have hargs' := Regs.getAll_congr fun r hr => huses r (List.mem_append_left _ hr)
      have hsrc' := huses _ (List.mem_append_right _ (.head _))
      exact ⟨regs₂, .store (hargs'.symm.trans hargs) hslot (hsrc'.symm.trans hsrc) hs', hsame⟩
  | print hargs => exact ⟨regs₂, .print ((Regs.getAll_congr huses).symm.trans hargs), hsame⟩
  | alloc => exact ⟨_, .alloc, fun r hr => Regs.set_congr hr⟩
  | branch hargs hb =>
      exact ⟨regs₂, .branch ((Regs.getAll_congr huses).symm.trans hargs) hb, hsame⟩
  | jump hr ht => exact ⟨regs₂, .jump ((huses _ (.head _)).symm.trans hr) ht, hsame⟩

theorem Step.next_mem (h : Step i regs s next regs' s') : next ∈ i.successors := by
  cases h with
  | nop | op | load | store | print | alloc => exact .head _
  | @branch _ _ _ _ _ _ _ b =>
      cases b with
      | true => exact .head _
      | false => exact .tail _ (.head _)
  | jump _ ht => exact List.mem_of_getElem? ht

/-- An instruction without other effect sets its result. -/
theorem Step.result (h : Step i regs s next regs' s') {d : Reg} {succ : Node}
    (hresult : i.result? = some (d, succ)) :
    next = succ ∧ s' = s ∧ i.defs = [d] ∧ ∀ r, r ≠ d → regs' r = regs r := by
  cases h with
  | op | load =>
      cases hresult
      exact ⟨rfl, rfl, rfl, fun r hr => if_neg hr⟩
  | nop | store | print | alloc | branch | jump => cases hresult

theorem Step.mapSuccessors (h : Step i regs s next regs' s') (f : Node → Node) :
    Step (i.mapSuccessors f) regs s (f next) regs' s' := by
  cases h with
  | nop => exact .nop
  | op hargs hx => exact .op hargs hx
  | load hargs hslot hx => exact .load hargs hslot hx
  | store hargs hslot hsrc hs' => exact .store hargs hslot hsrc hs'
  | print hargs => exact .print hargs
  | alloc => exact .alloc
  | branch hargs hb =>
      rw [apply_ite f]
      exact .branch hargs hb
  | jump hr ht =>
      refine .jump hr ?_
      rw [List.getElem?_map, ht]
      rfl

end Steps

/-! ### Dead code -/

namespace Function

open Live

variable {f : Function}

theorem lookup_sweep (f : Function) (node : Node) :
    f.sweep.1.code.lookup node = (f.code.lookup node).map (swept (Live.ofGraph f.code)) := by
  rw [code_sweep]
  exact lookup_map_snd _ node

/-- What a function comes to, it comes to without dead code from registers that agree where they are
live. -/
theorem body_sweep (hkeys : (f.code.map Prod.fst).Nodup) {node : Node} {regs regs₂ : Regs n}
    {s s' : State n} {vals : List (Val n)} (h : Body call f.code node regs s vals s')
    (hagree : ∀ r ∈ (Live.ofGraph f.code).before node, regs r = regs₂ r) :
    Body call f.sweep.1.code node regs₂ s vals s' := by
  have hswept : ∀ {node i}, f.code.lookup node = some i →
      f.sweep.1.code.lookup node = some (swept (Live.ofGraph f.code) i) := fun hi => by
    rw [lookup_sweep, hi]
    rfl
  have hbefore : ∀ {node i}, f.code.lookup node = some i →
      (Live.ofGraph f.code).before node = through i ((Live.ofGraph f.code).after i) :=
    fun hi => before_of_round hkeys (round_ofGraph _) hi
  induction h generalizing regs₂ with
  | ret hi hvals =>
      rw [hbefore hi] at hagree
      have hargs := Regs.getAll_congr fun r hr => hagree r (mem_through.mpr (.inr hr))
      exact .ret (hswept hi) (hargs.symm.trans hvals)
  | @step node next regs regs' s s' s'' i vals hi hstep _ ih =>
      rw [hbefore hi] at hagree
      have hnext := hstep.next_mem
      have hafter : ∀ r ∈ (Live.ofGraph f.code).before next, r ∈ (Live.ofGraph f.code).after i :=
        fun r hr => mem_after.mpr ⟨next, hnext, hr⟩
      have hout : ∀ r ∈ (Live.ofGraph f.code).after i, r ∈ i.defs ∨ regs r = regs₂ r := fun r hr => by
        by_cases hdef : r ∈ i.defs
        · exact .inl hdef
        · exact .inr (hagree r (mem_through.mpr (.inl ⟨hr, hdef⟩)))
      have hi := hswept hi
      rcases swept_eq_or (Live.ofGraph f.code) i with he | ⟨d, succ, hresult, hdead, he⟩
      · rw [he] at hi
        obtain ⟨regs₂', hstep', hsame⟩ :=
          hstep.congr fun r hr => hagree r (mem_through.mpr (.inr hr))
        exact .step hi hstep' (ih fun r hr => hsame r (hout r (hafter r hr)))
      · rw [he] at hi
        obtain ⟨rfl, rfl, hdefs, hkept⟩ := hstep.result hresult
        refine .step hi .nop (ih fun r hr => ?_)
        have hne : r ≠ d := fun he => hdead (he ▸ hafter r hr)
        rw [hkept r hne]
        refine (hout r (hafter r hr)).resolve_left fun hr => hne ?_
        rw [hdefs] at hr
        exact List.mem_singleton.mp hr
  | tailcall hi hname havs hcall =>
      rw [hbefore hi] at hagree
      have hargs := Regs.getAll_congr fun r hr =>
        hagree r (mem_through.mpr (.inr (List.mem_append_left _ hr)))
      have hfn := Callee.name?_congr fun r hr =>
        hagree r (mem_through.mpr (.inr (List.mem_append_right _ hr)))
      exact .tailcall (hswept hi) (hfn.symm.trans hname) (hargs.symm.trans havs) hcall
  | @call node next regs s s' s'' fn args dests name avs rvs vals hi hname havs hcall hlen _ ih =>
      rw [hbefore hi] at hagree
      have hargs := Regs.getAll_congr fun r hr =>
        hagree r (mem_through.mpr (.inr (List.mem_append_left _ hr)))
      have hfn := Callee.name?_congr fun r hr =>
        hagree r (mem_through.mpr (.inr (List.mem_append_right _ hr)))
      refine .call (hswept hi) (hfn.symm.trans hname) (hargs.symm.trans havs) hcall hlen
        (ih fun r hr => Regs.assign_congr hlen ?_)
      by_cases hdef : r ∈ dests
      · exact .inl hdef
      · exact .inr (hagree r (mem_through.mpr (.inl ⟨mem_after.mpr ⟨next, .head _, hr⟩, hdef⟩)))

/-- What a function comes to, it comes to without dead code. -/
theorem body_removeDead {ok : Instr → Prop} (hnop : ∀ s, ok (.nop s)) (hf : f.Sound ok)
    {regs : Regs n} {s s' : State n} {vals : List (Val n)}
    (h : Body call f.code f.entry regs s vals s') :
    Body call f.removeDead.1.code f.removeDead.1.entry regs s vals s' :=
  (removeDead_induction (P := fun g => g.Sound ok ∧ Body call g.code g.entry regs s vals s')
    (fun _ hg => ⟨hg.1.sweep hnop, body_sweep hg.1.keys hg.2 fun _ _ => rfl⟩) ⟨hf, h⟩).2

end Function

/-! ### Detours -/

namespace Graph

variable {g : Graph} {node next last : Node} {path path' : List Node}

/-- The jumps along a path lead to an instruction that is no jump. -/
inductive Detour (g : Graph) : List Node → Node → Node → Prop
  | done {last : Node} (hlast : g.jumpAt? last = none) : Detour g [] last last
  | jump {path : List Node} {node next last : Node} (hjump : g.jumpAt? node = some next)
      (hrest : Detour g path next last) : Detour g (node :: path) node last

theorem Detour.unique (h : Detour g path node last) {last' : Node} (h' : Detour g path' node last') :
    path = path' := by
  induction h generalizing path' last' with
  | done hlast =>
      cases h' with
      | done => rfl
      | jump hjump => cases hlast.symm.trans hjump
  | jump hjump _ ih =>
      cases h' with
      | done hlast => cases hlast.symm.trans hjump
      | jump hjump' hrest =>
          cases hjump.symm.trans hjump'
          rw [ih hrest]

/-- From each node of a path, the rest of it leads to the same end. -/
theorem Detour.from_mem (h : Detour g path node last) {m : Node} (hm : m ∈ path) :
    ∃ path', Detour g path' m last ∧ path'.length ≤ path.length := by
  induction h with
  | done => cases hm
  | jump hjump hrest ih =>
      rcases List.mem_cons.mp hm with rfl | hm
      · exact ⟨_, .jump hjump hrest, Nat.le_refl _⟩
      · obtain ⟨path', h', hlen⟩ := ih hm
        exact ⟨path', h', Nat.le_succ_of_le hlen⟩

theorem Detour.nodup (h : Detour g path node last) : path.Nodup := by
  induction h with
  | done => exact .nil
  | jump hjump hrest ih =>
      refine List.nodup_cons.mpr ⟨fun hmem => ?_, ih⟩
      obtain ⟨path', h', hlen⟩ := hrest.from_mem hmem
      rw [h'.unique (.jump hjump hrest), List.length_cons] at hlen
      exact absurd hlen (Nat.not_succ_le_self _)

theorem Detour.subset (h : Detour g path node last) : path ⊆ g.map Prod.fst := by
  induction h with
  | done => exact List.nil_subset _
  | @jump _ node next _ hjump _ ih =>
      refine List.cons_subset.mpr ⟨?_, ih⟩
      unfold jumpAt? at hjump
      split at hjump
      · rename_i hi
        exact lookup_isSome_iff_mem.mp (Option.isSome_iff_exists.mpr ⟨_, hi⟩)
      · cases hjump

theorem Detour.followWith (h : Detour g path node last) {fuel : Nat} (hfuel : path.length ≤ fuel)
    {met : List Node} (hmet : ∀ m ∈ path, m ∉ met) : g.followWith fuel met node = last := by
  have hnodup := h.nodup
  induction h generalizing fuel met with
  | done hlast =>
      cases fuel with
      | zero => rfl
      | succ fuel =>
          unfold Graph.followWith
          rw [hlast]
          split <;> rfl
  | jump hjump _ ih =>
      obtain ⟨hnot, hnodup⟩ := List.nodup_cons.mp hnodup
      cases fuel with
      | zero => cases hfuel
      | succ fuel =>
          unfold Graph.followWith
          rw [if_neg (hmet _ (.head _)), hjump]
          refine ih (Nat.le_of_succ_le_succ hfuel) (fun m hm hmem => ?_) hnodup
          rcases List.mem_cons.mp hmem with rfl | hmem
          · exact hnot hm
          · exact hmet m (.tail _ hm) hmem

/-- A path without cycle is followed to its end. -/
theorem Detour.follow (h : Detour g path node last) : g.follow node = last := by
  refine h.followWith ?_ fun _ _ => List.not_mem_nil
  have hle := h.nodup.length_le_of_subset h.subset
  rw [List.length_map] at hle
  omega

end Graph

namespace Function

open Rtl.Graph

variable {f : Function}

theorem jumpAt?_eq_none {g : Graph} {node : Node} {i : Instr} (hi : g.lookup node = some i)
    (hjump : ∀ s, i ≠ .nop s) : g.jumpAt? node = none := by
  unfold Graph.jumpAt?
  rw [hi]
  split
  · rename_i heq
    exact absurd (Option.some.inj heq) (hjump _)
  · rfl

/-- A run goes on where the jumps from its node lead. -/
theorem body_shortcut {node : Node} {regs : Regs n} {s s' : State n} {vals : List (Val n)}
    (h : Body call f.code node regs s vals s') : ∃ path last, Detour f.code path node last ∧
      Body call f.shortcut last regs s vals s' := by
  have hshort : ∀ {node i}, f.code.lookup node = some i →
      f.shortcut.lookup node = some (i.mapSuccessors f.code.follow) := fun hi => by
    rw [lookup_shortcut, hi]
    rfl
  induction h with
  | @ret node _ _ _ _ hi hvals =>
      exact ⟨[], node, .done (jumpAt?_eq_none hi nofun), .ret (hshort hi) hvals⟩
  | @step node next _ _ _ _ _ i _ hi hstep _ ih =>
      obtain ⟨path, last, hdetour, hbody⟩ := ih
      by_cases hnop : ∃ succ, i = .nop succ
      · obtain ⟨succ, rfl⟩ := hnop
        cases hstep
        refine ⟨node :: path, last, .jump ?_ hdetour, hbody⟩
        unfold Graph.jumpAt?
        rw [hi]
      · refine ⟨[], node, .done (jumpAt?_eq_none hi fun succ he => hnop ⟨succ, he⟩),
          .step (hshort hi) (hstep.mapSuccessors _) ?_⟩
        rw [hdetour.follow]
        exact hbody
  | @tailcall node _ _ _ _ _ _ _ _ hi hname havs hcall =>
      exact ⟨[], node, .done (jumpAt?_eq_none hi nofun), .tailcall (hshort hi) hname havs hcall⟩
  | @call node _ _ _ _ _ _ _ _ _ _ _ _ hi hname havs hcall hlen _ ih =>
      obtain ⟨path, last, hdetour, hbody⟩ := ih
      refine ⟨[], node, .done (jumpAt?_eq_none hi nofun), .call (hshort hi) hname havs hcall hlen ?_⟩
      rw [hdetour.follow]
      exact hbody

theorem lookup_filter_key {g : Graph} {P : Node → Bool} {node : Node} (hP : P node = true) :
    (g.filter fun q => P q.1).lookup node = g.lookup node := by
  induction g with
  | nil => rfl
  | cons q g ih =>
      obtain ⟨k, i⟩ := q
      rw [List.filter_cons]
      dsimp only
      by_cases hk : node = k
      · rw [if_pos (hk ▸ hP), lookup_cons_ite, lookup_cons_ite, if_pos hk, if_pos hk]
      · split
        · rw [lookup_cons_ite, lookup_cons_ite, if_neg hk, if_neg hk, ih]
        · rw [lookup_cons_ite, if_neg hk, ih]

/-- A run inside a set that it cannot leave needs nothing else. -/
theorem body_filter {g : Graph} {P : Node → Bool}
    (hP : ∀ {node i}, P node = true → g.lookup node = some i → ∀ s ∈ i.successors, P s = true)
    {node : Node} {regs : Regs n} {s s' : State n} {vals : List (Val n)}
    (h : Body call g node regs s vals s') (hnode : P node = true) :
    Body call (g.filter fun q => P q.1) node regs s vals s' := by
  induction h with
  | ret hi hvals => exact .ret ((lookup_filter_key hnode).trans hi) hvals
  | step hi hstep _ ih =>
      exact .step ((lookup_filter_key hnode).trans hi) hstep
        (ih (hP hnode hi _ (hstep.next_mem)))
  | tailcall hi hname havs hcall =>
      exact .tailcall ((lookup_filter_key hnode).trans hi) hname havs hcall
  | call hi hname havs hcall hlen _ ih =>
      exact .call ((lookup_filter_key hnode).trans hi) hname havs hcall hlen
        (ih (hP hnode hi _ (.head _)))

/-- What a function comes to, it comes to with its detours cut short. -/
theorem body_tunnel {ok : Instr → Prop} (hf : f.Sound ok) {regs : Regs n} {s s' : State n}
    {vals : List (Val n)} (h : Body call f.code f.entry regs s vals s') :
    Body call f.tunnel.code f.tunnel.entry regs s vals s' := by
  have hne : f.code ≠ [] := by
    intro hnil
    have := hf.entry
    rw [hnil] at this
    cases this
  obtain ⟨hentry, hcode⟩ := code_tunnel hne
  have hplaced : (f.shortcut.lookup (f.code.follow f.entry)).isSome := by
    rw [lookup_shortcut, Option.isSome_map]
    exact hf.isSome_follow hf.entry
  obtain ⟨hroot, hstep⟩ := Graph.reachable_closed hf.shortcut_closed hplaced
  obtain ⟨path, last, hdetour, hbody⟩ := body_shortcut h
  rw [hentry, hcode]
  rw [← hdetour.follow] at hbody
  refine body_filter (P := fun m => decide (m ∈ f.shortcut.reachable (f.code.follow f.entry)))
    (fun hm hi succ hsucc => ?_) hbody (decide_eq_true hroot)
  exact decide_eq_true (hstep _ (of_decide_eq_true hm) _ hi succ hsucc)

end Function

end Mil.Rtl
