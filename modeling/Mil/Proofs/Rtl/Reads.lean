import Mil.Proofs.Rtl.Passes

/-!
Which registers a function reads without having written them. A register is read from a node on if
some path from there comes to an instruction that reads it before one that writes it. These are the
registers that are live before the node: the sets of live registers hold no others, since a pass
through the graph only adds what is read.

A function writes first what it reads if no path from its entry reads a register that was not written
and is no parameter. Neither the removal of dead code nor that of detours makes a function read more:
a write that is removed has no reader, and jumps neither read nor write.
-/

namespace Mil.Rtl

namespace Graph

/-- Some path from a node reads a register before it writes it. -/
inductive Reads (g : Graph) (r : Reg) : Node → Prop
  | here {n i} (hi : g.lookup n = some i) (huse : r ∈ i.uses) : Reads g r n
  | later {n s i} (hi : g.lookup n = some i) (hdef : r ∉ i.defs) (hs : s ∈ i.successors)
      (hreads : Reads g r s) : Reads g r n

/-- A path from one node to another, with the instructions that it passes. -/
inductive Path (g : Graph) : Node → List Instr → Node → Prop
  | done {n} : Path g n [] n
  | step {n s m i is} (hi : g.lookup n = some i) (hs : s ∈ i.successors) (hpath : Path g s is m) :
      Path g n (i :: is) m

variable {g : Graph} {r : Reg} {n : Node}

/-- A register is read from a node on if a path leads to a reader and passes no writer. -/
theorem reads_iff_path : g.Reads r n ↔ ∃ is m i, g.Path n is m ∧ g.lookup m = some i ∧ r ∈ i.uses ∧
    ∀ j ∈ is, r ∉ j.defs := by
  constructor
  · intro h
    induction h with
    | here hi huse => exact ⟨[], _, _, .done, hi, huse, nofun⟩
    | later hi hdef hs _ ih =>
        obtain ⟨is, m, j, hpath, hj, huse, hdefs⟩ := ih
        exact ⟨_, m, j, .step hi hs hpath, hj, huse, List.forall_mem_cons.mpr ⟨hdef, hdefs⟩⟩
  · rintro ⟨is, m, i, hpath, hi, huse, hdefs⟩
    induction hpath with
    | done => exact .here hi huse
    | step hj hs _ ih =>
        obtain ⟨hdef, hdefs⟩ := List.forall_mem_cons.mp hdefs
        exact .later hj hdef hs (ih hi hdefs)

end Graph

/-! ### Live registers are read -/

namespace Live

variable {g : Graph} {live : Live} {i : Instr} {r : Reg} {n : Node}

/-- Every register of the sets is read from its node on. -/
def Founded (g : Graph) (live : Live) : Prop := ∀ q ∈ live, ∀ r ∈ q.2, g.Reads r q.1

theorem Founded.before (h : Founded g live) (hr : r ∈ live.before n) : g.Reads r n := by
  unfold Live.before at hr
  cases hs : live.lookup n with
  | none =>
      rw [hs] at hr
      cases hr
  | some s =>
      rw [hs] at hr
      exact h _ (mem_of_lookup hs) r hr

theorem Founded.append {live' : Live} (h : Founded g live) (h' : Founded g live') :
    Founded g (live ++ live') :=
  fun q hq => (List.mem_append.mp hq).elim (h q) (h' q)

/-- A pass finds only what is read. -/
theorem Founded.round (h : Founded g live) {rest : Graph} (hrest : ∀ q ∈ rest, g.lookup q.1 = some q.2) :
    Founded g (round live rest) := by
  induction rest with
  | nil => exact nofun
  | cons q rest ih =>
      obtain ⟨n, i⟩ := q
      obtain ⟨hi, hrest⟩ := List.forall_mem_cons.mp hrest
      have hfound := ih hrest
      refine List.forall_mem_cons.mpr ⟨fun r hr => ?_, hfound⟩
      rcases mem_through.mp hr with ⟨hafter, hdef⟩ | huse
      · obtain ⟨s, hs, hr⟩ := mem_after.mp hafter
        exact .later hi hdef hs ((hfound.append h).before hr)
      · exact .here hi huse

theorem Founded.close (h : Founded g live) (hkeys : (g.map Prod.fst).Nodup) (fuel : Nat) :
    Founded g (close g fuel live) := by
  induction fuel generalizing live with
  | zero => exact h
  | succ fuel ih =>
      unfold Live.close
      dsimp only
      split
      · exact h
      · exact ih (h.round fun q hq => lookup_of_mem hkeys hq)

/-- The live registers before a node are those that are read from it on. -/
theorem mem_before_ofGraph (hkeys : (g.map Prod.fst).Nodup) :
    r ∈ (ofGraph g).before n ↔ g.Reads r n := by
  constructor
  · refine Founded.before (Founded.close (fun q hq r hr => ?_) hkeys _)
    obtain ⟨_, -, rfl⟩ := List.mem_map.mp hq
    cases hr
  · intro h
    induction h with
    | here hi huse =>
        rw [before_of_round hkeys (round_ofGraph g) hi]
        exact mem_through.mpr (.inr huse)
    | later hi hdef hs _ ih =>
        rw [before_of_round hkeys (round_ofGraph g) hi]
        exact mem_through.mpr (.inl ⟨mem_after.mpr ⟨_, hs, ih⟩, hdef⟩)

/-- The search for live registers comes to an end, since one more pass changes nothing, and what it finds
is exact. A register is live after an instruction if a path from a successor comes to an instruction that
reads it and passes none that writes it; it is live before one that reads it, and if it is live after the
instruction and not written there. -/
theorem ofGraph_exact (hkeys : (g.map Prod.fst).Nodup) :
    Live.round (ofGraph g) g = ofGraph g ∧
      ∀ {n : Node} {i : Instr}, g.lookup n = some i → ∀ r : Reg,
        (r ∈ (ofGraph g).after i ↔ ∃ s ∈ i.successors, ∃ is m j, g.Path s is m ∧
          g.lookup m = some j ∧ r ∈ j.uses ∧ ∀ k ∈ is, r ∉ k.defs) ∧
        (r ∈ (ofGraph g).before n ↔ r ∈ i.uses ∨ (r ∈ (ofGraph g).after i ∧ r ∉ i.defs)) := by
  refine ⟨round_ofGraph g, fun hi r => ⟨?_, ?_⟩⟩
  · rw [mem_after]
    refine exists_congr fun s => and_congr_right fun _ => ?_
    rw [mem_before_ofGraph hkeys, Graph.reads_iff_path]
  · rw [before_of_round hkeys (round_ofGraph g) hi, mem_through]
    exact or_comm

/-- A loop that counts down, and a node outside it that nothing leads to. -/
def looping : Graph :=
  [(1, .op .add [1, 2] 1 2), (2, .branch (.const .ne 0) [1] 1 3), (3, .ret [1]),
    (9, .op .move [4] 2 1)]

/-- The step is live at the end of the loop, since the way round leads to its reader; it is not live where
it is set. -/
theorem live_looping : (looping.map Prod.fst).Nodup ∧
    2 ∈ (ofGraph looping).after (.branch (.const .ne 0) [1] 1 3) ∧
    2 ∉ (ofGraph looping).before 9 := by
  have hkeys : (looping.map Prod.fst).Nodup := by decide
  refine ⟨hkeys, ?_, fun h => ?_⟩
  · exact (((ofGraph_exact hkeys).2 (n := 2) rfl 2).1).mpr
      ⟨1, by decide, [], 1, _, .done, rfl, by decide, nofun⟩
  · rcases (((ofGraph_exact hkeys).2 (n := 9) rfl 2).2).mp h with huse | ⟨-, hdef⟩
    · exact absurd huse (by decide)
    · exact hdef (by decide)

end Live

namespace Function

open Live

variable {f : Function} {r : Reg} {n : Node}

/-- On every path from the entry, a register that an instruction reads is a parameter or was written
by an instruction before it. -/
def WritesFirst (f : Function) : Prop :=
  ∀ {is n i}, f.code.Path f.entry is n → f.code.lookup n = some i → ∀ r ∈ i.uses,
    r ∈ f.params ∨ ∃ j ∈ is, r ∈ j.defs

theorem writesFirst_iff : f.WritesFirst ↔ ∀ r, f.code.Reads r f.entry → r ∈ f.params := by
  constructor
  · intro h r hreads
    obtain ⟨is, m, i, hpath, hi, huse, hdefs⟩ := Graph.reads_iff_path.mp hreads
    refine (h hpath hi r huse).resolve_right ?_
    rintro ⟨j, hj, hr⟩
    exact hdefs j hj hr
  · intro h is m i hpath hi r huse
    by_contra hnot
    obtain ⟨hparam, hdefs⟩ := not_or.mp hnot
    exact hparam (h r (Graph.reads_iff_path.mpr
      ⟨is, m, i, hpath, hi, huse, fun j hj hr => hdefs ⟨j, hj, hr⟩⟩))

/-! ### Passes -/

/-- A sweep removes only writes that have no reader. -/
theorem reads_of_sweep (hkeys : (f.code.map Prod.fst).Nodup) (h : f.sweep.1.code.Reads r n) :
    f.code.Reads r n := by
  induction h with
  | here hi huse =>
      rw [lookup_sweep] at hi
      obtain ⟨j, hj, rfl⟩ := Option.map_eq_some_iff.mp hi
      rcases swept_eq_or (ofGraph f.code) j with h | ⟨d, s, -, -, h⟩ <;> rw [h] at huse
      · exact .here hj huse
      · cases huse
  | later hi hdef hs _ ih =>
      rw [lookup_sweep] at hi
      obtain ⟨j, hj, rfl⟩ := Option.map_eq_some_iff.mp hi
      rw [successors_swept] at hs
      refine .later hj (fun hr => ?_) hs ih
      rcases swept_eq_or (ofGraph f.code) j with h | ⟨d, s, hresult, hdead, -⟩
      · exact hdef (by rwa [h])
      · -- the only register that the instruction writes is not live after it
        have hrd : r = d := by
          cases j <;> cases hresult <;> exact List.mem_singleton.mp hr
        exact hdead (mem_after.mpr ⟨_, hs, (mem_before_ofGraph hkeys).mpr (hrd ▸ ih)⟩)

theorem reads_of_removeDead {ok : Instr → Prop} (hnop : ∀ s, ok (.nop s)) (hf : f.Sound ok)
    (h : f.removeDead.1.code.Reads r n) : f.code.Reads r n := by
  have hkept := removeDead_induction (f := f)
    (P := fun g => g.Sound ok ∧ ∀ n, g.code.Reads r n → f.code.Reads r n)
    (fun g hg => ⟨hg.1.sweep hnop, fun n hn => hg.2 n (reads_of_sweep hg.1.keys hn)⟩)
    ⟨hf, fun _ hn => hn⟩
  exact hkept.2 n h

theorem entry_removeDead (f : Function) : f.removeDead.1.entry = f.entry :=
  removeDead_induction (P := fun g => g.entry = f.entry) (fun _ hg => hg) rfl

/-- What is read where jumps lead is read from the first of them on. -/
theorem reads_of_follow (h : f.code.Reads r (f.code.follow n)) : f.code.Reads r n := by
  have hback := Graph.followWith_mem (g := f.code)
    (P := fun m => f.code.Reads r m → f.code.Reads r n) (n := n) (fun m s hm hs hreads => ?_)
    (f.code.length + 1) [] id
  · exact hback h
  · unfold Graph.jumpAt? at hs
    split at hs
    · rename_i hi
      cases hs
      exact hm (.later hi nofun (.head _) hreads)
    · cases hs

theorem reads_of_tunnel (h : f.tunnel.code.Reads r n) : f.code.Reads r n := by
  by_cases hempty : f.code = []
  · have htunnel : f.tunnel = f := by
      unfold tunnel
      rw [if_pos (by simpa using hempty)]
    rwa [htunnel] at h
  · have hlookup : ∀ {n i}, f.tunnel.code.lookup n = some i →
        ∃ j, f.code.lookup n = some j ∧ i = j.mapSuccessors f.code.follow := by
      intro n i hi
      rw [(code_tunnel hempty).2] at hi
      have hmem := (List.mem_filter.mp (mem_of_lookup hi)).2
      rw [lookup_filter_key (P := fun m => decide (m ∈ f.shortcut.reachable (f.code.follow f.entry)))
        hmem, lookup_shortcut] at hi
      obtain ⟨j, hj, rfl⟩ := Option.map_eq_some_iff.mp hi
      exact ⟨j, hj, rfl⟩
    induction h with
    | here hi huse =>
        obtain ⟨j, hj, rfl⟩ := hlookup hi
        refine .here hj ?_
        cases j <;> exact huse
    | later hi hdef hs _ ih =>
        obtain ⟨j, hj, rfl⟩ := hlookup hi
        rw [Instr.successors_mapSuccessors] at hs
        obtain ⟨t, ht, rfl⟩ := List.mem_map.mp hs
        refine .later hj ?_ ht (reads_of_follow ih)
        cases j <;> exact hdef

/-- The passes over a finished function keep that it writes first what it reads. -/
theorem writesFirst_passes {ok : Instr → Prop} (hnop : ∀ s, ok (.nop s)) (hf : f.Sound ok)
    (h : f.WritesFirst) : f.removeDead.1.tunnel.WritesFirst := by
  rw [writesFirst_iff] at h ⊢
  intro r hreads
  have hlike := f.like_removeDead.trans f.removeDead.1.like_tunnel
  rw [hlike.params]
  have hreads := reads_of_tunnel hreads
  by_cases hempty : f.removeDead.1.code = []
  · cases hreads with
    | here hi | later hi =>
        rw [hempty] at hi
        cases hi
  · rw [(code_tunnel hempty).1] at hreads
    have hentry := reads_of_removeDead hnop hf (reads_of_follow hreads)
    rw [entry_removeDead] at hentry
    exact h r hentry

end Function

end Mil.Rtl
