import Mathlib.Data.List.Nodup
import Mil.Proofs.Program.Names
import Mil.Rtl.Passes

/-!
Graphs of instructions that lead nowhere outside themselves. A function is sound if its entry and all
successors of its instructions have instructions, no node has two, and every instruction is
acceptable. The removal of dead code and of detours keeps functions sound, as long as what is
acceptable does not depend on the successors of an instruction.
-/

namespace Mil.Rtl

/-! ### Lookup -/

namespace Graph

variable {g : Graph} {n m : Node} {i j : Instr}

theorem lookup_insert (g : Graph) (n : Node) (i : Instr) (m : Node) :
    (g.insert n i).lookup m = if m = n then some i else g.lookup m := by
  induction g with
  | nil => rw [Graph.insert, lookup_cons_ite]
  | cons q g ih =>
      obtain ⟨k, j⟩ := q
      unfold Graph.insert
      split
      · rename_i hlt
        rw [lookup_cons_ite, lookup_cons_ite, ih]
        by_cases hk : m = k
        · rw [if_pos hk, if_pos hk, if_neg (hk ▸ Int.ne_of_lt hlt)]
        · rw [if_neg hk, if_neg hk]
      · split
        · rename_i heq
          rw [lookup_cons_ite, lookup_cons_ite, heq]
          split <;> rfl
        · rw [lookup_cons_ite]

theorem mem_insert {q : Node × Instr} (h : q ∈ g.insert n i) : q = (n, i) ∨ q ∈ g := by
  induction g with
  | nil => exact .inl (List.mem_singleton.mp h)
  | cons r g ih =>
      unfold Graph.insert at h
      split at h
      · rcases List.mem_cons.mp h with rfl | h
        · exact .inr (.head _)
        · exact (ih h).imp_right (.tail _)
      · split at h
        · exact (List.mem_cons.mp h).imp_right (.tail _)
        · exact List.mem_cons.mp h

theorem nodup_insert (hg : (g.map Prod.fst).Nodup) (hn : g.lookup n = none) :
    ((g.insert n i).map Prod.fst).Nodup := by
  induction g with
  | nil => simp [Graph.insert]
  | cons q g ih =>
      obtain ⟨k, j⟩ := q
      have hmem := lookup_eq_none_iff_not_mem.mp hn
      rw [List.map_cons, List.mem_cons, not_or] at hmem
      rw [List.map_cons, List.nodup_cons] at hg
      unfold Graph.insert
      split
      · rw [List.map_cons, List.nodup_cons]
        refine ⟨fun hk => ?_, ih hg.2 (lookup_eq_none_iff_not_mem.mpr hmem.2)⟩
        obtain ⟨r, hr, hrk⟩ := List.mem_map.mp hk
        rcases mem_insert hr with rfl | hr
        · exact hmem.1 hrk
        · exact hg.1 (hrk ▸ List.mem_map_of_mem hr)
      · split
        · rename_i heq
          exact absurd heq.symm hmem.1
        · rw [List.map_cons, List.nodup_cons, List.map_cons, List.nodup_cons]
          exact ⟨by simpa using hmem, hg⟩

end Graph

/-! ### Successors -/

theorem Instr.successors_mapSuccessors (f : Node → Node) (i : Instr) :
    (i.mapSuccessors f).successors = i.successors.map f := by
  cases i <;> rfl

theorem Instr.successors_of_result? {i : Instr} {d : Reg} {s : Node}
    (h : i.result? = some (d, s)) : i.successors = [s] := by
  cases i <;> cases h <;> rfl

/-- The entry and all successors have instructions, no node has two, and all instructions are
acceptable. -/
structure Function.Sound (ok : Instr → Prop) (f : Function) : Prop where
  keys : (f.code.map Prod.fst).Nodup
  entry : (f.code.lookup f.entry).isSome
  closed : ∀ {n i}, (n, i) ∈ f.code → ∀ s ∈ i.successors, (f.code.lookup s).isSome
  ok : ∀ {n i}, (n, i) ∈ f.code → ok i

namespace Function

variable {ok : Instr → Prop} {f : Function}

/-- A function that keeps everything but the code of another. -/
structure Like (f g : Function) : Prop where
  name : g.name = f.name
  params : g.params = f.params
  results : g.results = f.results
  exported : g.exported = f.exported

theorem Like.refl (f : Function) : Like f f := ⟨rfl, rfl, rfl, rfl⟩

theorem Like.trans {f g h : Function} (hg : Like f g) (hh : Like g h) : Like f h :=
  ⟨hh.name.trans hg.name, hh.params.trans hg.params, hh.results.trans hg.results,
    hh.exported.trans hg.exported⟩

/-! ### Dead code -/

/-- What a sweep puts in the place of an instruction. -/
def swept (live : Live) (i : Instr) : Instr :=
  match i.result? with
  | some (d, s) => if d ∈ live.after i then i else .nop s
  | none => i

theorem code_sweep (f : Function) :
    f.sweep.1.code = f.code.map fun q => (q.1, swept (Live.ofGraph f.code) q.2) := by
  unfold sweep swept
  dsimp only
  rw [List.map_map]
  refine List.map_congr_left fun q _ => ?_
  obtain ⟨n, i⟩ := q
  dsimp only [Function.comp_apply]
  cases i.result? with
  | none => rfl
  | some q =>
      dsimp only
      split <;> rfl

theorem swept_eq_or (live : Live) (i : Instr) :
    swept live i = i ∨ ∃ d s, i.result? = some (d, s) ∧ d ∉ live.after i ∧ swept live i = .nop s := by
  unfold swept
  split
  · rename_i d s hresult
    split
    · exact .inl rfl
    · rename_i hdead
      exact .inr ⟨d, s, hresult, hdead, rfl⟩
  · exact .inl rfl

theorem successors_swept (live : Live) (i : Instr) : (swept live i).successors = i.successors := by
  rcases swept_eq_or live i with h | ⟨d, s, hresult, -, h⟩
  · rw [h]
  · rw [h, Instr.successors_of_result? hresult]
    rfl

theorem like_sweep (f : Function) : Like f f.sweep.1 := ⟨rfl, rfl, rfl, rfl⟩

theorem Sound.sweep (hnop : ∀ s, ok (.nop s)) (h : f.Sound ok) : f.sweep.1.Sound ok := by
  have hcode := f.code_sweep
  have hlookup : ∀ n, (f.sweep.1.code.lookup n).isSome = (f.code.lookup n).isSome := fun n => by
    rw [hcode, lookup_map_snd, Option.isSome_map]
  have hmem : ∀ {n i}, (n, i) ∈ f.sweep.1.code →
      ∃ j, (n, j) ∈ f.code ∧ i = swept (Live.ofGraph f.code) j := by
    intro n i hi
    rw [hcode] at hi
    obtain ⟨q, hq, heq⟩ := List.mem_map.mp hi
    cases heq
    exact ⟨q.2, hq, rfl⟩
  constructor
  · rw [hcode, List.map_map]
    exact h.keys
  · rw [hlookup]
    exact h.entry
  · intro n i hi s hs
    obtain ⟨j, hj, rfl⟩ := hmem hi
    rw [hlookup]
    exact h.closed hj s (successors_swept _ j ▸ hs)
  · intro n i hi
    obtain ⟨j, hj, rfl⟩ := hmem hi
    rcases swept_eq_or (Live.ofGraph f.code) j with he | ⟨d, s, -, -, he⟩
    · rw [he]
      exact h.ok hj
    · rw [he]
      exact hnop s

/-- What one sweep keeps is kept by the removal of dead code. -/
theorem removeDead_induction {P : Function → Prop} (hP : ∀ f, P f → P f.sweep.1) {f : Function}
    (h : P f) : P f.removeDead.1 := by
  unfold removeDead
  generalize f.code.length + 1 = fuel
  generalize 0 = removed
  induction fuel generalizing f removed with
  | zero => exact h
  | succ fuel ih =>
      unfold sweepAll
      dsimp only
      split
      · exact h
      · exact ih (hP f h) _

theorem Sound.removeDead (hnop : ∀ s, ok (.nop s)) (h : f.Sound ok) : f.removeDead.1.Sound ok :=
  removeDead_induction (fun _ hf => hf.sweep hnop) h

theorem like_removeDead (f : Function) : Like f f.removeDead.1 :=
  removeDead_induction (P := Like f) (fun g hg => hg.trans g.like_sweep) (.refl f)

end Function

/-! ### Detours -/

namespace Graph

variable {g : Graph}

/-- Jumps are followed inside any set that they do not leave. -/
theorem followWith_mem {P : Node → Prop} (hP : ∀ n s, P n → g.jumpAt? n = some s → P s) (fuel : Nat)
    (met : List Node) {n : Node} (hn : P n) : P (g.followWith fuel met n) := by
  induction fuel generalizing met n with
  | zero => exact hn
  | succ fuel ih =>
      unfold followWith
      split
      · exact hn
      · split
        · rename_i s hs
          exact ih _ (hP n s hn hs)
        · exact hn

/-- The nodes that have instructions but were not met yet. -/
def unseen (g : Graph) (seen : List Node) : List Node :=
  (g.map Prod.fst).filter fun n => n ∉ seen

theorem length_unseen_lt {seen new : List Node} {n : Node} (hnew : n ∈ new) (hn : n ∉ seen)
    (hplaced : (g.lookup n).isSome) : (g.unseen (new ++ seen)).length < (g.unseen seen).length := by
  have heq : g.unseen (new ++ seen) = (g.unseen seen).filter fun n => n ∉ new := by
    unfold unseen
    rw [List.filter_filter]
    refine List.filter_congr fun m _ => ?_
    simp [not_or]
  rw [heq]
  refine List.length_filter_lt_length_iff_exists.mpr ⟨n, ?_, by simpa using hnew⟩
  exact List.mem_filter.mpr ⟨lookup_isSome_iff_mem.mp hplaced, by simpa using hn⟩

/-- With fuel for the nodes that were not met, the search ends in a set that is closed under
successors. -/
theorem spread_closed (hclosed : ∀ {n i}, g.lookup n = some i → ∀ s ∈ i.successors, (g.lookup s).isSome)
    (fuel : Nat) (seen frontier : List Node) (hfront : ∀ n ∈ frontier, (g.lookup n).isSome)
    (hfuel : (g.unseen seen).length < fuel)
    (hinv : ∀ n ∈ seen, ∀ i, g.lookup n = some i → ∀ s ∈ i.successors, s ∈ seen ∨ s ∈ frontier) :
    (∀ n, n ∈ seen ∨ n ∈ frontier → n ∈ g.spread fuel seen frontier) ∧
      ∀ n ∈ g.spread fuel seen frontier, ∀ i, g.lookup n = some i →
        ∀ s ∈ i.successors, s ∈ g.spread fuel seen frontier := by
  induction fuel generalizing seen frontier with
  | zero => omega
  | succ fuel ih =>
      rw [spread]
      split
      · rename_i hnew
        have hfront' : ∀ n ∈ frontier, n ∈ seen := by
          intro n hn
          by_contra hns
          have : n ∈ (frontier.filter fun n => n ∉ seen).eraseDups :=
            List.mem_eraseDups.mpr (List.mem_filter.mpr ⟨hn, by simpa using hns⟩)
          rw [hnew] at this
          cases this
        exact ⟨fun n hn => hn.elim id (hfront' n),
          fun n hn i hi s hs => (hinv n hn i hi s hs).elim id (hfront' s)⟩
      · rename_i hne
        generalize hnew : (frontier.filter fun n => n ∉ seen).eraseDups = new at hne ⊢
        have hmem : ∀ n, n ∈ new ↔ n ∈ frontier ∧ n ∉ seen := fun n => by
          rw [← hnew, List.mem_eraseDups, List.mem_filter]
          simp
        obtain ⟨v, hv⟩ := List.exists_mem_of_ne_nil new hne
        have hless := length_unseen_lt hv ((hmem v).mp hv).2 (hfront v ((hmem v).mp hv).1)
        have hgrow := ih (new ++ seen) (new.flatMap fun n => ((g.lookup n).map Instr.successors).getD [])
          (fun s hs => by
            obtain ⟨n, hn, hs⟩ := List.mem_flatMap.mp hs
            obtain ⟨i, hi⟩ := Option.isSome_iff_exists.mp (hfront n ((hmem n).mp hn).1)
            rw [hi] at hs
            exact hclosed hi s hs)
          (by omega)
          (fun n hn i hi s hs => by
            rcases List.mem_append.mp hn with hn | hn
            · refine .inr (List.mem_flatMap.mpr ⟨n, hn, ?_⟩)
              rw [hi]
              exact hs
            · by_cases hss : s ∈ seen
              · exact .inl (List.mem_append_right _ hss)
              · have hs := (hinv n hn i hi s hs).resolve_left hss
                exact .inl (List.mem_append_left _ ((hmem s).mpr ⟨hs, hss⟩)))
        refine ⟨fun n hn => hgrow.1 n (.inl ?_), hgrow.2⟩
        by_cases hns : n ∈ seen
        · exact List.mem_append_right _ hns
        · exact List.mem_append_left _ ((hmem n).mpr ⟨hn.resolve_left hns, hns⟩)

/-- What can be reached in a closed graph holds the start and all successors of its nodes. -/
theorem reachable_closed {n : Node}
    (hclosed : ∀ {n i}, g.lookup n = some i → ∀ s ∈ i.successors, (g.lookup s).isSome)
    (hn : (g.lookup n).isSome) :
    n ∈ g.reachable n ∧ ∀ m ∈ g.reachable n, ∀ i, g.lookup m = some i →
      ∀ s ∈ i.successors, s ∈ g.reachable n := by
  have hfuel : (g.unseen []).length < g.length + 1 := by
    have := List.length_filter_le (fun n => decide (n ∉ ([] : List Node))) (g.map Prod.fst)
    rw [List.length_map] at this
    exact Nat.lt_succ_of_le this
  obtain ⟨hroot, hstep⟩ := spread_closed hclosed (g.length + 1) [] [n]
    (fun m hm => List.mem_singleton.mp hm ▸ hn) hfuel (fun _ h => nomatch h)
  exact ⟨hroot n (.inr (.head _)), hstep⟩

end Graph

namespace Function

variable {ok : Instr → Prop} {f : Function}

/-- The code of a function with all detours cut short. -/
def shortcut (f : Function) : Graph := f.code.map fun q => (q.1, q.2.mapSuccessors f.code.follow)

theorem code_tunnel (h : f.code ≠ []) : f.tunnel.entry = f.code.follow f.entry ∧
    f.tunnel.code = f.shortcut.filter fun q => q.1 ∈ f.shortcut.reachable (f.code.follow f.entry) := by
  unfold tunnel
  rw [if_neg (by simpa using h)]
  exact ⟨rfl, rfl⟩

theorem like_tunnel (f : Function) : Like f f.tunnel := by
  unfold tunnel
  split
  · exact .refl f
  · exact ⟨rfl, rfl, rfl, rfl⟩

theorem lookup_shortcut (f : Function) (n : Node) :
    f.shortcut.lookup n = (f.code.lookup n).map fun i => i.mapSuccessors f.code.follow :=
  lookup_map_snd _ n

theorem Sound.isSome_follow (h : f.Sound ok) {n : Node} (hn : (f.code.lookup n).isSome) :
    (f.code.lookup (f.code.follow n)).isSome := by
  refine Graph.followWith_mem (P := fun n => (f.code.lookup n).isSome) (fun n s _ hs => ?_) _ _ hn
  unfold Graph.jumpAt? at hs
  split at hs
  · rename_i hi
    cases hs
    exact h.closed (mem_of_lookup hi) s (.head _)
  · cases hs

/-- The shortened code is closed. -/
theorem Sound.shortcut_closed (h : f.Sound ok) {n : Node} {i : Instr} (hi : f.shortcut.lookup n = some i) :
    ∀ s ∈ i.successors, (f.shortcut.lookup s).isSome := by
  rw [lookup_shortcut] at hi
  obtain ⟨j, hj, rfl⟩ := Option.map_eq_some_iff.mp hi
  intro s hs
  rw [Instr.successors_mapSuccessors] at hs
  obtain ⟨t, ht, rfl⟩ := List.mem_map.mp hs
  rw [lookup_shortcut, Option.isSome_map]
  exact h.isSome_follow (h.closed (mem_of_lookup hj) t ht)

theorem Sound.tunnel (hmap : ∀ r i, ok i → ok (i.mapSuccessors r)) (h : f.Sound ok) :
    f.tunnel.Sound ok := by
  have hne : f.code ≠ [] := by
    intro hnil
    have := h.entry
    rw [hnil] at this
    cases this
  obtain ⟨hentry, hcode⟩ := code_tunnel hne
  have hkeys : (f.shortcut.map Prod.fst).Nodup := by
    unfold shortcut
    rw [List.map_map]
    exact h.keys
  have hplaced : (f.shortcut.lookup (f.code.follow f.entry)).isSome := by
    rw [lookup_shortcut, Option.isSome_map]
    exact h.isSome_follow h.entry
  obtain ⟨hroot, hstep⟩ := Graph.reachable_closed h.shortcut_closed hplaced
  have hkeys' : (f.tunnel.code.map Prod.fst).Nodup := by
    rw [hcode]
    exact (List.filter_sublist.map Prod.fst).nodup hkeys
  have hkeep : ∀ {n}, (f.shortcut.lookup n).isSome →
      n ∈ f.shortcut.reachable (f.code.follow f.entry) → (f.tunnel.code.lookup n).isSome := by
    intro n hn hreach
    obtain ⟨i, hi⟩ := Option.isSome_iff_exists.mp hn
    rw [lookup_isSome_iff_mem, hcode]
    exact List.mem_map.mpr ⟨(n, i), List.mem_filter.mpr ⟨mem_of_lookup hi, by simpa using hreach⟩, rfl⟩
  have hmem : ∀ {n i}, (n, i) ∈ f.tunnel.code → (n, i) ∈ f.shortcut ∧
      n ∈ f.shortcut.reachable (f.code.follow f.entry) := by
    intro n i hi
    rw [hcode] at hi
    obtain ⟨hi, hreach⟩ := List.mem_filter.mp hi
    exact ⟨hi, by simpa using hreach⟩
  constructor
  · exact hkeys'
  · rw [hentry]
    exact hkeep hplaced hroot
  · intro n i hi s hs
    obtain ⟨hi, hreach⟩ := hmem hi
    have hlookup := lookup_of_mem hkeys hi
    exact hkeep (h.shortcut_closed hlookup s hs) (hstep n hreach i hlookup s hs)
  · intro n i hi
    obtain ⟨q, hq, heq⟩ := List.mem_map.mp (hmem hi).1
    cases heq
    exact hmap _ _ (h.ok hq)

end Function

end Mil.Rtl
