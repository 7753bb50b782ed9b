import Mil.Proofs.Rtl.Behaviour
import Mil.Proofs.Rtl.Reads

/-!
What is left of a function once its dead code is removed and its detours are cut short. A sweep that
finds something leaves fewer operations and loads, so the sweeps come to an end, and after the last one
every result is live. Jumps lead to an instruction that is no jump, or into a ring of jumps, where they
are followed to the first node of the ring that they meet. So a jump to which an edge still leads is part
of a ring. What is read from a node on is read from where the jumps lead, and does not depend on what
cannot be reached; so the results that were live are live still, and a second round of both passes finds
nothing to do.
-/

namespace Mil.Rtl

/-! ### Sweeps -/

namespace Live

variable {g : Graph} {live : Live}

/-- Passes through a graph, with no limit to their number, until one changes nothing. -/
inductive Converges (g : Graph) : Live → Live → Prop
  | done {live : Live} (hsame : round live g = live) : Converges g live live
  | again {live last : Live} (hmore : round live g ≠ live) (hrest : Converges g (round live g) last) :
      Converges g live last

theorem converges_close {fuel : Nat} (h : round (close g fuel live) g = close g fuel live) :
    Converges g live (close g fuel live) := by
  induction fuel generalizing live with
  | zero => exact .done h
  | succ fuel ih =>
      unfold close at h ⊢
      dsimp only at h ⊢
      by_cases hsame : round live g = live
      · rw [if_pos hsame]
        exact .done hsame
      · rw [if_neg hsame] at h ⊢
        exact .again hsame (ih h)

/-- The search for live registers starts from nothing and comes to an end by itself. -/
theorem converges_ofGraph (g : Graph) : Converges g (g.map fun q => (q.1, [])) (ofGraph g) :=
  converges_close (round_ofGraph g)

end Live

namespace Function

variable {f g : Function}

/-- Sweeps, with no limit to their number, until one finds nothing; before each of them the live
registers are searched for. The number is that of all instructions that were found. -/
inductive Sweeps : Function → Function → Nat → Prop
  | done {f : Function}
      (hlive : Live.Converges f.code (f.code.map fun q => (q.1, [])) (Live.ofGraph f.code))
      (hnone : f.sweep.2 = 0) : Sweeps f f 0
  | again {f g : Function} {removed : Nat}
      (hlive : Live.Converges f.code (f.code.map fun q => (q.1, [])) (Live.ofGraph f.code))
      (hfound : f.sweep.2 ≠ 0) (hrest : Sweeps f.sweep.1 g removed) : Sweeps f g (f.sweep.2 + removed)

/-- Is the instruction an operation or a load whose result is not live? -/
def isDead (live : Live) (i : Instr) : Bool := i.result?.any fun r => r.1 ∉ live.after i

theorem isDead_eq_false_iff {live : Live} {i : Instr} :
    isDead live i = false ↔ ∀ d s, i.result? = some (d, s) → d ∈ live.after i := by
  unfold isDead
  cases i.result? with
  | none => simp
  | some r => simp [Prod.ext_iff]

theorem sweep_snd (f : Function) : f.sweep.2 = f.code.countP fun q => isDead (Live.ofGraph f.code) q.2 := by
  unfold sweep
  dsimp only
  generalize Live.ofGraph f.code = live
  rw [List.countP_map]
  refine List.countP_congr fun q _ => ?_
  dsimp only [Function.comp_apply]
  unfold isDead
  cases q.2.result? with
  | none => rfl
  | some r => by_cases hd : r.1 ∈ live.after q.2 <;> simp [hd]

/-- The number of operations and loads. -/
def pures (f : Function) : Nat := f.code.countP fun q => q.2.result?.isSome

theorem isSome_swept (live : Live) (i : Instr) :
    (swept live i).result?.isSome = (i.result?.isSome && !isDead live i) := by
  unfold swept isDead
  cases hresult : i.result? with
  | none => simp [hresult]
  | some r =>
      by_cases hd : r.1 ∈ live.after i
      · simp [hresult, hd]
      · simp only [hd, if_false, Option.isSome_some, Option.any_some, not_false_eq_true, decide_true]
        rfl

theorem countP_swept (live : Live) (code : Graph) :
    (code.countP fun q => (swept live q.2).result?.isSome) + (code.countP fun q => isDead live q.2) =
      code.countP fun q => q.2.result?.isSome := by
  induction code with
  | nil => rfl
  | cons q code ih =>
      simp only [List.countP_cons, isSome_swept] at ih ⊢
      rw [← ih]
      cases hdead : isDead live q.2 with
      | false =>
          simp only [Bool.not_false, Bool.and_true, Bool.false_eq_true, if_false]
          omega
      | true =>
          have hresult : q.2.result?.isSome = true := by
            unfold isDead at hdead
            exact Option.isSome_of_any hdead
          simp only [hresult, Bool.not_true, Bool.and_false, Bool.false_eq_true, if_false, if_true]
          omega

/-- What a sweep finds it takes away. -/
theorem pures_sweep (f : Function) : f.sweep.1.pures + f.sweep.2 = f.pures := by
  unfold pures
  rw [code_sweep, sweep_snd, List.countP_map]
  exact countP_swept _ _

theorem sweep_eq_zero_iff : f.sweep.2 = 0 ↔ ∀ q ∈ f.code, ∀ d s, q.2.result? = some (d, s) →
    d ∈ (Live.ofGraph f.code).after q.2 := by
  simp only [sweep_snd, List.countP_eq_zero, Bool.not_eq_true, isDead_eq_false_iff]

/-- With fuel for all operations and loads, the sweeps go on until one finds nothing. -/
theorem sweeps_sweepAll {fuel : Nat} (hfuel : f.pures < fuel) (removed : Nat) :
    ∃ found, (sweepAll fuel f removed).2 = removed + found ∧ f.Sweeps (sweepAll fuel f removed).1 found := by
  induction fuel generalizing f removed with
  | zero => exact absurd hfuel (Nat.not_lt_zero _)
  | succ fuel ih =>
      have hlive := Live.converges_ofGraph f.code
      unfold sweepAll
      dsimp only
      by_cases hfound : f.sweep.2 = 0
      · rw [if_pos hfound]
        exact ⟨0, rfl, .done hlive hfound⟩
      · rw [if_neg hfound]
        have hless := f.pures_sweep
        obtain ⟨found, hremoved, hrest⟩ := ih (f := f.sweep.1) (by omega) (removed + f.sweep.2)
        exact ⟨f.sweep.2 + found, by omega, .again hlive hfound hrest⟩

/-- The removal of dead code comes to an end by itself. -/
theorem sweeps_removeDead (f : Function) : f.Sweeps f.removeDead.1 f.removeDead.2 := by
  have hfuel : f.pures < f.code.length + 1 := Nat.lt_succ_of_le List.countP_le_length
  obtain ⟨found, hremoved, hsweeps⟩ := sweeps_sweepAll hfuel 0
  rw [Nat.zero_add] at hremoved
  exact hremoved ▸ hsweeps

theorem Sweeps.last {removed : Nat} (h : f.Sweeps g removed) : g.sweep.2 = 0 := by
  induction h with
  | done _ hnone => exact hnone
  | again _ _ _ ih => exact ih

theorem removeDead_eq_self (h : f.sweep.2 = 0) : f.removeDead = (f, 0) := by
  unfold removeDead sweepAll
  dsimp only
  rw [if_pos h]

end Function

/-! ### Rings of jumps -/

namespace Graph

variable {g : Graph} {n m last : Node} {path path' : List Node}

/-- The jumps along a path lead from one node to another. -/
inductive Jumps (g : Graph) : List Node → Node → Node → Prop
  | done {n : Node} : Jumps g [] n n
  | jump {path : List Node} {n next last : Node} (hjump : g.jumpAt? n = some next)
      (hrest : Jumps g path next last) : Jumps g (n :: path) n last

/-- A node is on a ring if jumps lead from it back to it, and to no other node twice. -/
def OnRing (g : Graph) (n : Node) : Prop := ∃ path, path ≠ [] ∧ path.Nodup ∧ g.Jumps path n n

theorem lookup_of_jumpAt? (h : g.jumpAt? n = some m) : g.lookup n = some (.nop m) := by
  unfold jumpAt? at h
  split at h
  · rename_i hi
    cases h
    exact hi
  · cases h

theorem jumpAt?_of_lookup (h : g.lookup n = some (.nop m)) : g.jumpAt? n = some m := by
  unfold jumpAt?
  rw [h]

theorem Jumps.concat (h : g.Jumps path n m) (hjump : g.jumpAt? m = some last) :
    g.Jumps (path ++ [m]) n last := by
  induction h with
  | done => exact .jump hjump .done
  | jump hfirst _ ih => exact .jump hfirst (ih hjump)

/-- From each node of a path, the rest of it leads to the same end. -/
theorem Jumps.from_mem (h : g.Jumps path n last) (hm : m ∈ path) :
    ∃ rest, rest <:+ path ∧ rest ≠ [] ∧ g.Jumps rest m last := by
  induction h with
  | done => cases hm
  | jump hjump hrest ih =>
      rcases List.mem_cons.mp hm with rfl | hm
      · exact ⟨_, List.suffix_refl _, List.cons_ne_nil _ _, .jump hjump hrest⟩
      · obtain ⟨rest, hsuffix, hne, h⟩ := ih hm
        exact ⟨rest, hsuffix.trans (List.suffix_cons _ _), hne, h⟩

theorem Jumps.subset (h : g.Jumps path n last) : path ⊆ g.map Prod.fst := by
  induction h with
  | done => exact List.nil_subset _
  | jump hjump _ ih =>
      refine List.cons_subset.mpr ⟨lookup_isSome_iff_mem.mp ?_, ih⟩
      exact Option.isSome_iff_exists.mpr ⟨_, lookup_of_jumpAt? hjump⟩

/-- A path that passes no node twice is no longer than the graph. -/
theorem Jumps.length_le (h : g.Jumps path n last) (hnodup : path.Nodup) : path.length ≤ g.length := by
  have hle := hnodup.length_le_of_subset h.subset
  rwa [List.length_map] at hle

/-- The next node of a ring is on it too. -/
theorem OnRing.next (h : g.OnRing n) (hjump : g.jumpAt? n = some m) : g.OnRing m := by
  obtain ⟨path, hne, hnodup, hpath⟩ := h
  cases hpath with
  | done => exact absurd rfl hne
  | jump hfirst hrest =>
      cases hfirst.symm.trans hjump
      exact ⟨_, List.append_ne_nil_of_right_ne_nil _ (List.cons_ne_nil _ _),
        (List.perm_append_singleton _ _).nodup_iff.mpr hnodup, hrest.concat hjump⟩

/-- Jumps are followed to the first node that was met before. -/
theorem Jumps.followWith (h : g.Jumps path n last) {fuel : Nat} (hfuel : path.length ≤ fuel)
    {met : List Node} (hnodup : path.Nodup) (hmet : ∀ m ∈ path, m ∉ met) (hlast : last ∈ met ∨ last ∈ path) :
    g.followWith fuel met n = last := by
  induction h generalizing fuel met with
  | done =>
      have hlast := hlast.resolve_right List.not_mem_nil
      cases fuel with
      | zero => rfl
      | succ fuel =>
          unfold Graph.followWith
          rw [if_pos hlast]
  | jump hjump _ ih =>
      obtain ⟨hnot, hnodup⟩ := List.nodup_cons.mp hnodup
      cases fuel with
      | zero => cases hfuel
      | succ fuel =>
          unfold Graph.followWith
          rw [if_neg (hmet _ (.head _)), hjump]
          refine ih (Nat.le_of_succ_le_succ hfuel) hnodup (fun m hm hmem => ?_) ?_
          · rcases List.mem_cons.mp hmem with rfl | hmem
            · exact hnot hm
            · exact hmet m (.tail _ hm) hmem
          · rcases hlast with hlast | hlast
            · exact .inl (.tail _ hlast)
            · exact (List.mem_cons.mp hlast).imp_left fun he => List.mem_cons.mpr (.inl he)

/-- A ring is followed once round. -/
theorem OnRing.follow (h : g.OnRing n) : g.follow n = n := by
  obtain ⟨path, hne, hnodup, hpath⟩ := h
  have hlen := hpath.length_le hnodup
  refine hpath.followWith (Nat.le_succ_of_le hlen) hnodup (fun _ _ => List.not_mem_nil) (.inr ?_)
  cases hpath with
  | done => exact absurd rfl hne
  | jump => exact .head _

/-- Jumps that go on for ever meet a node that was met before; what was met since then is a ring. -/
theorem Adrift.onRing_followWith (h : g.Adrift n) {start : Node} {met : List Node}
    (hmet : g.Jumps met.reverse start n) (hnodup : met.Nodup) {fuel : Nat}
    (hfuel : g.length < fuel + met.length) : g.OnRing (g.followWith fuel met n) := by
  induction fuel generalizing n met with
  | zero =>
      have hlen := hmet.length_le (List.nodup_reverse.mpr hnodup)
      rw [List.length_reverse] at hlen
      omega
  | succ fuel ih =>
      unfold Graph.followWith
      by_cases hn : n ∈ met
      · rw [if_pos hn]
        obtain ⟨rest, hsuffix, hne, hring⟩ := hmet.from_mem (List.mem_reverse.mpr hn)
        exact ⟨rest, hne, hsuffix.sublist.nodup (List.nodup_reverse.mpr hnodup), hring⟩
      · obtain ⟨next, hi, hnext⟩ := h.jump
        have hjump := jumpAt?_of_lookup hi
        rw [if_neg hn, hjump]
        refine ih hnext ?_ (List.nodup_cons.mpr ⟨hn, hnodup⟩) ?_
        · rw [List.reverse_cons]
          exact hmet.concat hjump
        · rw [List.length_cons]
          omega

/-- Jumps that go on for ever lead into a ring. -/
theorem Adrift.onRing_follow (h : g.Adrift n) : g.OnRing (g.follow n) :=
  h.onRing_followWith .done .nil (Nat.lt_succ_self _)

/-- A jump to which jumps lead is on a ring. -/
theorem onRing_of_follow (hjump : g.jumpAt? (g.follow n) = some m) : g.OnRing (g.follow n) := by
  refine Adrift.onRing_follow fun path last hdetour => ?_
  rw [hdetour.follow, hdetour.jumpAt?_last] at hjump
  cases hjump

/-- Where every jump is on a ring, following jumps leads nowhere else. -/
theorem follow_eq_self (h : ∀ n next, g.jumpAt? n = some next → g.OnRing n) (n : Node) : g.follow n = n := by
  cases hjump : g.jumpAt? n with
  | none => exact (Detour.done hjump).follow
  | some next => exact (h n next hjump).follow

/-- Jumps along a path of jumps only. -/
theorem Jumps.exists_path (h : g.Jumps path n last) :
    ∃ is, is.length = path.length ∧ g.Path n is last ∧ ∀ i ∈ is, ∃ s, i = .nop s := by
  induction h with
  | done => exact ⟨[], rfl, .done, List.forall_mem_nil _⟩
  | @jump _ n next _ hjump _ ih =>
      obtain ⟨is, hlen, hpath, hnops⟩ := ih
      exact ⟨.nop next :: is, congrArg Nat.succ hlen, .step (lookup_of_jumpAt? hjump) (.head _) hpath,
        List.forall_mem_cons.mpr ⟨⟨next, rfl⟩, hnops⟩⟩

/-! ### Parts of a graph -/

/-- What is found by a search can be reached. -/
theorem path_of_mem_spread {fuel : Nat} {seen frontier : List Node} (h : n ∈ g.spread fuel seen frontier) :
    n ∈ seen ∨ ∃ m ∈ frontier, ∃ is, g.Path m is n := by
  induction fuel generalizing seen frontier with
  | zero => exact .inl h
  | succ fuel ih =>
      rw [spread] at h
      split at h
      · exact .inl h
      · have hnew : ∀ m ∈ (frontier.filter fun m => m ∉ seen).eraseDups, m ∈ frontier :=
          fun m hm => (List.mem_filter.mp (List.mem_eraseDups.mp hm)).1
        rcases ih h with hn | ⟨m, hm, is, hpath⟩
        · rcases List.mem_append.mp hn with hn | hn
          · exact .inr ⟨n, hnew n hn, [], .done⟩
          · exact .inl hn
        · obtain ⟨k, hk, hm⟩ := List.mem_flatMap.mp hm
          cases hi : g.lookup k with
          | none =>
              rw [hi] at hm
              cases hm
          | some i =>
              rw [hi] at hm
              exact .inr ⟨k, hnew k hk, i :: is, .step hi hm hpath⟩

theorem path_of_reachable (h : m ∈ g.reachable n) : ∃ is, g.Path n is m := by
  obtain hm | ⟨k, hk, hpath⟩ := path_of_mem_spread h
  · cases hm
  · rwa [List.mem_singleton.mp hk] at hpath

section Part

variable {P : Node → Bool}
  (hP : ∀ {n i}, P n = true → g.lookup n = some i → ∀ s ∈ i.successors, P s = true)
include hP

/-- What cannot be left along a path holds the end of the path as well. -/
theorem Path.inside {is : List Instr} (h : g.Path n is m) (hn : P n = true) : P m = true := by
  induction h with
  | done => exact hn
  | step hi hs _ ih => exact ih (hP hn hi _ hs)

theorem Path.filter {is : List Instr} (h : g.Path n is m) (hn : P n = true) :
    Graph.Path (g.filter fun q => P q.1) n is m := by
  induction h with
  | done => exact .done
  | step hi hs _ ih =>
      exact .step ((Function.lookup_filter_key hn).trans hi) hs (ih (hP hn hi _ hs))

theorem Reads.filter {r : Reg} (h : g.Reads r n) (hn : P n = true) :
    Graph.Reads (g.filter fun q => P q.1) r n := by
  induction h with
  | here hi huse => exact .here ((Function.lookup_filter_key hn).trans hi) huse
  | later hi hdef hs _ ih =>
      exact .later ((Function.lookup_filter_key hn).trans hi) hdef hs (ih (hP hn hi _ hs))

theorem Jumps.filter (h : g.Jumps path n last) (hn : P n = true) :
    Graph.Jumps (g.filter fun q => P q.1) path n last := by
  induction h with
  | done => exact .done
  | @jump _ n next _ hjump _ ih =>
      have hi : g.lookup n = some (.nop next) := lookup_of_jumpAt? hjump
      exact .jump (jumpAt?_of_lookup ((Function.lookup_filter_key hn).trans hi)) (ih (hP hn hi _ (.head _)))

end Part

/-- Nothing is read along jumps that go on for ever. -/
theorem Adrift.not_reads {r : Reg} (h : g.Adrift n) : ¬ g.Reads r n := by
  intro hreads
  induction hreads with
  | here hi huse =>
      obtain ⟨next, hi', -⟩ := h.jump
      cases hi.symm.trans hi'
      cases huse
  | later hi _ hs _ ih =>
      obtain ⟨next, hi', hnext⟩ := h.jump
      cases hi.symm.trans hi'
      exact ih (List.mem_singleton.mp hs ▸ hnext)

end Graph

/-! ### Successors -/

theorem Instr.uses_mapSuccessors (F : Node → Node) (i : Instr) : (i.mapSuccessors F).uses = i.uses := by
  cases i <;> rfl

theorem Instr.defs_mapSuccessors (F : Node → Node) (i : Instr) : (i.mapSuccessors F).defs = i.defs := by
  cases i <;> rfl

theorem Instr.result?_mapSuccessors (F : Node → Node) (i : Instr) :
    (i.mapSuccessors F).result? = i.result?.map fun r => (r.1, F r.2) := by
  cases i <;> rfl

theorem Instr.mapSuccessors_id (i : Instr) : i.mapSuccessors id = i := by
  cases i with
  | jump r targets => rw [mapSuccessors, List.map_id]
  | _ => rfl

namespace Function

open Rtl.Graph

variable {f : Function} {n m last : Node} {path : List Node} {i : Instr} {r : Reg} {ok : Instr → Prop}

/-! ### Detours cut short -/

theorem jumpAt?_shortcut (f : Function) (n : Node) :
    f.shortcut.jumpAt? n = (f.code.jumpAt? n).map f.code.follow := by
  unfold Graph.jumpAt?
  rw [lookup_shortcut]
  cases f.code.lookup n with
  | none => rfl
  | some i => cases i <;> rfl

/-- A ring has no detours. -/
theorem jumps_shortcut (h : f.code.Jumps path n last) (hn : f.code.OnRing n) :
    f.shortcut.Jumps path n last := by
  induction h with
  | done => exact .done
  | jump hjump _ ih =>
      have hnext := hn.next hjump
      refine .jump ?_ (ih hnext)
      rw [jumpAt?_shortcut, hjump, Option.map_some, hnext.follow]

/-- What is read from a node on is read from where the jumps lead. -/
theorem reads_shortcut (h : f.code.Reads r n) : f.shortcut.Reads r (f.code.follow n) := by
  have hhere {n : Node} {i : Instr} (hi : f.code.lookup n = some i) (hnop : ∀ s, i ≠ .nop s) :
      f.code.follow n = n ∧ f.shortcut.lookup n = some (i.mapSuccessors f.code.follow) := by
    rw [lookup_shortcut, hi]
    exact ⟨(Detour.done (jumpAt?_eq_none hi hnop)).follow, rfl⟩
  induction h with
  | @here n i hi huse =>
      obtain ⟨hfollow, hshort⟩ := hhere hi (by rintro s rfl; cases huse)
      rw [hfollow]
      exact .here hshort (i.uses_mapSuccessors _ ▸ huse)
  | @later n s i hi hdef hs hreads ih =>
      by_cases hnop : ∃ t, i = .nop t
      · obtain ⟨t, rfl⟩ := hnop
        obtain rfl := List.mem_singleton.mp hs
        -- the jumps come to an end, or nothing would be read
        obtain ⟨path, last, hdetour⟩ : ∃ path last, Detour f.code path n last := by
          by_contra hnone
          exact Adrift.not_reads (fun path last hdetour => hnone ⟨path, last, hdetour⟩)
            (.later hi hdef hs hreads)
        have hjump := jumpAt?_of_lookup hi
        cases hdetour with
        | done hlast => cases hlast.symm.trans hjump
        | jump hfirst hrest =>
            cases hfirst.symm.trans hjump
            rw [(Detour.jump hfirst hrest).follow, ← hrest.follow]
            exact ih
      · obtain ⟨hfollow, hshort⟩ := hhere hi fun t ht => hnop ⟨t, ht⟩
        rw [hfollow]
        refine .later hshort (i.defs_mapSuccessors _ ▸ hdef) ?_ ih
        rw [i.successors_mapSuccessors]
        exact List.mem_map_of_mem hs

/-! ### Tunnelled functions -/

theorem Sound.code_ne_nil (hf : f.Sound ok) : f.code ≠ [] := by
  intro hnil
  have hentry := hf.entry
  rw [hnil] at hentry
  cases hentry

/-- The nodes that are kept when detours are cut short: those that can be reached then. -/
def kept (f : Function) (n : Node) : Bool := n ∈ f.shortcut.reachable (f.code.follow f.entry)

theorem Sound.code_tunnel (hf : f.Sound ok) : f.tunnel.entry = f.code.follow f.entry ∧
    f.tunnel.code = f.shortcut.filter fun q => f.kept q.1 := Function.code_tunnel hf.code_ne_nil

theorem Sound.kept_closed (hf : f.Sound ok) : f.kept (f.code.follow f.entry) = true ∧
    ∀ {n i}, f.kept n = true → f.shortcut.lookup n = some i → ∀ s ∈ i.successors, f.kept s = true := by
  have hplaced : (f.shortcut.lookup (f.code.follow f.entry)).isSome := by
    rw [lookup_shortcut, Option.isSome_map]
    exact hf.isSome_follow hf.entry
  obtain ⟨hroot, hstep⟩ := Graph.reachable_closed hf.shortcut_closed hplaced
  exact ⟨decide_eq_true hroot, fun hn hi s hs => decide_eq_true (hstep _ (of_decide_eq_true hn) _ hi s hs)⟩

/-- What stands in the result stood there before, with other successors. -/
theorem Sound.of_tunnel (hf : f.Sound ok) (hi : (n, i) ∈ f.tunnel.code) : f.kept n = true ∧
    ∃ j, f.code.lookup n = some j ∧ i = j.mapSuccessors f.code.follow := by
  rw [hf.code_tunnel.2] at hi
  obtain ⟨hi, hkept⟩ := List.mem_filter.mp hi
  obtain ⟨q, hq, heq⟩ := List.mem_map.mp hi
  cases heq
  exact ⟨hkept, q.2, lookup_of_mem hf.keys hq, rfl⟩

/-- What is kept can be reached from the entry. -/
theorem Sound.path_tunnel (hf : f.Sound ok) (hn : f.kept n = true) :
    ∃ is, f.tunnel.code.Path f.tunnel.entry is n := by
  obtain ⟨hentry, hcode⟩ := hf.code_tunnel
  obtain ⟨hroot, hclosed⟩ := hf.kept_closed
  obtain ⟨is, hpath⟩ := path_of_reachable (of_decide_eq_true hn)
  rw [hentry, hcode]
  exact ⟨is, hpath.filter hclosed hroot⟩

/-- All edges lead to where jumps lead. -/
theorem exists_follow (hn : f.kept n = true) : ∃ m, f.code.follow m = n := by
  obtain ⟨is, hpath⟩ := path_of_reachable (of_decide_eq_true hn)
  have hall {is : List Instr} {n m : Node} (hpath : f.shortcut.Path n is m)
      (hn : ∃ k, f.code.follow k = n) : ∃ k, f.code.follow k = m := by
    induction hpath with
    | done => exact hn
    | step hi hs _ ih =>
        rw [lookup_shortcut] at hi
        obtain ⟨j, -, rfl⟩ := Option.map_eq_some_iff.mp hi
        rw [j.successors_mapSuccessors] at hs
        obtain ⟨k, -, hk⟩ := List.mem_map.mp hs
        exact ih ⟨k, hk⟩
  exact hall hpath ⟨_, rfl⟩

/-- Every jump that is left is on a ring. -/
theorem Sound.onRing_tunnel (hf : f.Sound ok) (hi : (n, .nop m) ∈ f.tunnel.code) :
    f.tunnel.code.OnRing n := by
  obtain ⟨hkept, j, hj, heq⟩ := hf.of_tunnel hi
  obtain ⟨next, rfl⟩ : ∃ next, j = .nop next := by
    cases j <;> cases heq
    exact ⟨_, rfl⟩
  have hring : f.code.OnRing n := by
    obtain ⟨k, rfl⟩ := exists_follow hkept
    exact onRing_of_follow (jumpAt?_of_lookup hj)
  have hkeeps {path : List Node} (hpath : f.code.Jumps path n n) : f.tunnel.code.Jumps path n n := by
    rw [hf.code_tunnel.2]
    exact (jumps_shortcut hpath hring).filter hf.kept_closed.2 hkept
  obtain ⟨path, hne, hnodup, hpath⟩ := hring
  exact ⟨path, hne, hnodup, hkeeps hpath⟩

/-- Every result that was live is live still. -/
theorem Sound.sweep_tunnel (hf : f.Sound ok) (hmap : ∀ F i, ok i → ok (i.mapSuccessors F))
    (hlive : f.sweep.2 = 0) : f.tunnel.sweep.2 = 0 := by
  rw [sweep_eq_zero_iff] at hlive ⊢
  rintro ⟨n, i⟩ hi d s hfound
  obtain ⟨hkept, j, hj, rfl⟩ := hf.of_tunnel hi
  dsimp only at hfound ⊢
  rw [j.result?_mapSuccessors] at hfound
  obtain ⟨⟨d, t⟩, hresult, heq⟩ := Option.map_eq_some_iff.mp hfound
  cases heq
  obtain ⟨k, hk, hd⟩ := Live.mem_after.mp (hlive (n, j) (mem_of_lookup hj) d t hresult)
  have hshort : f.shortcut.lookup n = some (j.mapSuccessors f.code.follow) := by
    rw [lookup_shortcut, hj]
    rfl
  have hmem : f.code.follow k ∈ (j.mapSuccessors f.code.follow).successors := by
    rw [j.successors_mapSuccessors]
    exact List.mem_map_of_mem hk
  refine Live.mem_after.mpr ⟨_, hmem, ?_⟩
  rw [Live.mem_before_ofGraph (hf.tunnel hmap).keys, hf.code_tunnel.2]
  have hreads := reads_shortcut ((Live.mem_before_ofGraph hf.keys).mp hd)
  exact hreads.filter hf.kept_closed.2 (hf.kept_closed.2 hkept hshort _ hmem)

theorem Like.eq {f g : Function} (h : Like f g) (hcode : g.code = f.code) (hentry : g.entry = f.entry) :
    g = f := by
  cases f
  cases g
  simp only [Function.mk.injEq]
  exact ⟨h.name, h.params, h.results, hcode, hentry, h.exported⟩

/-- Without detours and with nothing out of reach, there is nothing to cut short. -/
theorem Sound.tunnel_eq_self (hf : f.Sound ok) (hfollow : ∀ n, f.code.follow n = n)
    (hreach : ∀ q ∈ f.code, ∃ is, f.code.Path f.entry is q.1) : f.tunnel = f := by
  have hid : f.code.follow = id := funext hfollow
  have hshort : f.shortcut = f.code := by
    unfold shortcut
    simp only [hid, Instr.mapSuccessors_id]
    exact List.map_id _
  obtain ⟨hentry, hcode⟩ := hf.code_tunnel
  obtain ⟨hroot, hclosed⟩ := hf.kept_closed
  refine f.like_tunnel.eq ?_ (hentry.trans (hfollow f.entry))
  rw [hcode, hshort, List.filter_eq_self]
  intro q hq
  obtain ⟨is, hpath⟩ := hreach q hq
  rw [hshort] at hclosed
  exact hpath.inside hclosed (hfollow f.entry ▸ hroot)

/-- **Nothing that could be removed is left.** The removal of dead code comes to an end by itself. Once
detours have been cut short as well, every node can be reached from the entry, the result of every
operation and load is live after it, every jump is part of a ring of jumps, and the passes change nothing
any more. -/
theorem tunnel_removeDead_finished (hf : f.Sound fun _ => True) :
    let g := f.removeDead.1.tunnel
    f.Sweeps f.removeDead.1 f.removeDead.2 ∧
      (∀ n i, (n, i) ∈ g.code → ∃ is, g.code.Path g.entry is n) ∧
      (∀ n i, (n, i) ∈ g.code → ∀ d s, i.result? = some (d, s) → d ∈ (Live.ofGraph g.code).after i) ∧
      (∀ n s, (n, .nop s) ∈ g.code →
        ∃ is, is ≠ [] ∧ g.code.Path n is n ∧ ∀ i ∈ is, ∃ s, i = .nop s) ∧
      g.removeDead = (g, 0) ∧ g.tunnel = g := by
  intro g
  have hdead : f.removeDead.1.Sound fun _ => True := hf.removeDead fun _ => trivial
  have hg : g.Sound fun _ => True := hdead.tunnel fun _ _ _ => trivial
  have hreach : ∀ n i, (n, i) ∈ g.code → ∃ is, g.code.Path g.entry is n :=
    fun n i hi => hdead.path_tunnel (hdead.of_tunnel hi).1
  have hlive : g.sweep.2 = 0 := hdead.sweep_tunnel (fun _ _ _ => trivial) f.sweeps_removeDead.last
  have hring : ∀ n s, (n, .nop s) ∈ g.code → g.code.OnRing n := fun n s hi => hdead.onRing_tunnel hi
  refine ⟨f.sweeps_removeDead, hreach, fun n i hi => sweep_eq_zero_iff.mp hlive _ hi, fun n s hi => ?_,
    removeDead_eq_self hlive, hg.tunnel_eq_self ?_ fun q hq => hreach q.1 q.2 hq⟩
  · obtain ⟨path, hne, -, hpath⟩ := hring n s hi
    obtain ⟨is, hlen, his, hnops⟩ := hpath.exists_path
    refine ⟨is, fun hnil => hne ?_, his, hnops⟩
    rw [hnil] at hlen
    exact List.eq_nil_of_length_eq_zero hlen.symm
  · exact follow_eq_self fun n next hjump => hring n next (mem_of_lookup (lookup_of_jumpAt? hjump))

/-- A constant, a load from it and a load from there have no reader; one way on leads to the end, the
other into a ring of jumps; and a node leads to the end that nothing leads to. -/
def spinner : Function where
  name := "spinner"
  params := [1]
  results := 1
  entry := 1
  exported := true
  code := [
    (1, .op (.const 7) [] 2 2),
    (2, .load .int64 (.indexed 0) [2] 3 3),
    (3, .load .int64 (.indexed 8) [3] 3 4),
    (4, .branch (.const .eq 0) [1] 5 6),
    (5, .ret [1]),
    (6, .nop 7),
    (7, .nop 8),
    (8, .nop 7),
    (9, .nop 5)]

theorem sound_spinner : spinner.Sound fun _ => True where
  keys := by decide
  entry := by decide
  closed {n i} h s hs := by
    have hall : ∀ q ∈ spinner.code, ∀ s ∈ q.2.successors, (spinner.code.lookup s).isSome := by
      decide
    exact hall (n, i) h s hs
  ok _ := trivial

/-- The branch, the end and the ring are left. -/
theorem spinner_finished : spinner.Sound (fun _ => True) ∧
    spinner.removeDead.1.tunnel.code =
      [(4, .branch (.const .eq 0) [1] 5 7), (5, .ret [1]), (7, .nop 8), (8, .nop 7)] ∧
    spinner.Sweeps spinner.removeDead.1 3 ∧
    spinner.removeDead.1.tunnel.removeDead = (spinner.removeDead.1.tunnel, 0) ∧
    spinner.removeDead.1.tunnel.tunnel = spinner.removeDead.1.tunnel := by
  obtain ⟨hsweeps, -, -, -, hdead, htunnel⟩ := tunnel_removeDead_finished sound_spinner
  refine ⟨sound_spinner, by decide +kernel, ?_, hdead, htunnel⟩
  have hthree : spinner.removeDead.2 = 3 := by decide +kernel
  exact hthree ▸ hsweeps

end Function

end Mil.Rtl
