import Mathlib.Algebra.BigOperators.Ring.List
import Mathlib.Algebra.Order.BigOperators.Group.List
import Mathlib.Algebra.Order.Ring.Nat
import Mathlib.Data.List.Chain
import Mathlib.Data.List.Permutation
import Mil.Optimize.Invariants
import Mil.Proofs.Machine.Trail
import Mil.Proofs.Program.Components
import Mil.Proofs.Program.Linked
import Mil.Proofs.Program.Names

/-!
The analysis of parameters that stay the same in a loop comes to an end. Every flow of an operand into
a parameter leaves the sources alone or raises their rank, which is bounded; so the rounds, of which
there are enough, end with sources that no flow changes any more. Then the source of a parameter holds
the sources of all that is handed to it by the calls of the group.

Parameters with a definite source keep their values. Along any chain of calls inside a recursive
component, such a parameter of the last block has the value that one parameter of the first block had,
the only one of that block that its source names.
-/

namespace Mil.Optimize

/-! ### States that only rise -/

section Raised

variable {σ α : Type} {P : σ → Prop} {rank : σ → Nat} {f : σ → α → σ} {as : List α} {s s' s'' : σ}

/-- A state with a property that is the earlier one or ranks above it. -/
def Raised (P : σ → Prop) (rank : σ → Nat) (s s' : σ) : Prop := P s' ∧ (s' = s ∨ rank s < rank s')

theorem Raised.refl (hs : P s) : Raised P rank s s := ⟨hs, .inl rfl⟩

theorem Raised.trans (h : Raised P rank s s') (h' : Raised P rank s' s'') : Raised P rank s s'' := by
  refine ⟨h'.1, ?_⟩
  rcases h.2 with rfl | hlt
  · exact h'.2
  · rcases h'.2 with rfl | hlt'
    · exact .inr hlt
    · exact .inr (hlt.trans hlt')

/-- What rises and comes back has not moved. -/
theorem Raised.antisymm (h : Raised P rank s s') (h' : Raised P rank s' s) : s' = s := by
  rcases h.2 with heq | hlt
  · exact heq
  · rcases h'.2 with heq | hlt'
    · exact heq.symm
    · exact absurd (hlt.trans hlt') (Nat.lt_irrefl _)

theorem raised_foldl (h : ∀ a ∈ as, ∀ s, P s → Raised P rank s (f s a)) (hs : P s) :
    Raised P rank s (as.foldl f s) := by
  induction as generalizing s with
  | nil => exact .refl hs
  | cons a as ih =>
    have hfirst := h a (.head _) s hs
    exact hfirst.trans (ih (fun b hb => h b (.tail _ hb)) hfirst.1)

/-- Steps that together change nothing change nothing one by one. -/
theorem foldl_fixed (h : ∀ a ∈ as, ∀ s, P s → Raised P rank s (f s a)) (hs : P s)
    (hfix : as.foldl f s = s) : ∀ a ∈ as, f s a = s := by
  induction as with
  | nil => exact nofun
  | cons a as ih =>
    have hfirst := h a (.head _) s hs
    have hrest := raised_foldl (fun b hb => h b (.tail _ hb)) hfirst.1
    rw [List.foldl_cons] at hfix
    rw [hfix] at hrest
    have ha : f s a = s := hfirst.antisymm hrest
    rw [ha] at hfix
    exact List.forall_mem_cons.mpr ⟨ha, ih (fun b hb => h b (.tail _ hb)) hfix⟩

variable {r : α → Nat} {g : α → α} {l : List α}

/-- A list whose elements are left alone or raised is left alone or raised. -/
theorem map_raised (h : ∀ a ∈ l, g a = a ∨ r a < r (g a)) :
    l.map g = l ∨ (l.map r).sum < ((l.map g).map r).sum := by
  induction l with
  | nil => exact .inl rfl
  | cons a l ih =>
    have hle : r a ≤ r (g a) := by
      rcases h a (.head _) with heq | hlt
      · rw [heq]
      · exact hlt.le
    simp only [List.map_cons, List.sum_cons]
    rcases ih fun b hb => h b (.tail _ hb) with heq | hlt
    · rw [heq]
      rcases h a (.head _) with ha | ha
      · exact .inl (by rw [ha])
      · exact .inr (Nat.add_lt_add_right ha _)
    · exact .inr (Nat.add_lt_add_of_le_of_lt hle hlt)

/-- So is a list of which one element is left alone or raised. -/
theorem modify_raised {i : Nat} (h : ∀ a, l[i]? = some a → g a = a ∨ r a < r (g a)) :
    l.modify i g = l ∨ (l.map r).sum < ((l.modify i g).map r).sum := by
  induction l generalizing i with
  | nil => exact .inl (by cases i <;> rfl)
  | cons a l ih =>
    cases i with
    | zero =>
      rw [List.modify_zero_cons]
      rcases h a rfl with heq | hlt
      · exact .inl (by rw [heq])
      · exact .inr (Nat.add_lt_add_right hlt _)
    | succ i =>
      rw [List.modify_succ_cons]
      rcases ih fun b hb => h b hb with heq | hlt
      · exact .inl (by rw [heq])
      · exact .inr (Nat.add_lt_add_left hlt _)

end Raised

/-! ### Sources of one parameter -/

namespace Source

variable {ids : List DefnId} {own : Param} {s incoming : Source} {ps qs : List Param}

/-- One parameter flows into a source. -/
def grow (s : Source) (q : Param) : Source :=
  match s with
  | .any => .any
  | .join ps => add ps q

/-- The blocks of a source are among the given ones. -/
def Within (ids : List DefnId) : Source → Prop
  | .any => True
  | .join ps => ∀ q ∈ ps, q.defn ∈ ids

/-- A definite source of a parameter names the parameter, and no block twice. -/
def Fits (ids : List DefnId) (own : Param) : Source → Prop
  | .any => True
  | .join ps => own ∈ ps ∧ (ps.map Param.defn).Nodup ∧ ∀ q ∈ ps, q.defn ∈ ids

/-- How far a source has grown: nothing definite comes last. -/
def rank (bound : Nat) : Source → Nat
  | .any => bound + 1
  | .join ps => ps.length

theorem Fits.within (h : s.Fits ids own) : s.Within ids := by
  cases s with
  | any => trivial
  | join ps => exact h.2.2

theorem Fits.length_le (h : (join ps).Fits ids own) : ps.length ≤ ids.length := by
  have hsub : ps.map Param.defn ⊆ ids := by
    intro id hid
    obtain ⟨q, hq, rfl⟩ := List.mem_map.mp hid
    exact h.2.2 q hq
  simpa using (List.subperm_of_subset h.2.1 hsub).length_le

theorem Fits.rank_le (h : s.Fits ids own) : s.rank ids.length ≤ ids.length + 1 := by
  cases s with
  | any => exact Nat.le_refl _
  | join ps => exact h.length_le.trans (Nat.le_succ _)

/-- What adding a parameter comes to. -/
theorem add_cases (ps : List Param) (q : Param) :
    (q ∈ ps ∧ add ps q = .join ps) ∨ add ps q = .any ∨
      q.defn ∉ ps.map Param.defn ∧ add ps q = .join (ps ++ [q]) := by
  unfold add
  split
  · rename_i r hr
    have hdefn : r.defn = q.defn := by simpa using List.find?_some hr
    split
    · rename_i hindex
      have heq : r = q := by
        cases r
        cases q
        exact congrArg₂ Param.mk hdefn hindex
      exact .inl ⟨heq ▸ List.mem_of_find?_eq_some hr, rfl⟩
    · exact .inr (.inl rfl)
  · rename_i hnone
    refine .inr (.inr ⟨fun hmem => ?_, rfl⟩)
    obtain ⟨r, hr, hdefn⟩ := List.mem_map.mp hmem
    exact absurd hdefn (by simpa using List.find?_eq_none.mp hnone r hr)

theorem raised_grow {q : Param} (hq : q.defn ∈ ids) (s : Source) (hs : s.Fits ids own) :
    Raised (Fits ids own) (rank ids.length) s (s.grow q) := by
  cases s with
  | any => exact .refl trivial
  | join ps =>
    change Raised _ _ _ (add ps q)
    rcases add_cases ps q with ⟨-, heq⟩ | heq | ⟨hnew, heq⟩
    · rw [heq]
      exact .refl hs
    · rw [heq]
      exact ⟨trivial, .inr (Nat.lt_succ_of_le hs.length_le)⟩
    · rw [heq]
      refine ⟨⟨List.mem_append_left _ hs.1, ?_, ?_⟩, .inr ?_⟩
      · rw [List.map_append]
        exact hs.2.1.append (List.nodup_singleton _) (List.disjoint_singleton.mpr hnew)
      · intro r hr
        rcases List.mem_append.mp hr with hr | hr
        · exact hs.2.2 r hr
        · rwa [List.mem_singleton.mp hr]
      · rw [rank, rank, List.length_append]
        exact Nat.lt_succ_self _

theorem merge_join : merge (.join ps) (.join qs) = qs.foldl grow (.join ps) := rfl

theorem raised_merge (h : incoming.Within ids) (hs : s.Fits ids own) :
    Raised (Fits ids own) (rank ids.length) s (s.merge incoming) := by
  cases s with
  | any => exact .refl trivial
  | join ps =>
    cases incoming with
    | any => exact ⟨trivial, .inr (Nat.lt_succ_of_le hs.length_le)⟩
    | join qs => exact raised_foldl (fun q hq => raised_grow (h q hq)) hs

/-- A definite source that takes in another one without a change holds it. -/
theorem merge_fixed (hs : (join ps).Fits ids own) (h : incoming.Within ids)
    (hfix : (join ps).merge incoming = .join ps) : ∃ qs, incoming = .join qs ∧ qs ⊆ ps := by
  cases incoming with
  | any => cases hfix
  | join qs =>
    refine ⟨qs, rfl, fun q hq => ?_⟩
    have hone : (join ps).grow q = .join ps :=
      foldl_fixed (fun q hq => raised_grow (h q hq)) hs (merge_join ▸ hfix) q hq
    rcases add_cases ps q with ⟨hmem, -⟩ | heq | ⟨-, heq⟩
    · exact hmem
    · exact absurd (heq.symm.trans hone) (by nofun)
    · have hlen := congrArg List.length (Source.join.inj (heq.symm.trans hone))
      rw [List.length_append] at hlen
      exact absurd hlen (Nat.succ_ne_self _)

end Source

/-! ### Sources of a group -/

namespace Sources

/-- The calls that the analysis looks at are all calls of a body. -/
theorem calls_eq_allCalls (c : Code) : calls c = c.allCalls := by
  induction c with
  | bind vars t next ih => cases t <;> simp [calls, Code.allCalls, Tail.call?, ih]
  | done t => cases t <;> rfl
  | branch cond t f => rfl
  | case scrut alts default => rfl

variable {group : List (DefnId × Block)} {s : Sources}

/-- The blocks of a group. -/
abbrev ids (group : List (DefnId × Block)) : List DefnId := group.map Prod.fst

/-- There is a source for each parameter of each block of the group, and each is one of its
parameter. -/
structure Fits (group : List (DefnId × Block)) (s : Sources) : Prop where
  shape : s.map (fun e => (e.1, e.2.length)) = group.map fun g => (g.1, g.2.params.length)
  sources : ∀ e ∈ s, ∀ (i : Nat) (src : Source), e.2[i]? = some src → src.Fits (ids group) ⟨e.1, i⟩

/-- How far the sources have grown, all together. -/
def rank (group : List (DefnId × Block)) (s : Sources) : Nat :=
  (s.map fun e => (e.2.map (Source.rank (ids group).length)).sum).sum

/-- No sources rank above this. -/
def height (group : List (DefnId × Block)) : Nat :=
  (group.flatMap fun g => g.2.params).length * (group.length + 1)

theorem Fits.keys (h : s.Fits group) : s.map Prod.fst = ids group := by
  have hfst := congrArg (List.map Prod.fst) h.shape
  rwa [List.map_map, List.map_map] at hfst

theorem Fits.rank_le (h : s.Fits group) : s.rank group ≤ height group := by
  have hentry : ∀ e ∈ s, (e.2.map (Source.rank (ids group).length)).sum ≤ e.2.length * (group.length + 1) := by
    intro e he
    have hsource : ∀ k ∈ e.2.map (Source.rank (ids group).length), k ≤ group.length + 1 := by
      intro k hk
      obtain ⟨src, hsrc, rfl⟩ := List.mem_map.mp hk
      obtain ⟨i, hi⟩ := List.mem_iff_getElem?.mp hsrc
      exact (h.sources e he i src hi).rank_le.trans (by rw [List.length_map])
    exact (List.sum_le_card_nsmul _ _ hsource).trans (by simp)
  have hshape := congrArg (List.map fun q : DefnId × Nat => q.2 * (group.length + 1)) h.shape
  rw [List.map_map, List.map_map] at hshape
  calc s.rank group
    _ ≤ (s.map fun e => e.2.length * (group.length + 1)).sum := List.sum_le_sum hentry
    _ = (group.map fun g => g.2.params.length * (group.length + 1)).sum := congrArg List.sum hshape
    _ = height group := by rw [height, List.length_flatMap, ← List.sum_map_mul_right]

theorem Fits.within_ofAtom (h : s.Fits group) (caller : DefnId) (params : List Temp) (a : Atom) :
    (ofAtom ((s.lookup caller).getD []) params a).Within (ids group) := by
  unfold ofAtom
  split
  · split
    · cases hlookup : s.lookup caller with
      | none => trivial
      | some srcs =>
        rw [Option.getD_some]
        rename_i t _
        cases hsrc : srcs[params.idxOf t]? with
        | none => trivial
        | some src => exact (h.sources _ (mem_of_lookup hlookup) _ _ hsrc).within
    · trivial
  · trivial

/-- The flow into the sources of one block. -/
def flowInto (callee : DefnId) (index : Nat) (incoming : Source) (e : DefnId × List Source) :
    DefnId × List Source :=
  (e.1, if e.1 = callee then e.2.modify index (·.merge incoming) else e.2)

theorem raised_flow (h : s.Fits group) (caller : DefnId) (params : List Temp) (callee : DefnId)
    (index : Nat) (a : Atom) :
    Raised (Fits group) (rank group) s (s.flow caller params callee index a) := by
  have hwithin := h.within_ofAtom caller params a
  change Raised _ _ s (s.map (flowInto callee index (ofAtom ((s.lookup caller).getD []) params a)))
  generalize ofAtom ((s.lookup caller).getD []) params a = incoming at hwithin
  refine ⟨⟨?_, ?_⟩, map_raised fun e he => ?_⟩
  · rw [List.map_map, ← h.shape]
    refine List.map_congr_left fun e _ => ?_
    simp only [Function.comp_apply, flowInto]
    split <;> simp
  · intro e' he' i src hsrc
    obtain ⟨e, he, rfl⟩ := List.mem_map.mp he'
    simp only [flowInto] at hsrc ⊢
    split at hsrc
    · rw [List.getElem?_modify] at hsrc
      obtain ⟨src₀, hsrc₀, rfl⟩ := Option.map_eq_some_iff.mp hsrc
      have hfits := h.sources e he i src₀ hsrc₀
      split
      · exact (Source.raised_merge hwithin hfits).1
      · exact hfits
    · exact h.sources e he i src hsrc
  · simp only [flowInto]
    split
    · rcases modify_raised (i := index) (g := (·.merge incoming)) (r := Source.rank (ids group).length)
        fun src hsrc => (Source.raised_merge hwithin (h.sources e he _ src hsrc)).2 with heq | hlt
      · exact .inl (by rw [heq])
      · exact .inr hlt
    · exact .inl rfl

theorem raised_flowCall (h : s.Fits group) (caller : DefnId) (params : List Temp) (c : BlockCall) :
    Raised (Fits group) (rank group) s (s.flowCall caller params c) :=
  raised_foldl (fun _ _ _ hs => raised_flow hs _ _ _ _ _) h

theorem raised_round (h : s.Fits group) : Raised (Fits group) (rank group) s (round group s) :=
  raised_foldl (fun _ _ _ hs => raised_foldl (fun _ _ _ hs => raised_flowCall hs _ _ _) hs) h

/-- Enough rounds end with sources that another round does not change. -/
theorem close_fixed (h : s.Fits group) {fuel : Nat} (hfuel : height group < s.rank group + fuel) :
    (close group fuel s).Fits group ∧ round group (close group fuel s) = close group fuel s := by
  induction fuel generalizing s with
  | zero => exact absurd hfuel (Nat.not_lt.mpr h.rank_le)
  | succ fuel ih =>
    have hround := raised_round h
    unfold close
    dsimp only
    split
    · rename_i heq
      exact ⟨h, heq⟩
    · rename_i hne
      have hlt := hround.2.resolve_left hne
      exact ih hround.1 (by omega)

/-- At first each parameter is its own source. -/
def start (group : List (DefnId × Block)) : Sources :=
  group.map fun g => (g.1, (List.range g.2.params.length).map fun i => .join [⟨g.1, i⟩])

theorem fits_start (group : List (DefnId × Block)) : (start group).Fits group where
  shape := by
    rw [start, List.map_map]
    exact List.map_congr_left fun g _ => by simp
  sources := by
    intro e he i src hsrc
    obtain ⟨g, hg, rfl⟩ := List.mem_map.mp he
    rw [List.getElem?_map] at hsrc
    obtain ⟨j, hj, rfl⟩ := Option.map_eq_some_iff.mp hsrc
    obtain ⟨-, rfl⟩ := List.getElem?_eq_some_iff.mp hj
    rw [List.getElem_range]
    exact ⟨.head _, List.nodup_singleton _, fun q hq => by
      rw [List.mem_singleton.mp hq]
      exact List.mem_map_of_mem hg⟩

/-- The sources of a group are those that no flow changes any more. -/
theorem ofGroup_fixed (group : List (DefnId × Block)) :
    (ofGroup group).Fits group ∧ round group (ofGroup group) = ofGroup group :=
  close_fixed (fits_start group) (Nat.lt_add_left _ (Nat.lt_succ_self _))

/-- A block with sources is of the group, and there is one for each of its parameters. -/
theorem Fits.length_eq (h : s.Fits group) {id : DefnId} {srcs : List Source} (hsrcs : s.lookup id = some srcs) :
    ∃ b, (id, b) ∈ group ∧ srcs.length = b.params.length := by
  have hmem : (id, srcs.length) ∈ group.map fun g => (g.1, g.2.params.length) := by
    rw [← h.shape]
    exact List.mem_map_of_mem (f := fun e : DefnId × List Source => (e.1, e.2.length)) (mem_of_lookup hsrcs)
  obtain ⟨⟨_, b⟩, hb, heq⟩ := List.mem_map.mp hmem
  obtain ⟨rfl, hlen⟩ := Prod.mk.inj heq
  exact ⟨b, hb, hlen.symm⟩

theorem source?_eq_some {id : DefnId} {i : Nat} {src : Source} (h : s.source? id i = some src) :
    ∃ srcs, s.lookup id = some srcs ∧ srcs[i]? = some src :=
  Option.bind_eq_some_iff.mp h

/-- Only a parameter with a definite source has a definite source as an operand. -/
theorem ofAtom_eq_join {caller : DefnId} {params : List Temp} {a : Atom} {qs : List Param}
    (h : ofAtom ((s.lookup caller).getD []) params a = .join qs) :
    ∃ t, a = .temp t ∧ t ∈ params ∧ s.source? caller (params.idxOf t) = some (.join qs) := by
  unfold ofAtom at h
  split at h
  · rename_i t
    split at h
    · rename_i ht
      refine ⟨t, rfl, ht, ?_⟩
      unfold source?
      cases hsrcs : s.lookup caller with
      | none =>
        rw [hsrcs] at h
        cases h
      | some srcs =>
        rw [hsrcs, Option.getD_some] at h
        rw [Option.bind_some]
        cases hsrc : srcs[params.idxOf t]? with
        | none =>
          rw [hsrc] at h
          cases h
        | some src =>
          rw [hsrc] at h
          exact congrArg some h
    · cases h
  · cases h

/-- Once no flow changes anything, what a call of the group hands to a parameter with a definite source
is a parameter of the caller, whose source is part of it. -/
theorem Fits.source_of_call (h : s.Fits group) (hfix : round group s = s) {caller : DefnId} {b : Block}
    (hb : (caller, b) ∈ group) {c : BlockCall} (hc : c ∈ (b.body.map Code.allCalls).getD []) {i : Nat}
    {ps : List Param} (hsrc : s.source? c.block i = some (.join ps)) {a : Atom} (ha : c.args[i]? = some a) :
    ∃ t qs, a = .temp t ∧ t ∈ b.params ∧ s.source? caller (b.params.idxOf t) = some (.join qs) ∧ qs ⊆ ps := by
  have hblock := foldl_fixed (fun _ _ _ hs => raised_foldl (fun _ _ _ hs => raised_flowCall hs _ _ _) hs)
    h hfix (caller, b) hb
  have hcalls : c ∈ (b.body.map calls).getD [] := by
    rwa [show calls = Code.allCalls from funext calls_eq_allCalls]
  have hcall := foldl_fixed (fun _ _ _ hs => raised_flowCall hs _ _ _) h hblock c hcalls
  have hflow : s.flow caller b.params c.block i a = s :=
    foldl_fixed (fun _ _ _ hs => raised_flow hs _ _ _ _ _) h hcall (a, i)
      (List.mk_mem_zipIdx_iff_getElem?.mpr ha)
  have hwithin := h.within_ofAtom caller b.params a
  obtain ⟨srcs, hsrcs, hi⟩ := source?_eq_some hsrc
  have hmem := mem_of_lookup hsrcs
  have hentry : flowInto c.block i (ofAtom ((s.lookup caller).getD []) b.params a) (c.block, srcs) =
      (c.block, srcs) := List.map_inj_left.mp (hflow.trans (List.map_id s).symm) _ hmem
  have hmerge : (Source.join ps).merge (ofAtom ((s.lookup caller).getD []) b.params a) = .join ps := by
    have hmodify := congrArg (fun e => e.2[i]?) hentry
    simpa [flowInto, hi] using hmodify
  obtain ⟨qs, hqs, hsub⟩ := Source.merge_fixed (h.sources _ hmem i _ hi) hwithin hmerge
  obtain ⟨t, ha, ht, hsource⟩ := ofAtom_eq_join hqs
  exact ⟨t, qs, ha, ht, hsource, hsub⟩

end Sources

end Mil.Optimize

/-! ### Sources of a program -/

namespace Mil.Program

open Mil.Optimize

variable {p : Program} {group : List DefnId}

/-- The blocks among some definitions. -/
def blocksAmong (p : Program) (group : List DefnId) : List (DefnId × Block) :=
  group.filterMap fun id => (p.block? id).map fun b => (id, b)

theorem mem_blocksAmong {id : DefnId} {b : Block} :
    (id, b) ∈ p.blocksAmong group ↔ id ∈ group ∧ p.block? id = some b := by
  simp [blocksAmong]

theorem ids_blocksAmong_sublist (p : Program) (group : List DefnId) :
    (Sources.ids (p.blocksAmong group)).Sublist group := by
  induction group with
  | nil => exact .slnil
  | cons id group ih =>
    rw [blocksAmong, List.filterMap_cons]
    cases p.block? id with
    | none => exact ih.cons id
    | some b => exact ih.cons_cons id

/-- The recursive components of what can be reached. -/
def loops (p : Program) : List (List DefnId) := (p.components p.reachable).filter p.isRecursive

theorem loops_nodup (p : Program) : p.loops.flatten.Nodup := by
  have hall : (p.components p.reachable).flatten.Nodup :=
    (p.components_within fun _ hid => lt_of_reachable hid).1
  rw [List.nodup_flatten] at hall ⊢
  exact ⟨fun group hgroup => hall.1 group (List.mem_of_mem_filter hgroup), hall.2.filter _⟩

/-- The sources of the groups of some components, one after the other. -/
def found (p : Program) (groups : List (List DefnId)) : Sources :=
  groups.flatMap fun group => Sources.ofGroup (p.blocksAmong group)

theorem keys_found_sublist (p : Program) (groups : List (List DefnId)) :
    ((p.found groups).map Prod.fst).Sublist groups.flatten := by
  induction groups with
  | nil => exact .slnil
  | cons group groups ih =>
    rw [found, List.flatMap_cons, List.map_append, (Sources.ofGroup_fixed _).1.keys]
    exact (p.ids_blocksAmong_sublist group).append ih

theorem lookup_found_of_not_mem {groups : List (List DefnId)} {id : DefnId} (hid : id ∉ groups.flatten) :
    (p.found groups).lookup id = none :=
  lookup_eq_none_iff_not_mem.mpr fun hmem => hid ((p.keys_found_sublist groups).subset hmem)

/-- In a recursive component, the sources of the program are those of the component. -/
theorem lookup_sources (hgroup : group ∈ p.loops) {id : DefnId} (hid : id ∈ group) :
    p.sources.lookup id = (Sources.ofGroup (p.blocksAmong group)).lookup id := by
  have hsorted : p.sources.lookup id = (p.found p.loops).lookup id :=
    (lookup_perm (List.mergeSort_perm _ _).symm (p.loops_nodup.sublist (p.keys_found_sublist _)) id).symm
  obtain ⟨before, after, hsplit⟩ := List.append_of_mem hgroup
  have hnodup := p.loops_nodup
  rw [hsplit, List.flatten_append, List.flatten_cons] at hnodup
  have hbefore : id ∉ before.flatten := fun hmem =>
    (List.nodup_append.mp hnodup).2.2 id hmem id (List.mem_append_left _ hid) rfl
  have hafter : id ∉ after.flatten := fun hmem =>
    (List.nodup_append.mp (List.nodup_append.mp hnodup).2.1).2.2 id hid id hmem rfl
  calc p.sources.lookup id
    _ = (p.found before ++ (Sources.ofGroup (p.blocksAmong group) ++ p.found after)).lookup id := by
      rw [hsorted, hsplit, found, List.flatMap_append, List.flatMap_cons]
      rfl
    _ = (Sources.ofGroup (p.blocksAmong group)).lookup id := by
      rw [List.lookup_append, List.lookup_append, lookup_found_of_not_mem hbefore,
        lookup_found_of_not_mem hafter, Option.none_or, Option.or_none]

/-! ### Calls along a chain -/

open Mil.Machine

theorem block?_eq_some {id : DefnId} {b : Block} : p.block? id = some b ↔ p.block id = .ok b := by
  constructor
  · intro h
    unfold block? at h
    split at h
    · rename_i hbody
      obtain ⟨d, hd, hbody⟩ := Option.map_eq_some_iff.mp hbody
      exact Option.some.inj h ▸ block_eq hd hbody
    · cases h
  · intro h
    obtain ⟨d, hd, hbody⟩ := exists_of_block h
    simp [block?, hd, hbody]

/-- Along a chain of calls inside a component, the value of a parameter with a definite source comes from
a parameter of the first block that the source names. -/
theorem exists_first_of_lineage {calls : List Call} (h : Lineage p calls)
    (hin : ∀ x ∈ calls, x.block ∈ group) {last first : Call} (hlast : calls.head? = some last)
    (hfirst : calls.getLast? = some first) {i : Nat} {ps : List Param}
    (hsrc : (Sources.ofGroup (p.blocksAmong group)).source? last.block i = some (.join ps)) :
    ∃ j v, ⟨first.block, j⟩ ∈ ps ∧ last.args[i]? = some v ∧ first.args[j]? = some v := by
  obtain ⟨hfits, hfix⟩ := Sources.ofGroup_fixed (p.blocksAmong group)
  induction calls generalizing last i ps with
  | nil => cases hlast
  | cons x calls ih =>
    cases hlast
    obtain ⟨srcs, hsrcs, hi⟩ := Sources.source?_eq_some hsrc
    obtain ⟨bx, hbx, hlen⟩ := hfits.length_eq hsrcs
    have hcount := h.counts x (.head _) bx (block?_eq_some.mp (mem_blocksAmong.mp hbx).2)
    have hlt : i < x.args.length := by
      rw [hcount, ← hlen]
      exact (List.getElem?_eq_some_iff.mp hi).1
    cases calls with
    | nil =>
      cases hfirst
      exact ⟨i, x.args[i], (hfits.sources _ (mem_of_lookup hsrcs) i _ hi).1,
        List.getElem?_eq_getElem hlt, List.getElem?_eq_getElem hlt⟩
    | cons y calls =>
      obtain ⟨hmade, hrest⟩ := List.isChain_cons_cons.mp h.made
      obtain ⟨b, hb, c, hc, hblock, hargs, hvalues⟩ := hmade
      have hmem : (y.block, b) ∈ p.blocksAmong group :=
        mem_blocksAmong.mpr ⟨hin y (.tail _ (.head _)), block?_eq_some.mpr hb⟩
      obtain ⟨a, ha⟩ : ∃ a, c.args[i]? = some a := ⟨_, List.getElem?_eq_getElem (hargs ▸ hlt)⟩
      obtain ⟨t, qs, rfl, ht, hsource, hsub⟩ := hfits.source_of_call hfix hmem hc (hblock ▸ hsrc) ha
      obtain ⟨j, v, hj, hv, hv'⟩ := ih ⟨hrest, fun z hz => h.counts z (.tail _ hz)⟩
        (fun z hz => hin z (.tail _ hz)) rfl hfirst hsource
      have hparam : b.params[b.params.idxOf t]? = some t := by
        rw [List.getElem?_eq_getElem (List.idxOf_lt_length_of_mem ht), List.getElem_idxOf]
      exact ⟨j, v, hsub hj, (hvalues i _ t ha hparam).trans hv, hv'⟩

/-- A source that names no block twice names one parameter of a block that it names. -/
theorem filter_defn_eq {ps : List Param} (hnodup : (ps.map Param.defn).Nodup) {q : Param} (hq : q ∈ ps) :
    ps.filter (fun r => r.defn = q.defn) = [q] := by
  refine List.perm_singleton.mp ((List.perm_ext_iff_of_nodup (hnodup.of_map.filter _)
    (List.nodup_singleton q)).mpr fun r => ?_)
  rw [List.mem_filter, List.mem_singleton]
  constructor
  · rintro ⟨hr, hdefn⟩
    exact List.inj_on_of_nodup_map hnodup hr hq (of_decide_eq_true hdefn)
  · rintro rfl
    exact ⟨hq, decide_eq_true rfl⟩

/-- A parameter that is invariant has a definite source. -/
theorem isInvariant_iff {s : Sources} {id : DefnId} {i : Nat} :
    s.isInvariant id i = true ↔ ∃ ps, s.source? id i = some (.join ps) := by
  unfold Sources.isInvariant
  split
  · rename_i ps hps
    exact ⟨fun _ => ⟨ps, hps⟩, fun _ => rfl⟩
  · rename_i hnone
    exact ⟨nofun, fun ⟨ps, hps⟩ => absurd hps (hnone ps)⟩

/-- **Invariant parameters are invariant.** In a program with distinct binders and matching arities the
rounds of the analysis come to an end: in each recursive component of what can be reached, the sources
are such that another round changes nothing. At every moment of a run, the parameters of the body that
is being run have the values of its call. And along any chain of calls, each made in the body of the one
before and all of blocks of one recursive component, a parameter of the last block that the analysis
calls invariant has a source with exactly one parameter of the first block, and the value that the first
call gave to that one. -/
theorem sources_invariant (hp : p.DistinctBinders) (har : p.MatchingArities) :
    (∀ group ∈ p.loops, Sources.round (p.blocksAmong group) (Sources.ofGroup (p.blocksAmong group)) =
      Sources.ofGroup (p.blocksAmong group)) ∧
    ∀ {x : Doing × Machine} {t : Trail}, Walks p x t →
      (∀ code env stack last, x.1 = .body (some code) env stack → t.here.head? = some last →
        ∃ b, p.block last.block = .ok b ∧
          ∀ (k : Nat) (tmp : Temp), b.params[k]? = some tmp → env.lookup tmp = last.args[k]?) ∧
      ∀ group ∈ p.loops, ∀ calls, calls <:+: t.here → (∀ y ∈ calls, y.block ∈ group) →
        ∀ last first, calls.head? = some last → calls.getLast? = some first →
          ∀ i, p.sources.isInvariant last.block i = true → ∃ ps j v,
            p.sources.source? last.block i = some (.join ps) ∧
            ps.filter (fun q => q.defn = first.block) = [⟨first.block, j⟩] ∧
            last.args[i]? = some v ∧ first.args[j]? = some v := by
  refine ⟨fun group _ => (Sources.ofGroup_fixed _).2, fun {x t} hwalk => ⟨?_, ?_⟩⟩
  · intro code env stack last hbody hlast
    have hdoing := (hwalk.fits hp har).doing
    rw [hbody] at hdoing
    obtain ⟨rest, hhere⟩ := List.head?_eq_some_iff.mp hlast
    have hcode := hdoing code rfl
    rw [hhere] at hcode
    obtain ⟨b, hb, -, -, hparams⟩ := hcode
    exact ⟨b, hb, hparams⟩
  · intro group hgroup calls hcalls hin last first hlast hfirst i hi
    have hlineage := (hwalk.fits hp har).lineage
    have hmade := List.IsChain.infix hlineage.made hcalls
    have hchain : Lineage p calls := ⟨hmade, fun y hy => hlineage.counts y (hcalls.subset hy)⟩
    obtain ⟨ps, hps⟩ := isInvariant_iff.mp hi
    have hsrc : (Sources.ofGroup (p.blocksAmong group)).source? last.block i = some (.join ps) := by
      rw [Sources.source?, ← lookup_sources hgroup (hin last (List.mem_of_head? hlast))]
      exact hps
    obtain ⟨j, v, hj, hv, hv'⟩ := exists_first_of_lineage hchain hin hlast hfirst hsrc
    obtain ⟨srcs, hsrcs, hget⟩ := Sources.source?_eq_some hsrc
    have hfits := (Sources.ofGroup_fixed (p.blocksAmong group)).1.sources _ (mem_of_lookup hsrcs) i _ hget
    exact ⟨ps, j, v, hps, filter_defn_eq hfits.2.1 hj, hv, hv'⟩

/-- Two blocks that hand their two parameters to each other, the other way round. -/
def swap : Program :=
  let swaps (name : String) (x y : Temp) (id : DefnId) : Defn :=
    .new name .unknown (.block (.new [x, y] (some (.done (.call ⟨id, [.temp y, .temp x], none⟩)))))
  { Program.empty with defns := #[swaps "there" 0 1 1, swaps "back" 2 3 0], entries := [0] }

theorem swap_blocks {id : DefnId} {d : Defn} (h : swap.defns[id]? = some d) :
    d = swap.defns[0] ∨ d = swap.defns[1] := by
  rcases id with _ | _ | id
  · exact .inl (Option.some.inj h).symm
  · exact .inr (Option.some.inj h).symm
  · simp [swap] at h

/-- A parameter that is handed back and forth: after one call the second one has the first value. -/
theorem sources_swap : swap.DistinctBinders ∧ swap.MatchingArities ∧ swap.sources.isInvariant 1 1 = true ∧
    ∃ ps j v, swap.sources.source? 1 1 = some (.join ps) ∧ ps.filter (fun q => q.defn = 0) = [⟨0, j⟩] ∧
      [Value.word 8, .word 7][1]? = some v ∧ [Value.word 7, .word 8][j]? = some v := by
  have hp : swap.DistinctBinders := by
    intro id b hb
    obtain ⟨d, hd, hbody⟩ := exists_of_block hb
    rcases swap_blocks hd with rfl | rfl <;> cases hbody <;> decide
  have har : swap.MatchingArities := by
    intro id d hd c hc b hb
    rcases swap_blocks hd with rfl | rfl <;> cases List.mem_singleton.mp hc <;>
      rcases hb with hb | hb <;> cases hb <;> rfl
  have hloop : [0, 1] ∈ swap.loops := by
    rw [show swap.loops = [[0, 1]] by cbv]
    exact .head _
  have hinvariant : swap.sources.isInvariant 1 1 = true := by
    unfold Sources.isInvariant Sources.source?
    rw [lookup_sources hloop (by decide)]
    decide +kernel
  have hwalk := (Walks.call (p := swap) (.new 64 0) 0 [.word 7, .word 8]).advance.advance.advance
  have hmove := ((sources_invariant hp har).2 hwalk).2 [0, 1] hloop
    [⟨1, [.word 8, .word 7]⟩, ⟨0, [.word 7, .word 8]⟩] (List.infix_refl _) (by decide) _ _ rfl rfl 1 hinvariant
  exact ⟨hp, har, hinvariant, hmove⟩

end Mil.Program
