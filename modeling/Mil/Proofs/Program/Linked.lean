import Mathlib.Data.List.Nodup
import Mathlib.Logic.Relation
import Mil.Program.Graph
import Mil.Proofs.Program.Outline
import Mil.Proofs.Ty.Reader

/-!
The search in the graph of references ends in a set that is closed under successors and has only what
paths lead to.

Linked programs. Passes over a program look at what can be reached from the entrypoints, and follow
the references that they find there. In a linked program these lead to definitions that can be
reached as well, and what is called is a block.
-/

namespace Mil

theorem nodup_eraseDups (l : List Nat) : l.eraseDups.Nodup := by
  induction hn : l.length using Nat.strongRecOn generalizing l with
  | _ n ih =>
      cases l with
      | nil => exact List.nodup_nil
      | cons a l =>
          rw [List.eraseDups_cons]
          refine List.nodup_cons.mpr ⟨fun ha => ?_, ?_⟩
          · have := List.mem_filter.mp (List.mem_eraseDups.mp ha)
            simp at this
          · refine ih _ ?_ _ rfl
            have := List.length_filter_le (fun b => !b == a) l
            rw [← hn, List.length_cons]
            omega

namespace Successors

/-- A path along successors. -/
abbrev Path (next : Successors) : Nat → Nat → Prop := Relation.ReflTransGen fun v w => w ∈ next v

variable {next : Successors} {bound : Nat}

/-! ### Reachable vertices -/

theorem path_of_mem_spread {fuel : Nat} {seen frontier : List Nat} {w : Nat}
    (h : w ∈ spread next fuel seen frontier) : w ∈ seen ∨ ∃ v ∈ frontier, Path next v w := by
  induction fuel generalizing seen frontier with
  | zero => exact .inl h
  | succ fuel ih =>
      rw [spread] at h
      split at h
      · exact .inl h
      · have hnew : ∀ v ∈ (frontier.filter fun v => v ∉ seen).eraseDups, v ∈ frontier :=
          fun v hv => (List.mem_filter.mp (List.mem_eraseDups.mp hv)).1
        rcases ih h with hw | ⟨v, hv, hpath⟩
        · rcases List.mem_append.mp hw with hw | hw
          · exact .inl hw
          · exact .inr ⟨w, hnew w hw, .refl⟩
        · obtain ⟨u, hu, hv⟩ := List.mem_flatMap.mp hv
          exact .inr ⟨u, hnew u hu, .head hv hpath⟩

theorem length_le_of_nodup_of_lt {l : List Nat} (h : l.Nodup) (hlt : ∀ v ∈ l, v < bound) :
    l.length ≤ bound := by
  have hle := h.length_le_of_subset fun v hv => List.mem_range.mpr (hlt v hv)
  rwa [List.length_range] at hle

/-- With fuel for the vertices that have not been seen, the search ends in a set that is closed
under successors. The search stays among vertices of which there are no more than the bound. -/
theorem spread_closed {A : Nat → Prop} (hA : ∀ v, A v → v < bound) (fuel : Nat)
    (seen frontier : List Nat) (hnext : ∀ v, A v → ∀ w ∈ next v, A w) (hfront : ∀ v ∈ frontier, A v)
    (hseen : ∀ v ∈ seen, A v) (hnodup : seen.Nodup) (hfuel : bound < seen.length + fuel)
    (hinv : ∀ v ∈ seen, ∀ w ∈ next v, w ∈ seen ∨ w ∈ frontier) :
    (∀ v, v ∈ seen ∨ v ∈ frontier → v ∈ spread next fuel seen frontier) ∧
      ∀ v ∈ spread next fuel seen frontier, ∀ w ∈ next v, w ∈ spread next fuel seen frontier := by
  induction fuel generalizing seen frontier with
  | zero =>
      have := length_le_of_nodup_of_lt hnodup fun v hv => hA v (hseen v hv)
      omega
  | succ fuel ih =>
      rw [spread]
      split
      · rename_i hnew
        have hfront' : ∀ v ∈ frontier, v ∈ seen := by
          intro v hv
          by_contra hns
          have : v ∈ (frontier.filter fun v => v ∉ seen).eraseDups :=
            List.mem_eraseDups.mpr (List.mem_filter.mpr ⟨hv, by simpa using hns⟩)
          rw [hnew] at this
          cases this
        exact ⟨fun v hv => hv.elim id (hfront' v),
          fun v hv w hw => (hinv v hv w hw).elim id (hfront' w)⟩
      · rename_i hne
        generalize hnew : (frontier.filter fun v => v ∉ seen).eraseDups = new at hne ⊢
        have hmem : ∀ v, v ∈ new ↔ v ∈ frontier ∧ v ∉ seen := fun v => by
          rw [← hnew, List.mem_eraseDups, List.mem_filter]
          simp
        have hpos : 0 < new.length := by
          cases new with
          | nil => exact absurd rfl hne
          | cons v new => simp
        have hgrow := ih (seen ++ new) (new.flatMap next)
          (fun v hv => by
            obtain ⟨u, hu, hv⟩ := List.mem_flatMap.mp hv
            exact hnext u (hfront u ((hmem u).mp hu).1) v hv)
          (fun v hv => (List.mem_append.mp hv).elim (hseen v) fun hv => hfront v ((hmem v).mp hv).1)
          (List.nodup_append.mpr ⟨hnodup, hnew ▸ nodup_eraseDups _,
            fun a ha b hb hab => ((hmem b).mp hb).2 (hab ▸ ha)⟩)
          (by rw [List.length_append]; omega)
          (fun v hv w hw => by
            rcases List.mem_append.mp hv with hv | hv
            · by_cases hws : w ∈ seen
              · exact .inl (List.mem_append_left _ hws)
              · have hw := (hinv v hv w hw).resolve_left hws
                exact .inl (List.mem_append_right _ ((hmem w).mpr ⟨hw, hws⟩))
            · exact .inr (List.mem_flatMap.mpr ⟨v, hv, hw⟩))
        refine ⟨fun v hv => hgrow.1 v (.inl ?_), hgrow.2⟩
        by_cases hvs : v ∈ seen
        · exact List.mem_append_left _ hvs
        · exact List.mem_append_right _ ((hmem v).mpr ⟨hv.resolve_left hvs, hvs⟩)

end Successors

namespace Program

theorem lt_of_reachable {p : Program} {id : DefnId} (hid : id ∈ p.reachable) : id < p.defns.size :=
  List.mem_range.mp (List.mem_filter.mp hid).1

theorem exists_of_reachable {p : Program} {id : DefnId} (hid : id ∈ p.reachable) :
    ∃ d, p.defns[id]? = some d :=
  ⟨_, Array.getElem?_eq_getElem (lt_of_reachable hid)⟩

/-- The entrypoints can be reached, and what is referred to in a definition that can be reached, if
no reference leads out of the program. -/
theorem reachable_closed {p : Program} {A : DefnId → Prop} (hA : ∀ i, A i → i < p.defns.size)
    (hentries : ∀ id ∈ p.entries, A id) (hnext : ∀ i, A i → ∀ j ∈ p.dependencies i, A j) :
    (∀ id ∈ p.entries, id ∈ p.reachable) ∧
      (∀ i ∈ p.reachable, ∀ j ∈ p.dependencies i, j ∈ p.reachable) ∧ ∀ i ∈ p.reachable, A i := by
  obtain ⟨hroot, hclosed⟩ := Successors.spread_closed hA (p.defns.size + 1) [] p.entries hnext
    hentries (fun _ h => nomatch h) List.nodup_nil (by simp) fun _ h => nomatch h
  have hpath {v i : DefnId} (hv : A v) (h : Successors.Path p.dependencies v i) : A i := by
    induction h with
    | refl => exact hv
    | tail _ hstep ih => exact hnext _ ih _ hstep
  have hwithin : ∀ i ∈ p.reachable, A i := by
    intro i hi
    rcases Successors.path_of_mem_spread (of_decide_eq_true (List.mem_filter.mp hi).2) with
      h | ⟨v, hv, h⟩
    · cases h
    · exact hpath (hentries v hv) h
  have hmem {id : DefnId} (hlt : id < p.defns.size)
      (hid : id ∈ Successors.reach p.dependencies p.defns.size p.entries) : id ∈ p.reachable :=
    List.mem_filter.mpr ⟨List.mem_range.mpr hlt, decide_eq_true hid⟩
  refine ⟨fun id hid => hmem (hA id (hentries id hid)) (hroot id (.inr hid)), fun i hi j hj => ?_,
    hwithin⟩
  exact hmem (hA j (hnext i (hwithin i hi) j hj))
    (hclosed i (of_decide_eq_true (List.mem_filter.mp hi).2) j hj)

end Program

/-! ### Definitions by position -/

section Positions

variable {p : Program} {id : DefnId}

theorem defn_eq {d : Defn} (h : p.defns[id]? = some d) : p.defn id = .ok d := by
  rw [Program.defn, h]

theorem block_eq {d : Defn} {b : Block} (h : p.defns[id]? = some d)
    (hb : d.body = .block b) : p.block id = .ok b := by
  unfold Program.block
  rw [defn_eq h]
  dsimp only [Bind.bind, Except.bind]
  rw [hb]
  rfl

theorem closure_eq {d : Defn} {k : Closure} (h : p.defns[id]? = some d)
    (hk : d.body = .closure k) : p.closure id = .ok k := by
  unfold Program.closure
  rw [defn_eq h]
  dsimp only [Bind.bind, Except.bind]
  rw [hk]
  rfl

theorem exists_of_defn {d : Defn} (h : p.defn id = .ok d) : p.defns[id]? = some d := by
  unfold Program.defn at h
  split at h
  · rename_i hd
    rw [hd, Except.ok.inj h]
  · cases h

theorem exists_of_block {b : Block} (h : p.block id = .ok b) :
    ∃ d, p.defns[id]? = some d ∧ d.body = .block b := by
  obtain ⟨d, hd, h⟩ := Except.bind_eq_ok.mp h
  refine ⟨d, exists_of_defn hd, ?_⟩
  split at h
  · rename_i hb
    cases h
    exact hb
  · cases h

theorem exists_of_closure {k : Closure} (h : p.closure id = .ok k) :
    ∃ d, p.defns[id]? = some d ∧ d.body = .closure k := by
  obtain ⟨d, hd, h⟩ := Except.bind_eq_ok.mp h
  refine ⟨d, exists_of_defn hd, ?_⟩
  split at h
  · rename_i hk
    cases h
    exact hk
  · cases h

end Positions

/-! ### References -/

/-- All temporaries among the operands are below a number. -/
def AtomsBelow (n : Nat) (as : List Atom) : Prop := ∀ t, .temp t ∈ as → t < n

/-- The call that a tail makes. -/
def Tail.call? : Tail → Option BlockCall
  | .call c => some c
  | _ => none

/-- The calls of a body. -/
def Code.allCalls : Code → List BlockCall
  | .bind _ t next => t.call?.toList ++ next.allCalls
  | .done t => t.call?.toList
  | c => c.calls

/-- The calls of a definition. -/
def DefnBody.calls : DefnBody → List BlockCall
  | .block b => (b.body.map Code.allCalls).getD []
  | .closure k => (k.tail.map fun t => t.call?.toList).getD []
  | .top t => (t.tail.map fun t => t.call?.toList).getD []
  | .external _ => []

/-- Nothing has been replaced, and from the entrypoints references lead only to definitions that can
be reached, and calls only to blocks. -/
structure Program.Linked (p : Program) : Prop where
  whole : ∀ {id : DefnId} {d : Defn}, p.defns[id]? = some d → d.replacedBy = none
  entries : ∀ id ∈ p.entries, id ∈ p.reachable
  refs : ∀ {id : DefnId} {d : Defn}, id ∈ p.reachable → p.defns[id]? = some d →
    ∀ r ∈ d.body.refs, r ∈ p.reachable
  calls : ∀ {id : DefnId} {d : Defn}, id ∈ p.reachable → p.defns[id]? = some d →
    ∀ c ∈ d.body.calls, ∃ b, p.block c.block = .ok b

/-- Nothing that can be reached has been replaced, and from the entrypoints references lead only to
definitions that can be reached, and calls only to blocks. So it is where duplicates have been merged: they
are there, but nothing refers to them. -/
structure Program.Direct (p : Program) : Prop where
  standing : ∀ {id : DefnId} {d : Defn}, id ∈ p.reachable → p.defns[id]? = some d → d.replacedBy = none
  entries : ∀ id ∈ p.entries, id ∈ p.reachable
  refs : ∀ {id : DefnId} {d : Defn}, id ∈ p.reachable → p.defns[id]? = some d →
    ∀ r ∈ d.body.refs, r ∈ p.reachable
  calls : ∀ {id : DefnId} {d : Defn}, id ∈ p.reachable → p.defns[id]? = some d →
    ∀ c ∈ d.body.calls, ∃ b, p.block c.block = .ok b

/-- From the entrypoints references lead only to definitions that can be reached, whatever has been
replaced. -/
structure Program.Contained (p : Program) : Prop where
  entries : ∀ id ∈ p.entries, id ∈ p.reachable
  refs : ∀ {id : DefnId} {d : Defn}, id ∈ p.reachable → p.defns[id]? = some d →
    ∀ r ∈ d.body.refs, r ∈ p.reachable

theorem Program.Linked.contained {p : Program} (h : p.Linked) : p.Contained := ⟨h.entries, h.refs⟩

theorem Program.Linked.direct {p : Program} (h : p.Linked) : p.Direct :=
  ⟨fun _ hd => h.whole hd, h.entries, h.refs, h.calls⟩

/-- A definition that is not replaced stands for itself. -/
theorem Program.resolve_of_standing {p : Program} {id : DefnId}
    (h : ∀ {d : Defn}, p.defns[id]? = some d → d.replacedBy = none) : p.resolve id = id := by
  have hnone : (p.defns[id]?).bind Defn.replacedBy = none := by
    cases hd : p.defns[id]? with
    | none => rfl
    | some d => exact h hd
  unfold resolve
  cases p.defns.size with
  | zero => rfl
  | succ fuel => rw [resolveWith, hnone]

theorem Program.Direct.resolve {p : Program} (h : p.Direct) {id : DefnId} (hid : id ∈ p.reachable) :
    p.resolve id = id :=
  resolve_of_standing fun hd => h.standing hid hd

namespace Program

variable {p : Program}

theorem mem_dependencies {i j : DefnId} :
    j ∈ p.dependencies i ↔ ∃ d, p.defns[i]? = some d ∧ j ∈ d.body.refs := by
  unfold dependencies
  cases p.defns[i]? with
  | none => simp
  | some d => simp [DefnBody.dependencies, List.mem_eraseDups]

section Closed

variable {A : DefnId → Prop} (hA : ∀ id, A id → id < p.defns.size) (hentries : ∀ id ∈ p.entries, A id)
  (hrefs : ∀ {id : DefnId} {d : Defn}, A id → p.defns[id]? = some d → ∀ r ∈ d.body.refs, A r)
  (hcalls : ∀ {id : DefnId} {d : Defn}, A id → p.defns[id]? = some d →
    ∀ c ∈ d.body.calls, ∃ b, p.block c.block = .ok b)

include hA hentries hrefs hcalls

/-- Nothing that can be reached is replaced if the entrypoints are in a set of definitions that are not
replaced and that references do not leave. -/
theorem direct_of_closed
    (hstanding : ∀ {id : DefnId} {d : Defn}, A id → p.defns[id]? = some d → d.replacedBy = none) :
    p.Direct ∧ ∀ id ∈ p.reachable, A id := by
  obtain ⟨hroot, hclosed, hwithin⟩ := reachable_closed hA hentries fun i hi j hj => by
    obtain ⟨d, hd, hj⟩ := mem_dependencies.mp hj
    exact hrefs hi hd j hj
  refine ⟨⟨fun hid hd => hstanding (hwithin _ hid) hd, hroot, fun {id d} hid hd r hr => ?_,
    fun hid hd => hcalls (hwithin _ hid) hd⟩, hwithin⟩
  exact hclosed id hid r (mem_dependencies.mpr ⟨d, hd, hr⟩)

theorem linked_of_closed
    (hwhole : ∀ {id : DefnId} {d : Defn}, p.defns[id]? = some d → d.replacedBy = none) :
    p.Linked ∧ ∀ id ∈ p.reachable, A id := by
  obtain ⟨⟨-, hroot, hreach, hblocks⟩, hwithin⟩ :=
    direct_of_closed hA hentries hrefs hcalls fun _ hd => hwhole hd
  exact ⟨⟨hwhole, hroot, hreach, hblocks⟩, hwithin⟩

end Closed

end Program

end Mil
