import Mil.Optimize.Rounds
import Mil.Proofs.Optimize.Shrink
import Mil.Proofs.Optimize.Remaining

/-!
Replacements never run in circles. Only the merging of duplicates replaces a definition, and always by one
before it: it goes through the definitions in order, and its table has those that it has passed. The other
passes change bodies and append definitions, so what replaces what stays as it is. A chain of replacements
goes down and ends, however many rounds have added to it, and where references were made to follow the
chains they are at their ends. Once the duplicates of a linked program are merged, nothing that can be reached
is replaced.
-/

namespace Mil

variable {p q : Program} {id k last : DefnId}

/-! ### Chains of replacements -/

namespace Program

/-- What the definition at a position is replaced by, if it is. -/
def link? (p : Program) (id : DefnId) : Option DefnId := (p.defns[id]?).bind Defn.replacedBy

/-- What replaces a definition comes before it. -/
def LinksDescend (p : Program) : Prop := ∀ ⦃id k : DefnId⦄, p.link? id = some k → k < id

/-- The replacements that start at one definition come to an end at another, which is not replaced. -/
inductive ChainEnds (p : Program) : DefnId → DefnId → Prop
  | stop {id : DefnId} (h : p.link? id = none) : ChainEnds p id id
  | step {id k last : DefnId} (h : p.link? id = some k) (hrest : ChainEnds p k last) : ChainEnds p id last

theorem link?_eq_none_of_size_le (h : p.defns.size ≤ id) : p.link? id = none := by
  rw [link?, Array.getElem?_eq_none h, Option.bind_none]

theorem ChainEnds.link?_eq_none (h : p.ChainEnds id last) : p.link? last = none := by
  induction h with
  | stop h => exact h
  | step _ _ ih => exact ih

/-- As many steps as there are definitions before it are enough for the chain of a definition. -/
theorem LinksDescend.chainEnds_resolveWith (h : p.LinksDescend) {fuel : Nat} (hid : id < fuel) :
    p.ChainEnds id (p.resolveWith fuel id) := by
  induction fuel generalizing id with
  | zero => exact absurd hid (Nat.not_lt_zero id)
  | succ fuel ih =>
      cases hlink : p.link? id with
      | none =>
          rw [Optimize.resolveWith_of_none hlink]
          exact .stop hlink
      | some k =>
          have hk : k < id := h hlink
          have hstep : p.resolveWith (fuel + 1) id = p.resolveWith fuel k := by
            rw [resolveWith, ← link?, hlink]
            exact if_neg hk.ne
          rw [hstep]
          exact .step hlink (ih (hk.trans_le (Nat.le_of_lt_succ hid)))

theorem LinksDescend.chainEnds_resolve (h : p.LinksDescend) (id : DefnId) : p.ChainEnds id (p.resolve id) := by
  by_cases hid : id < p.defns.size
  · exact h.chainEnds_resolveWith hid
  · have hnone : p.link? id = none := link?_eq_none_of_size_le (Nat.not_lt.mp hid)
    rw [resolve, Optimize.resolveWith_of_none hnone]
    exact .stop hnone

theorem LinksDescend.resolve_resolve (h : p.LinksDescend) (id : DefnId) :
    p.resolve (p.resolve id) = p.resolve id :=
  Optimize.resolveWith_of_none (h.chainEnds_resolve id).link?_eq_none _

theorem link?_modify (f : Defn → Defn) (hf : ∀ d, (f d).replacedBy = d.replacedBy) :
    (p.modify id f).link? = p.link? := by
  funext i
  rw [link?, link?, modify, Array.getElem?_modify]
  split
  · cases p.defns[i]? with
    | none => rfl
    | some d => exact hf d
  · rfl

/-- A definition that is appended without a replacement adds no link. -/
theorem link?_add {d : Defn} (hd : d.replacedBy = none) : (p.add d).2.link? = p.link? := by
  funext i
  rw [link?, link?, add, Array.getElem?_push]
  split
  · rename_i hi
    rw [hi, Array.getElem?_eq_none (Nat.le_refl _), Option.bind_none, Option.bind_some, hd]
  · rfl

theorem link?_redirect (p : Program) : p.redirect.link? = p.link? := by
  funext i
  rw [link?, link?, redirect, Array.getElem?_map, Option.bind_map]
  rfl

end Program

/-! ### References that follow replacements -/

/-- The closures that were derived from a closure. -/
def DefnBody.derivedClosures : DefnBody → List DefnId
  | .closure k => k.derived.map Derived.closure
  | _ => []

/-- All definitions that a definition refers to: those that its code or its implementation names, and the
closures that were derived from it. -/
def DefnBody.references (b : DefnBody) : List DefnId := b.refs ++ b.derivedClosures

/-- Every reference in the program leads to a definition that is not replaced. -/
def Program.Redirected (p : Program) : Prop :=
  ∀ ⦃id : DefnId⦄ ⦃d : Defn⦄, p.defns[id]? = some d → ∀ r ∈ d.body.references, p.resolve r = r

section References

variable {f : DefnId → DefnId}

theorem Atom.defn?_mapDefns (a : Atom) : (a.mapDefns f).defn? = a.defn?.map f := by
  cases a <;> rfl

theorem defns_mapDefns (as : List Atom) :
    (as.map (Atom.mapDefns f)).filterMap Atom.defn? = (as.filterMap Atom.defn?).map f := by
  rw [List.filterMap_map, List.map_filterMap]
  exact congrArg (List.filterMap · as) (funext Atom.defn?_mapDefns)

theorem Tail.refs_mapDefns (t : Tail) : (t.mapDefns f).refs = t.refs.map f := by
  have hatoms : (t.mapDefns f).atoms = t.atoms.map (Atom.mapDefns f) := by
    cases t <;> rfl
  have htarget : (t.mapDefns f).target? = t.target?.map f := by
    cases t <;> rfl
  rw [refs, refs, hatoms, htarget, defns_mapDefns, List.map_append, Option.toList_map]

theorem BlockCall.refs_mapDefns (c : BlockCall) : (Tail.call (c.mapDefns f)).refs = (Tail.call c).refs.map f :=
  Tail.refs_mapDefns (.call c)

theorem Code.refs_mapDefns (c : Code) : (c.mapDefns f).refs = c.refs.map f := by
  induction c with
  | bind vars t next ih => rw [mapDefns, refs, refs, Tail.refs_mapDefns, ih, List.map_append]
  | done t => exact t.refs_mapDefns
  | branch cond c d =>
      rw [mapDefns, refs, refs, BlockCall.refs_mapDefns, BlockCall.refs_mapDefns, Atom.defn?_mapDefns,
        Option.toList_map, List.map_append, List.map_append]
  | case scrut alts default =>
      have hcalls : (Code.case scrut alts default |>.mapDefns f).calls =
          (Code.case scrut alts default).calls.map (BlockCall.mapDefns f) := by
        cases default <;> simp [mapDefns, calls]
      rw [mapDefns] at hcalls ⊢
      rw [refs, refs, hcalls, Atom.defn?_mapDefns, Option.toList_map, List.map_append, List.flatMap_map,
        List.map_flatMap]
      simp only [BlockCall.refs_mapDefns]

theorem DefnBody.refs_mapDefns (b : DefnBody) : (b.mapDefns f).refs = b.refs.map f := by
  cases b with
  | block b =>
      rw [mapDefns, refs, refs]
      cases b.body with
      | none => rfl
      | some c => exact c.refs_mapDefns
  | closure k =>
      rw [mapDefns, refs, refs]
      cases k.tail with
      | none => rfl
      | some t => exact t.refs_mapDefns
  | top l =>
      rw [mapDefns, refs, refs]
      cases l.tail with
      | none => rfl
      | some t => exact t.refs_mapDefns
  | external e => exact Option.toList_map

theorem DefnBody.derivedClosures_mapDefns (b : DefnBody) :
    (b.mapDefns f).derivedClosures = b.derivedClosures.map f := by
  cases b with
  | closure k =>
      rw [mapDefns, derivedClosures, derivedClosures, List.map_map, List.map_map]
      rfl
  | _ => rfl

theorem DefnBody.references_mapDefns (b : DefnBody) : (b.mapDefns f).references = b.references.map f := by
  rw [references, references, refs_mapDefns, derivedClosures_mapDefns, List.map_append]

theorem Tail.call?_mapDefns (t : Tail) : (t.mapDefns f).call? = t.call?.map (BlockCall.mapDefns f) := by
  cases t <;> rfl

theorem Code.allCalls_mapDefns (c : Code) : (c.mapDefns f).allCalls = c.allCalls.map (BlockCall.mapDefns f) := by
  induction c with
  | bind vars t next ih =>
      rw [Code.mapDefns, Code.allCalls, Code.allCalls, Tail.call?_mapDefns, ih, Option.toList_map,
        List.map_append]
  | done t => rw [Code.mapDefns, Code.allCalls, Code.allCalls, Tail.call?_mapDefns, Option.toList_map]
  | branch cond c d => rfl
  | case scrut alts default => cases default <;> simp [Code.mapDefns, Code.allCalls, Code.calls]

theorem DefnBody.calls_mapDefns (b : DefnBody) : (b.mapDefns f).calls = b.calls.map (BlockCall.mapDefns f) := by
  have htail (t : Option Tail) : ((t.map (Tail.mapDefns f)).map fun t => t.call?.toList).getD [] =
      ((t.map fun t => t.call?.toList).getD []).map (BlockCall.mapDefns f) := by
    cases t with
    | none => rfl
    | some t => exact (congrArg Option.toList (Tail.call?_mapDefns t)).trans Option.toList_map
  cases b with
  | block b =>
      rw [DefnBody.mapDefns, DefnBody.calls, DefnBody.calls]
      cases b.body with
      | none => rfl
      | some c => exact Code.allCalls_mapDefns c
  | closure k => exact htail k.tail
  | top l => exact htail l.tail
  | external e => rfl

end References

theorem Program.LinksDescend.redirected (h : p.LinksDescend) : p.redirect.Redirected := by
  intro id d hd r hr
  rw [redirect, Array.getElem?_map, Option.map_eq_some_iff] at hd
  obtain ⟨d₀, -, rfl⟩ := hd
  rw [DefnBody.references_mapDefns, List.mem_map] at hr
  obtain ⟨r₀, -, rfl⟩ := hr
  rw [Optimize.resolve_redirect]
  exact h.resolve_resolve r₀

namespace Optimize

/-! ### Passes that replace nothing -/

/-- Whatever the step gives, it leaves the replacements as they are. -/
def KeepsLinks {α : Type} (x : PassM α) : Prop :=
  ∀ ⦃s : Progress⦄ ⦃a : α⦄ ⦃s' : Progress⦄, Gives x s a s' → s'.program.link? = s.program.link?

section KeepsLinks

variable {α β : Type}

theorem keepsLinks_pure (a : α) : KeepsLinks (pure a) := by
  intro s b s' h
  obtain ⟨-, rfl⟩ := gives_pure.mp h
  rfl

theorem KeepsLinks.bind {x : PassM α} {f : α → PassM β} (hx : KeepsLinks x) (hf : ∀ a, KeepsLinks (f a)) :
    KeepsLinks (x >>= f) := by
  intro s b s' h
  obtain ⟨a, s₁, hgives, hrest⟩ := gives_bind.mp h
  exact (hf a hrest).trans (hx hgives)

theorem keepsLinks_get : KeepsLinks get := by
  intro s a s' h
  obtain ⟨-, rfl⟩ := gives_get.mp h
  rfl

theorem keepsLinks_throw (e : Defect) : KeepsLinks (throw e : PassM α) :=
  fun _ _ _ h => absurd h not_gives_throw

/-- What comes after an error is not reached. -/
theorem keepsLinks_throw_bind (e : Defect) (f : α → PassM β) : KeepsLinks (throw e >>= f) := by
  intro s b s' h
  obtain ⟨a, s₁, hthrow, -⟩ := gives_bind.mp h
  exact absurd hthrow not_gives_throw

theorem keepsLinks_modify {f : Progress → Progress} (hf : ∀ s, (f s).program = s.program) :
    KeepsLinks (modify f : PassM Unit) := by
  intro s a s' h
  obtain rfl := gives_modify.mp h
  rw [hf]

theorem keepsLinks_onProgram {f : Program → α × Program} (hf : ∀ p, (f p).2.link? = p.link?) :
    KeepsLinks (PassM.onProgram f) := by
  intro s a s' h
  cases h
  exact hf s.program

theorem keepsLinks_lift (x : Except Defect α) : KeepsLinks (liftM x : PassM α) := by
  intro s a s' h
  cases x with
  | error e => cases h
  | ok a =>
      cases h
      rfl

theorem keepsLinks_forM {f : α → PassM Unit} (hf : ∀ a, KeepsLinks (f a)) (as : List α) :
    KeepsLinks (as.forM f) := by
  intro s u s' h
  exact gives_forM (I := fun s₁ => s₁.program.link? = s.program.link?)
    (fun a _ _ _ hs hstep => (hf a hstep).trans hs) rfl h

theorem keepsLinks_changed : KeepsLinks PassM.changed := keepsLinks_modify fun _ => rfl

theorem keepsLinks_change (a : α) : KeepsLinks (PassM.change a) :=
  keepsLinks_changed.bind fun _ => keepsLinks_pure a

theorem keepsLinks_freshTemps (types : List (Option Ty)) : KeepsLinks (PassM.freshTemps types) :=
  keepsLinks_onProgram fun _ => rfl

theorem keepsLinks_add {d : Defn} (hd : d.replacedBy = none) : KeepsLinks (PassM.add d) :=
  keepsLinks_onProgram fun _ => Program.link?_add hd

theorem keepsLinks_setBody (id : DefnId) (body : DefnBody) : KeepsLinks (PassM.setBody id body) :=
  keepsLinks_onProgram fun _ => Program.link?_modify _ fun _ => rfl

theorem keepsLinks_definition (id : DefnId) : KeepsLinks (PassM.definition id) := by
  refine keepsLinks_get.bind fun s => ?_
  split
  · exact keepsLinks_pure _
  · exact keepsLinks_throw _

theorem keepsLinks_block (id : DefnId) : KeepsLinks (PassM.block id) := by
  refine keepsLinks_get.bind fun s => ?_
  split
  · exact keepsLinks_pure _
  · exact keepsLinks_throw _

theorem keepsLinks_closure (id : DefnId) : KeepsLinks (PassM.closure id) := by
  refine keepsLinks_get.bind fun s => ?_
  split
  · exact keepsLinks_pure _
  · exact keepsLinks_throw _

/-- A pass over bodies replaces nothing if the steps on code do not. -/
theorem keepsLinks_onBody {code : Code → PassM Code} {tail : Tail → PassM Tail}
    (hcode : ∀ c, KeepsLinks (code c)) (htail : ∀ t, KeepsLinks (tail t)) (id : DefnId) :
    KeepsLinks (PassM.onBody code tail id) := by
  refine (keepsLinks_definition id).bind fun d => ?_
  split
  · split
    · exact keepsLinks_pure _
    · exact (hcode _).bind fun c => keepsLinks_setBody id _
  · split
    · exact keepsLinks_pure _
    · exact (htail _).bind fun t => keepsLinks_setBody id _
  · split
    · exact keepsLinks_pure _
    · exact (htail _).bind fun t => keepsLinks_setBody id _
  · exact keepsLinks_pure _

/-- A pass that keeps replacements leaves the links of the program. -/
theorem KeepsLinks.run {x : PassM Unit} (hx : KeepsLinks x) {changed : Bool} (h : PassM.run x p = .ok (changed, q)) :
    q.link? = p.link? := by
  obtain ⟨⟨_, s⟩, hgives, heq⟩ := Except.map_eq_ok h
  obtain ⟨rfl, rfl⟩ := Prod.mk.inj heq
  exact hx hgives

end KeepsLinks

/-! ### Simplification -/

theorem keepsLinks_rebuild (params : List (Temp × Known)) (carriers : List Temp) :
    KeepsLinks (rebuild params carriers) := by
  induction params generalizing carriers with
  | nil => exact keepsLinks_pure _
  | cons q params ih =>
      obtain ⟨param, known⟩ := q
      cases known with
      | none => exact (ih _).bind fun _ => keepsLinks_pure _
      | some known =>
          refine keepsLinks_get.bind fun s => ?_
          refine (keepsLinks_freshTemps _).bind fun vs => ?_
          exact (ih _).bind fun _ => keepsLinks_pure _

theorem keepsLinks_makeDerived (id : DefnId) (d : Defn) (k : Closure) (known : List Known) :
    KeepsLinks (makeDerived id d k known) := by
  refine keepsLinks_get.bind fun _ => ?_
  refine (keepsLinks_freshTemps _).bind fun _ => ?_
  refine (keepsLinks_freshTemps _).bind fun _ => ?_
  refine (keepsLinks_freshTemps _).bind fun _ => ?_
  refine (keepsLinks_freshTemps _).bind fun _ => ?_
  refine (keepsLinks_rebuild _ _).bind fun _ => ?_
  dsimp only
  split
  · refine (keepsLinks_pure _).bind fun _ => keepsLinks_get.bind fun _ => ?_
    split
    · refine (keepsLinks_pure _).bind fun _ => ?_
      refine (keepsLinks_add rfl).bind fun _ => (keepsLinks_add rfl).bind fun _ => ?_
      exact (keepsLinks_setBody id _).bind fun _ => keepsLinks_pure _
    · exact keepsLinks_throw_bind _ _
  · exact keepsLinks_throw_bind _ _

theorem keepsLinks_derive (id : DefnId) (known : List Known) : KeepsLinks (derive id known) := by
  refine (keepsLinks_definition id).bind fun d => (keepsLinks_closure id).bind fun k => ?_
  split
  · exact keepsLinks_pure _
  · split
    · exact keepsLinks_throw_bind _ _
    · exact keepsLinks_makeDerived id d k known

namespace Simplify

theorem keepsLinks_prim (size : Int) (f : Facts) (q : Prim) (args : List Atom) (inst : Option BlockType) :
    KeepsLinks (prim size f q args inst) := by
  unfold prim
  split
  · exact keepsLinks_change _
  · split
    · exact keepsLinks_change _
    · split
      · exact keepsLinks_change _
      · exact keepsLinks_pure _

theorem keepsLinks_enter (f : Facts) (fn : Atom) (args : List Atom) : KeepsLinks (enter f fn args) := by
  unfold enter
  split
  · exact keepsLinks_pure _
  · refine (keepsLinks_closure _).bind fun k => ?_
    split
    · exact keepsLinks_pure _
    · split
      · exact keepsLinks_change _
      · exact keepsLinks_pure _

theorem keepsLinks_select (f : Facts) (k : Cfun) (field : Int) (arg : Atom) (inst : Option AllocType) :
    KeepsLinks (select f k field arg inst) := by
  unfold select
  split
  · split
    · exact keepsLinks_change _
    · exact keepsLinks_pure _
  · exact keepsLinks_pure _

theorem keepsLinks_allocate (f : Facts) (id : DefnId) (args : List Atom) (inst : Option AllocType) :
    KeepsLinks (allocate f id args inst) := by
  unfold allocate
  dsimp only
  split
  · refine (keepsLinks_derive _ _).bind fun _ => (keepsLinks_closure _).bind fun _ => ?_
    exact keepsLinks_change _
  · exact keepsLinks_pure _

theorem keepsLinks_tail (size : Int) (f : Facts) (t : Tail) : KeepsLinks (tail size f t) := by
  unfold tail
  split
  · exact keepsLinks_prim size f _ _ _
  · exact keepsLinks_enter f _ _
  · exact keepsLinks_select f _ _ _ _
  · exact keepsLinks_allocate f _ _ _
  · exact keepsLinks_pure _

theorem keepsLinks_branch (f : Facts) (cond : Atom) (ifTrue ifFalse : BlockCall) :
    KeepsLinks (branch f cond ifTrue ifFalse) := by
  unfold branch
  split
  · exact keepsLinks_change _
  · split
    · split
      · exact keepsLinks_change _
      · exact keepsLinks_pure _
    · exact keepsLinks_pure _

theorem keepsLinks_choose (f : Facts) (scrut : Atom) (alts : List (Cfun × BlockCall))
    (default : Option BlockCall) : KeepsLinks (choose f scrut alts default) := by
  unfold choose
  split
  · split
    · exact keepsLinks_change _
    · exact keepsLinks_pure _
  · exact keepsLinks_pure _

theorem keepsLinks_code (size : Int) (f : Facts) (c : Code) : KeepsLinks (code size f c) := by
  induction c generalizing f with
  | bind vars t next ih =>
      refine (keepsLinks_tail size f t).bind fun t => ?_
      split
      · exact keepsLinks_change _
      · dsimp only
        split
        · exact keepsLinks_changed.bind fun _ => ih _
        · exact (ih _).bind fun _ => keepsLinks_pure _
  | done t => exact (keepsLinks_tail size f t).bind fun _ => keepsLinks_pure _
  | branch cond c d => exact keepsLinks_branch f _ _ _
  | case scrut alts default => exact keepsLinks_choose f _ _ _

theorem keepsLinks_body (size : Int) (c : Code) : KeepsLinks (body size c) := by
  refine (keepsLinks_code size _ c).bind fun c => ?_
  obtain ⟨c, removed⟩ := removeDead c
  have hcount : KeepsLinks (modify fun s => { s with changes := s.changes + removed }) :=
    keepsLinks_modify fun _ => rfl
  exact hcount.bind fun _ => keepsLinks_pure c

end Simplify

theorem link?_simplify {size : Int} {changed : Bool} (h : simplify size p = .ok (changed, q)) :
    q.link? = p.link? :=
  (keepsLinks_forM
    (keepsLinks_onBody (Simplify.keepsLinks_body size) (Simplify.keepsLinks_tail size .empty)) _).run h

/-! ### Inlining -/

namespace Inline

variable (limits : Limits)

theorem keepsLinks_target (self : Option DefnId) (t : Tail) : KeepsLinks (target? limits self t) := by
  unfold target?
  split
  · split
    · exact keepsLinks_pure _
    · refine (keepsLinks_block _).bind fun b => ?_
      split
      · exact keepsLinks_pure _
      · split
        · exact keepsLinks_pure _
        · exact keepsLinks_pure _
  · exact keepsLinks_pure _

theorem keepsLinks_copy (ρ : Replacement) (c : Code) : KeepsLinks (copy ρ c) :=
  keepsLinks_onProgram fun _ => rfl

theorem keepsLinks_code (self : DefnId) (c : Code) : KeepsLinks (code limits self c) := by
  induction c with
  | bind vars t next ih =>
      refine ih.bind fun next => (keepsLinks_target limits _ t).bind fun target => ?_
      split
      · split
        · exact keepsLinks_changed.bind fun _ => (keepsLinks_copy _ _).bind fun _ => keepsLinks_pure _
        · exact keepsLinks_pure _
      · exact keepsLinks_pure _
  | done t =>
      refine (keepsLinks_target limits _ t).bind fun target => ?_
      split
      · exact keepsLinks_changed.bind fun _ => keepsLinks_copy _ _
      · exact keepsLinks_pure _
  | _ => exact keepsLinks_pure _

theorem keepsLinks_tail (t : Tail) : KeepsLinks (tail limits t) := by
  refine (keepsLinks_target limits _ t).bind fun target => ?_
  split
  · exact keepsLinks_change _
  · exact keepsLinks_pure _

end Inline

theorem link?_inline {size : Int} {changed : Bool} (h : inline size p = .ok (changed, q)) :
    q.link? = p.link? :=
  (keepsLinks_forM (fun id => keepsLinks_onBody (Inline.keepsLinks_code _ id) (Inline.keepsLinks_tail _) id)
    _).run h

/-! ### Removal of parameters -/

theorem link?_shrinkAll (needs : Needs) : (shrinkAll p needs).link? = p.link? := by
  unfold shrinkAll
  induction needs generalizing p with
  | nil => rfl
  | cons need needs ih => exact ih.trans (Program.link?_modify _ fun _ => rfl)

theorem keepsLinks_shorten (p : Program) (needs : Needs) (ids : List DefnId) :
    KeepsLinks (ids.forM
      (PassM.onBody (fun c => liftM (shortenCode p needs c)) fun t => liftM (shortenTail p needs t))) :=
  keepsLinks_forM (keepsLinks_onBody (fun _ => keepsLinks_lift _) fun _ => keepsLinks_lift _) ids

theorem link?_removeUnused {changed : Bool} (h : removeUnused p = .ok (changed, q)) : q.link? = p.link? := by
  unfold removeUnused at h
  dsimp only at h
  split at h
  · cases h
    rfl
  · obtain ⟨⟨_, q⟩, hrun, heq⟩ := Except.map_eq_ok h
    cases heq
    exact ((keepsLinks_shorten _ _ _).run hrun).trans (link?_shrinkAll _)

/-! ### Merging of duplicates -/

/-- What is in the table comes before the definitions that are still to be looked at, and replacements go
down. -/
structure Descends (t : MergeTable) (todo : List DefnId) (p : Program) : Prop where
  links : p.LinksDescend
  held : ∀ {g : Fingerprint} {k : DefnId}, t.Holds g k → ∀ i ∈ todo, k < i

theorem Descends.looks {t t' : MergeTable} {s s' : Progress} {d : Defn} {todo : List DefnId}
    (h : Descends t (id :: todo) s.program) (hsorted : ∀ i ∈ todo, id < i) (hlooks : Looks t s id d t' s') :
    Descends t' todo s'.program := by
  have hheld {g : Fingerprint} {k : DefnId} (hk : t.Holds g k) : ∀ i ∈ todo, k < i :=
    fun i hi => h.held hk i (.tail _ hi)
  cases hlooks with
  | passes => exact ⟨h.links, hheld⟩
  | @merges f k hf hverdict =>
      -- The one new link is from the definition that is looked at, to one that has been in the table.
      refine ⟨fun i j hlink => ?_, hheld⟩
      rw [Program.link?, Program.modify, Array.getElem?_modify] at hlink
      split at hlink
      · rename_i hi
        subst hi
        have hk : k < id := h.held (holds_of_mem_candidates (verdict_merge hverdict).1) id (.head _)
        obtain ⟨d', hd', hj⟩ := Option.bind_eq_some_iff.mp hlink
        obtain ⟨d₀, -, rfl⟩ := Option.map_eq_some_iff.mp hd'
        cases hj
        exact hk
      · exact h.links hlink
  | staysOut => exact ⟨h.links, hheld⟩
  | enters =>
      refine ⟨h.links, fun hk => ?_⟩
      rcases holds_insert hk with hk | ⟨-, rfl⟩
      · exact hheld hk
      · exact hsorted

theorem Descends.foldlM {t t' : MergeTable} {s s' : Progress} {todo : List DefnId}
    (h : Descends t todo s.program) (hsorted : todo.Pairwise (· < ·))
    (hfold : Gives (todo.foldlM mergeOne t) s t' s') : Descends t' [] s'.program := by
  induction todo generalizing t s with
  | nil =>
      obtain ⟨rfl, rfl⟩ := gives_pure.mp hfold
      exact h
  | cons id todo ih =>
      rw [List.foldlM_cons] at hfold
      obtain ⟨t₁, s₁, hstep, hrest⟩ := gives_bind.mp hfold
      obtain ⟨d, -, hlooks⟩ := gives_mergeOne.mp hstep
      obtain ⟨hfirst, hsorted⟩ := List.pairwise_cons.mp hsorted
      exact ih (h.looks hfirst hlooks) hsorted hrest

/-- Merging only adds replacements that go down. If it has merged anything, references are redirected. -/
theorem linksDescend_mergeDuplicates {size : Int} {merged : Bool} (hp : p.LinksDescend)
    (h : mergeDuplicates size p = .ok (merged, q)) :
    q.LinksDescend ∧ (merged = true → q.Redirected) := by
  obtain ⟨t, s, hfold, -, rfl⟩ := mergeDuplicates_eq_ok.mp h
  have hstart : Descends (.new size) p.reachable p := ⟨hp, fun hk => absurd hk (not_holds_new size)⟩
  have hs : s.program.LinksDescend := (hstart.foldlM (reachable_sorted p) hfold).links
  cases merged with
  | false => exact ⟨hs, fun h => nomatch h⟩
  | true =>
      have hlink : s.program.redirect.link? = s.program.link? := s.program.link?_redirect
      refine ⟨?_, fun _ => hs.redirected⟩
      intro i k hk
      rw [if_pos rfl, hlink] at hk
      exact hs hk

/-! ### Programs whose duplicates are merged -/

section Merged

variable {t : MergeTable} {s : Program}

/-- What stands for a definition that can be reached could be reached before. -/
theorem Merging.resolve_reach (h : Merging p [] t s) (hid : id ∈ p.reachable) :
    s.resolve id ∈ p.reachable := by
  by_cases hkept : ∀ d, s.defns[id]? = some d → d.replacedBy = none
  · rw [resolve_of_none hkept]
    exact hid
  · push Not at hkept
    obtain ⟨d, hd, hmarked⟩ := hkept
    obtain ⟨k, hk⟩ := Option.ne_none_iff_exists'.mp hmarked
    obtain ⟨-, -, g, hg⟩ := h.marked hd hk
    rw [h.resolve_marked hd hk]
    exact (h.table hg).2.1

/-- What stands for a block is a block. -/
theorem Merging.block_resolve (h : Merging p [] t s) {b : Block} (hb : p.block id = .ok b) :
    ∃ b', s.redirect.block (s.resolve id) = .ok b' := by
  obtain ⟨d, hd, hbody⟩ := exists_of_block hb
  obtain ⟨e, e', he, he', hsame, hor⟩ := h.exists_standing hd
  have hblock : ∃ b', e'.body = .block b' := by
    rw [hsame]
    rcases hor with heq | ⟨-, -, hcode, -⟩
    · rw [heq, hd] at he
      cases he
      exact ⟨b, hbody⟩
    · rw [hbody] at hcode
      unfold DefnBody.sameCode at hcode
      split at hcode
      · rename_i b' _ he₁ _
        exact ⟨b', he₁⟩
      · rename_i hk
        cases hk
      · cases hcode
  obtain ⟨b', hb'⟩ := hblock
  have hq : s.redirect.defns[s.resolve id]? =
      some { e' with body := e'.body.mapDefns s.resolve } := by
    rw [Program.redirect, Array.getElem?_map, he']
    rfl
  exact ⟨_, block_eq hq (by rw [hb']; rfl)⟩

/-- Once references follow the replacements, nothing that can be reached is replaced: no entrypoint is, and
references lead to what stands for their targets. -/
theorem Merging.direct_redirect (hs : Merging p [] t s) (hp : p.Linked)
    (hentry : ∀ {id : DefnId} {d : Defn}, id ∈ p.entries → p.defns[id]? = some d → d.entry = true) :
    s.redirect.Direct := by
  have hbody {i : DefnId} {d' : Defn} (hd' : s.redirect.defns[i]? = some d') : ∃ d e,
      s.defns[i]? = some d ∧ p.defns[i]? = some e ∧ d'.replacedBy = d.replacedBy ∧
        d'.body = e.body.mapDefns s.resolve := by
    rw [Program.redirect, Array.getElem?_map, Option.map_eq_some_iff] at hd'
    obtain ⟨d, hd, rfl⟩ := hd'
    obtain ⟨e, he, heq⟩ := hs.defns hd
    exact ⟨d, e, hd, he, rfl, by rw [heq]⟩
  refine (Program.direct_of_closed (A := fun i => i ∈ p.reachable ∧ s.resolve i = i) ?_ ?_ ?_ ?_ ?_).1
  · rintro i ⟨hi, -⟩
    have hsize : s.redirect.defns.size = p.defns.size := Array.size_map.trans hs.size
    exact hsize ▸ Program.lt_of_reachable hi
  · intro i hi
    have hi : i ∈ p.entries := hs.entries ▸ hi
    refine ⟨hp.entries i hi, resolve_of_none fun d hd => ?_⟩
    obtain ⟨e, he, -⟩ := hs.defns hd
    have hkept := hs.kept i
    rw [hd, he] at hkept
    cases hkept with
    | some hkept => exact hkept.unreplaced (hentry hi he)
  · rintro i d' ⟨hi, -⟩ hd' r hr
    obtain ⟨d, e, -, he, -, hcode⟩ := hbody hd'
    rw [hcode, DefnBody.refs_mapDefns] at hr
    obtain ⟨r₀, hr₀, rfl⟩ := List.mem_map.mp hr
    exact ⟨hs.resolve_reach (hp.refs hi he r₀ hr₀), hs.resolve_resolve r₀⟩
  · rintro i d' ⟨hi, -⟩ hd' c hc
    obtain ⟨d, e, -, he, -, hcode⟩ := hbody hd'
    rw [hcode, DefnBody.calls_mapDefns] at hc
    obtain ⟨c₀, hc₀, rfl⟩ := List.mem_map.mp hc
    obtain ⟨b, hb⟩ := hp.calls hi he c₀ hc₀
    exact hs.block_resolve hb
  · rintro i d' ⟨-, hi⟩ hd'
    obtain ⟨d, e, hd, -, hreplaced, -⟩ := hbody hd'
    rw [hreplaced]
    by_contra hmarked
    obtain ⟨k, hk⟩ := Option.ne_none_iff_exists'.mp hmarked
    exact hs.ne_of_marked hd hk ((hs.resolve_marked hd hk).symm.trans hi)

/-- So it is where duplicates of a linked program have been merged. -/
theorem direct_of_mergeDuplicates (hp : p.Linked)
    (hentry : ∀ {id : DefnId} {d : Defn}, id ∈ p.entries → p.defns[id]? = some d → d.entry = true)
    {size : Int} {merged : Bool} (h : mergeDuplicates size p = .ok (merged, q)) : q.Direct := by
  cases merged with
  | false => exact (exists_searched h).1.symm ▸ hp.direct
  | true =>
      obtain ⟨_, t, s, hmerge, hs⟩ := exists_merging hp.whole size
      rw [h] at hmerge
      obtain ⟨rfl, rfl⟩ := Prod.mk.inj (Except.ok.inj hmerge)
      exact hs.direct_redirect hp hentry

end Merged

/-! ### Sequences of passes -/

/-- The passes of the optimiser, with any bounds. -/
inductive IsPass : Pass → Prop
  | simplify (wordSize : Int) : IsPass (simplify wordSize)
  | inline (size : Int) : IsPass (inline size)
  | removeUnused : IsPass removeUnused
  | mergeDuplicates (size : Int) : IsPass (mergeDuplicates size)

theorem IsPass.linksDescend {f : Pass} (hf : IsPass f) {changed : Bool} (hp : p.LinksDescend)
    (h : f p = .ok (changed, q)) : q.LinksDescend := by
  have hsame (hlink : q.link? = p.link?) : q.LinksDescend := fun i k hk => hp (hlink ▸ hk)
  cases hf with
  | simplify => exact hsame (link?_simplify h)
  | inline => exact hsame (link?_inline h)
  | removeUnused => exact hsame (link?_removeUnused h)
  | mergeDuplicates => exact (linksDescend_mergeDuplicates hp h).1

theorem linksDescend_runPasses {fs : List Pass} (hfs : ∀ f ∈ fs, IsPass f) {c c' : Bool}
    (hp : p.LinksDescend) (h : runPasses fs c p = .ok (c', q)) : q.LinksDescend := by
  induction fs generalizing p c with
  | nil =>
      cases h
      exact hp
  | cons f fs ih =>
      obtain ⟨⟨changed, p₁⟩, hfirst, hrest⟩ := Except.bind_eq_ok.mp h
      have hp₁ : p₁.LinksDescend := (hfs f (.head _)).linksDescend hp hfirst
      exact ih (fun g hg => hfs g (.tail _ hg)) hp₁ hrest

/-- **Replacements never loop and never dangle.** Starting from a program in which nothing is replaced,
after any sequence of passes every replacement is by a definition before the one that is replaced. So the
replacements that start at a definition end, and the search for what stands for a definition finds their
end. And if duplicates are merged then, every reference that a definition makes is to what stands for its
target. -/
theorem runPasses_resolves {fs : List Pass} (hfs : ∀ f ∈ fs, IsPass f)
    (hp : ∀ (id : DefnId) (d : Defn), p.defns[id]? = some d → d.replacedBy = none)
    {c c' : Bool} (h : runPasses fs c p = .ok (c', q)) :
    (∀ (id : DefnId) (d : Defn) (k : DefnId), q.defns[id]? = some d → d.replacedBy = some k → k < id) ∧
      (∀ id : DefnId, q.ChainEnds id (q.resolve id)) ∧
      ∀ (size : Int) (q' : Program), mergeDuplicates size q = .ok (true, q') →
        ∀ (id : DefnId) (d : Defn), q'.defns[id]? = some d → ∀ r ∈ d.body.references, q'.resolve r = r := by
  have hstart : p.LinksDescend := by
    intro id k hk
    obtain ⟨d, hd, hreplaced⟩ := Option.bind_eq_some_iff.mp hk
    rw [hp id d hd] at hreplaced
    cases hreplaced
  have hq : q.LinksDescend := linksDescend_runPasses hfs hstart h
  refine ⟨fun id d k hd hk => hq ?_, hq.chainEnds_resolve, fun size q' hmerge => ?_⟩
  · rw [Program.link?, hd]
    exact hk
  · exact fun id d hd => (linksDescend_mergeDuplicates hq hmerge).2 rfl hd

/-- A program that adds one three times, each in a block of its own; the first block adds zero as well. -/
def plusThree : Program :=
  { Program.empty with
    defns := #[
      { Defn.new "main" .unknown (.block (.new [0] (some (.bind [1] (.call ⟨1, [.temp 0], none⟩)
          (.bind [2] (.call ⟨2, [.temp 1], none⟩) (.done (.call ⟨3, [.temp 2], none⟩))))))) with entry := true },
      .new "e" .unknown (.block (.new [3] (some (.bind [4] (.prim (.builtin .add) [.temp 3, .word 1] none)
        (.bind [5] (.prim (.builtin .add) [.temp 4, .word 0] none) (.done (.ret [.temp 5]))))))),
      .new "f" .unknown (plusOne 6 7), .new "g" .unknown (plusOne 8 9)]
    entries := [0] }

/-- The passes of a round and a half: the third block is merged into the second, and then the first is
simplified. -/
def mergeSimplify : List Pass := [mergeDuplicates 16, simplify 64]

/-- Is the second block merged into the first then, so that the third one has a chain of two? -/
def mergesChain : Bool :=
  match runPasses mergeSimplify false plusThree with
  | .error _ => false
  | .ok (_, q) =>
    match mergeDuplicates 16 q with
    | .error _ => false
    | .ok (merged, q') => merged && q'.link? 3 == some 2 && q'.link? 2 == some 1 && q'.resolve 3 == 1

theorem plusThree_unreplaced (id : DefnId) (d : Defn) (hd : plusThree.defns[id]? = some d) :
    d.replacedBy = none := by
  match id with
  | 0 | 1 | 2 | 3 =>
      cases hd
      rfl
  | id + 4 => cases hd

theorem mergeSimplify_passes : ∀ f ∈ mergeSimplify, IsPass f := by
  intro f hf
  rcases List.mem_cons.mp hf with rfl | hf
  · exact .mergeDuplicates 16
  · obtain rfl := List.mem_singleton.mp hf
    exact .simplify 64

theorem runPasses_resolves_plusThree : ∃ c q q', runPasses mergeSimplify false plusThree = .ok (c, q) ∧
    q.ChainEnds 3 (q.resolve 3) ∧ mergeDuplicates 16 q = .ok (true, q') ∧
    q'.link? 3 = some 2 ∧ q'.link? 2 = some 1 ∧ q'.resolve 3 = 1 ∧
    ∀ (id : DefnId) (d : Defn), q'.defns[id]? = some d → ∀ r ∈ d.body.references, q'.resolve r = r := by
  have hchain : mergesChain = true := by decide +kernel
  unfold mergesChain at hchain
  cases hrun : runPasses mergeSimplify false plusThree with
  | error e =>
      rw [hrun] at hchain
      cases hchain
  | ok result =>
      obtain ⟨c, q⟩ := result
      rw [hrun] at hchain
      dsimp only at hchain
      cases hmerge : mergeDuplicates 16 q with
      | error e =>
          rw [hmerge] at hchain
          cases hchain
      | ok result =>
          obtain ⟨merged, q'⟩ := result
          rw [hmerge] at hchain
          obtain ⟨⟨⟨rfl, hthird⟩, hsecond⟩, hresolve⟩ : ((merged = true ∧ q'.link? 3 = some 2) ∧
              q'.link? 2 = some 1) ∧ q'.resolve 3 = 1 := by simpa using hchain
          obtain ⟨-, hends, hredirected⟩ :=
            runPasses_resolves mergeSimplify_passes plusThree_unreplaced hrun
          exact ⟨c, q, q', rfl, hends 3, hmerge, hthird, hsecond, hresolve, hredirected 16 q' hmerge⟩

end Optimize

end Mil
