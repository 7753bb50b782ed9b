import Mil.Proofs.Program.Components
import Mil.Proofs.Source.Load
import Mil.Proofs.Typing.Body
import Mil.Proofs.Typing.Generalise
import Mil.Proofs.Typing.Initialise

/-!
The check of a program, component by component. Since failures that are reported stay in the log, a
check that ends with an empty log has met none on the way, and each member of each component has
gone through all its stages.
-/

namespace Mil

namespace Typing

/-- Reported failures stay reported. -/
structure Keeps {α : Type} (x : CheckM α) : Prop where
  log : ∀ c, c.log.entries <+: (x c).2.log.entries

section Keeps

variable {α β : Type}

theorem Keeps.of_log {x : CheckM α} (h : ∀ c, (x c).2.log = c.log) : Keeps x :=
  ⟨fun c => h c ▸ List.prefix_rfl⟩

theorem Keeps.bind {x : CheckM α} {f : α → CheckM β} (hx : Keeps x) (hf : ∀ a, Keeps (f a)) :
    Keeps (x >>= f) := by
  refine ⟨fun c => ?_⟩
  have hbind : (x >>= f) c = ExceptT.bindCont f (x c).1 (x c).2 := rfl
  rw [hbind]
  have hprefix := hx.log c
  rcases hxc : x c with ⟨e | a, c₁⟩
  · rw [hxc] at hprefix
    exact hprefix
  · rw [hxc] at hprefix
    exact hprefix.trans ((hf a).log c₁)

theorem Keeps.forM {f : α → CheckM Unit} (hf : ∀ a, Keeps (f a)) (as : List α) :
    Keeps (as.forM f) := by
  induction as with
  | nil => exact .of_log fun _ => rfl
  | cons a as ih => exact .bind (hf a) fun _ => ih

theorem keeps_pure (a : α) : Keeps (pure a : CheckM α) := .of_log fun _ => rfl

theorem keeps_throw (e : CheckError) : Keeps (throw e : CheckM α) := .of_log fun _ => rfl

theorem keeps_get : Keeps (get : CheckM Checker) := .of_log fun _ => rfl

theorem keeps_store : Keeps store := .of_log fun _ => rfl

theorem keeps_infer (x : StateM Program α) : Keeps (infer x) := .of_log fun _ => rfl

theorem keeps_setBody (id : DefnId) (body : DefnBody) : Keeps (setBody id body) :=
  .of_log fun _ => rfl

theorem keeps_setTypes (ts : List Temp) (types : List Ty) : Keeps (setTypes ts types) :=
  .of_log fun _ => rfl

theorem keeps_report (f : Failure) :
    Keeps (modify fun c => { c with log := c.log.report f } : CheckM PUnit) :=
  ⟨fun c => List.prefix_append c.log.entries [f]⟩

theorem keeps_definition (id : DefnId) : Keeps (definition id) := by
  refine keeps_get.bind fun c => ?_
  split
  · exact keeps_pure _
  · exact keeps_throw _

theorem keeps_setInitialType (id : DefnId) : Keeps (setInitialType id) := by
  refine (keeps_definition id).bind fun d => ?_
  split
  · refine (keeps_infer _).bind fun type => (keeps_setBody ..).bind fun _ => keeps_store.bind fun s => ?_
    split
    · split
      · exact keeps_setTypes ..
      · exact keeps_throw _
    · exact keeps_throw _
  · refine (keeps_infer _).bind fun type => (keeps_setBody ..).bind fun _ => keeps_store.bind fun s => ?_
    split
    · split
      · exact (keeps_setTypes ..).bind fun _ => keeps_setTypes ..
      · exact keeps_throw _
    · exact keeps_throw _
  · rename_i t _
    refine Keeps.bind ?_ fun lhs => keeps_setBody ..
    induction t.lhs with
    | nil => exact keeps_pure _
    | cons l ls ih =>
        rw [List.mapM_cons]
        exact ((keeps_infer _).bind fun _ => keeps_pure _).bind fun _ =>
          ih.bind fun _ => keeps_pure _
  · exact keeps_pure _

theorem keeps_outcome (d : Defn) (r : Except Stop Unit) : Keeps (outcome d r) := by
  unfold outcome
  split
  · exact keeps_pure _
  · exact keeps_throw _
  · exact keeps_store.bind fun _ => keeps_pure _

theorem keeps_checkTail (t : Option Tail) (expected : Ty) : Keeps (checkTail t expected) := by
  unfold checkTail
  split
  · exact keeps_pure _
  · refine (keeps_infer _).bind fun r => ?_
    split
    · exact keeps_pure _
    · exact (keeps_infer _).bind fun _ => keeps_pure _

theorem keeps_checkBody (id : DefnId) : Keeps (checkBody id) := by
  refine (keeps_definition id).bind fun d => ?_
  split
  · split
    · exact keeps_outcome ..
    · refine (keeps_infer _).bind fun r => (keeps_setBody ..).bind fun _ => ?_
      split
      · exact keeps_outcome ..
      · exact (keeps_infer _).bind fun _ => keeps_outcome ..
      · exact keeps_pure _
  · exact keeps_store.bind fun _ => (keeps_checkTail ..).bind fun _ =>
      (keeps_setBody ..).bind fun _ => keeps_outcome ..
  · exact (keeps_checkTail ..).bind fun _ => (keeps_setBody ..).bind fun _ => keeps_outcome ..
  · exact keeps_pure _

theorem keeps_reportAmbiguous (d : Defn) (generics used : List Nat) :
    Keeps (reportAmbiguous d generics used) := by
  unfold reportAmbiguous
  dsimp only
  split
  · exact keeps_report _
  · exact keeps_pure _

theorem keeps_generalizeType (id : DefnId) : Keeps (generalizeType id) := by
  refine (keeps_definition id).bind fun d => ?_
  split
  · split
    · refine keeps_store.bind fun s => ?_
      dsimp only
      split
      · exact keeps_throw _
      · exact (keeps_setBody ..).bind fun _ => keeps_get.bind fun _ => keeps_reportAmbiguous ..
    · exact keeps_pure _
  · split
    · refine keeps_store.bind fun s => ?_
      dsimp only
      split
      · exact keeps_throw _
      · exact (keeps_setBody ..).bind fun _ => keeps_get.bind fun _ => keeps_reportAmbiguous ..
    · exact keeps_pure _
  · split
    · exact keeps_pure _
    · refine keeps_store.bind fun s => ?_
      split
      · exact (keeps_setBody ..).bind fun _ => keeps_throw _
      · exact (keeps_setBody ..).bind fun _ => keeps_get.bind fun _ => keeps_reportAmbiguous ..
  · exact keeps_pure _

theorem keeps_checkMember (id : DefnId) : Keeps (checkMember id) := by
  refine (keeps_checkBody id).bind fun r => ?_
  split
  · exact keeps_pure _
  · refine (keeps_definition id).bind fun d => ?_
    split
    · exact (keeps_throw _).bind fun _ => (keeps_report _).bind fun _ => keeps_setBody ..
    · exact (keeps_report _).bind fun _ => keeps_setBody ..

theorem keeps_checkComponent (ids : List DefnId) : Keeps (checkComponent ids) := by
  unfold checkComponent
  exact (Keeps.forM keeps_setInitialType ids).bind fun _ =>
    (Keeps.forM keeps_checkMember ids).bind fun _ => Keeps.forM keeps_generalizeType ids

/-- A step that ends with an empty log began with one. -/
theorem Keeps.quiet {x : CheckM α} (hx : Keeps x) {c c' : Checker} {a : α} (hy : Yields x c a c')
    (hlog : c'.log.entries = []) : c.log.entries = [] := by
  have hprefix := hx.log c
  rw [hy, hlog] at hprefix
  exact List.prefix_nil.mp hprefix

end Keeps

/-! ### Passes over a component -/

theorem yields_forM_cons {α : Type} {f : α → CheckM Unit} {x : α} {xs : List α} {c c' : Checker} :
    Yields ((x :: xs).forM f) c () c' ↔
      ∃ c₁, Yields (f x) c () c₁ ∧ Yields (xs.forM f) c₁ () c' := by
  have hcons : (x :: xs).forM f = f x >>= fun _ => xs.forM f := rfl
  rw [hcons, yields_bind]
  exact ⟨fun ⟨_, c₁, hfirst, hrest⟩ => ⟨c₁, hfirst, hrest⟩,
    fun ⟨c₁, hfirst, hrest⟩ => ⟨(), c₁, hfirst, hrest⟩⟩

/-- If each step moves its definition from one stage to another, a pass over different definitions
moves all of them. -/
theorem inv_forM {a b : Phase} {I : Checker → (DefnId → Phase) → Prop} {f : DefnId → CheckM Unit}
    (hkeeps : ∀ id, Keeps (f id))
    (hstep : ∀ {c c' : Checker} {φ : DefnId → Phase} {id : DefnId}, I c φ → φ id = a →
      Yields (f id) c () c' → c'.log.entries = [] → I c' (Function.update φ id b))
    {ids : List DefnId} (hnodup : ids.Nodup) {c c' : Checker} {φ : DefnId → Phase} (h : I c φ)
    (hφ : ∀ id ∈ ids, φ id = a) (hy : Yields (ids.forM f) c () c') (hlog : c'.log.entries = []) :
    I c' fun id => if id ∈ ids then b else φ id := by
  induction ids generalizing c φ with
  | nil =>
      obtain ⟨-, rfl⟩ := yields_pure.mp hy
      simpa using h
  | cons id ids ih =>
      obtain ⟨hid, hnodup⟩ := List.nodup_cons.mp hnodup
      obtain ⟨c₁, hfirst, hy⟩ := yields_forM_cons.mp hy
      have hlog₁ := (Keeps.forM hkeeps ids).quiet hy hlog
      have h₁ := hstep h (hφ id (.head _)) hfirst hlog₁
      have hφ' : ∀ j ∈ ids, Function.update φ id b j = a := fun j hj => by
        have hne : j ≠ id := fun he => hid (he ▸ hj)
        rw [Function.update_of_ne hne]
        exact hφ j (.tail _ hj)
      have h₂ := ih hnodup h₁ hφ' hy
      have hphase : (fun j => if j ∈ id :: ids then b else φ j) =
          fun j => if j ∈ ids then b else Function.update φ id b j := by
        funext j
        by_cases hj : j = id
        · subst hj
          simp [hid]
        · simp [hj]
      rw [hphase]
      exact h₂

/-- A member whose check reports nothing has a body of its working type. -/
theorem inv_checkMember {n lo : Nat} {c c' : Checker} {φ : DefnId → Phase} {id : DefnId}
    (h : Inv n lo lo c.program φ) (hφ : φ id = .initialised) (hy : Yields (checkMember id) c () c')
    (hlog : c'.log.entries = []) : Inv n lo lo c'.program (Function.update φ id .inferred) := by
  rw [checkMember, yields_bind] at hy
  obtain ⟨r, c₁, hbody, hy⟩ := hy
  split at hy
  · obtain ⟨-, rfl⟩ := yields_pure.mp hy
    exact inv_checkBody h hφ hbody
  · rename_i f
    -- a failure would have been thrown or reported
    rw [yields_bind] at hy
    obtain ⟨d, c₂, -, hy⟩ := hy
    split at hy
    · rw [yields_bind] at hy
      obtain ⟨_, _, hthrow, -⟩ := hy
      exact absurd hthrow not_yields_throw
    · rw [yields_bind] at hy
      obtain ⟨_, c₃, hreport, hy⟩ := hy
      obtain rfl := yields_modify.mp hreport
      rw [yields_setBody.mp hy] at hlog
      simp [FailureLog.report] at hlog

/-- The stages between two components: what was checked is quantified, the rest is untouched. -/
def checked (done : List DefnId) (id : DefnId) : Phase :=
  if id ∈ done then .generalised else .fresh

/-- Variables made for a component come after all settled ones. -/
theorem Inv.widen {n lo hi hi' : Nat} {p : Program} {φ : DefnId → Phase} (h : Inv n lo hi p φ)
    (hhi : hi ≤ hi') : Inv n lo hi' p φ := by
  refine ⟨h.size, h.regular, h.layout, fun {id d} hd => ?_⟩
  have hstage := h.stage hd
  cases hφ : φ id with
  | fresh =>
      rw [hφ] at hstage
      exact hstage
  | initialised =>
      rw [hφ] at hstage
      exact hstage
  | inferred =>
      rw [hφ] at hstage
      exact hstage
  | generalised =>
      rw [hφ] at hstage
      exact ⟨hstage.declared, hstage.derivation, hstage.generalised,
        fun v hv => ⟨Nat.lt_of_lt_of_le (hstage.settled v hv).1 hhi, (hstage.settled v hv).2⟩⟩

/-- Between two components, all variables there are become settled. -/
theorem Inv.settle {n lo hi : Nat} {p : Program} {done : List DefnId}
    (h : Inv n lo hi p (checked done)) (hhi : hi ≤ p.store.cells.size) :
    Inv n p.store.cells.size p.store.cells.size p (checked done) := by
  refine ⟨h.size, h.regular.raise, h.layout, fun {id d} hd => ?_⟩
  have hstage := (h.widen hhi).stage hd
  unfold checked at hstage ⊢
  by_cases hid : id ∈ done
  · rw [if_pos hid] at hstage ⊢
    exact hstage
  · rw [if_neg hid] at hstage ⊢
    exact hstage

theorem inv_checkComponent {n : Nat} {c c' : Checker} {done ids : List DefnId} (hnodup : ids.Nodup)
    (hnew : ∀ id ∈ ids, id ∉ done)
    (h : Inv n c.program.store.cells.size c.program.store.cells.size c.program (checked done))
    (hy : Yields (checkComponent ids) c () c') (hlog : c'.log.entries = []) :
    Inv n c'.program.store.cells.size c'.program.store.cells.size c'.program
      (checked (done ++ ids)) := by
  rw [checkComponent, yields_bind] at hy
  obtain ⟨_, c₁, hinit, hy⟩ := hy
  rw [yields_bind] at hy
  obtain ⟨_, c₂, hbody, hy⟩ := hy
  have hlog₂ := (Keeps.forM keeps_generalizeType ids).quiet hy hlog
  have hlog₁ := (Keeps.forM keeps_checkMember ids).quiet hbody hlog₂
  generalize hlo : c.program.store.cells.size = lo at h
  have h₁ := inv_forM (I := fun c φ => Inv n lo lo c.program φ) keeps_setInitialType
    (fun h hφ hy _ => inv_setInitialType h hφ hy) hnodup h (fun id hid => if_neg (hnew id hid))
    hinit hlog₁
  have h₂ := inv_forM (I := fun c φ => Inv n lo lo c.program φ) keeps_checkMember
    (fun h hφ hy hlog => inv_checkMember h hφ hy hlog) hnodup h₁ (fun id hid => if_pos hid) hbody
    hlog₂
  generalize hhi : c₂.program.store.cells.size = hi
  obtain ⟨hsize, h₃⟩ := inv_forM
    (I := fun c φ => c.program.store.cells.size = hi ∧ Inv n lo hi c.program φ)
    keeps_generalizeType
    (fun {c _ _ _} h hφ hy _ => by
      obtain ⟨hstore, hinv⟩ := inv_generalizeType (h.1.symm ▸ h.2) hφ hy
      exact ⟨hstore ▸ h.1, h.1 ▸ hinv⟩)
    hnodup ⟨hhi, h₂.widen (hhi ▸ h₂.regular.le_size)⟩ (fun id hid => if_pos hid) hy hlog
  have hphase : (fun id => if id ∈ ids then Phase.generalised else
      if id ∈ ids then Phase.inferred else if id ∈ ids then Phase.initialised else
      checked done id) = checked (done ++ ids) := by
    funext id
    unfold checked
    by_cases hid : id ∈ ids
    · simp [hid]
    · simp [hid]
  rw [hphase] at h₃
  exact h₃.settle (Nat.le_of_eq hsize.symm)

theorem inv_checkComponents {n : Nat} {c c' : Checker} {done : List DefnId}
    {components : List (List DefnId)} (hnodup : (done ++ components.flatten).Nodup)
    (h : Inv n c.program.store.cells.size c.program.store.cells.size c.program (checked done))
    (hy : Yields (components.forM checkComponent) c () c') (hlog : c'.log.entries = []) :
    Inv n c'.program.store.cells.size c'.program.store.cells.size c'.program
      (checked (done ++ components.flatten)) := by
  induction components generalizing c done with
  | nil =>
      obtain ⟨-, rfl⟩ := yields_pure.mp hy
      simpa using h
  | cons ids components ih =>
      obtain ⟨c₁, hfirst, hy⟩ := yields_forM_cons.mp hy
      rw [List.flatten_cons, ← List.append_assoc] at hnodup ⊢
      have hdone := List.nodup_append.mp (List.nodup_append.mp hnodup).1
      refine ih hnodup (inv_checkComponent hdone.2.1 (fun id hid hid' => ?_) h hfirst ?_) hy
      · exact hdone.2.2 id hid' id hid rfl
      · exact (Keeps.forM keeps_checkComponent components).quiet hy hlog

/-- A check that ends with nothing reported leaves every definition at its last stage. -/
theorem inv_check {c c' : Checker} {n : Nat}
    (h : Inv n c.program.store.cells.size c.program.store.cells.size c.program fun _ => .fresh)
    (hy : Yields c.program.check c () c') (hlog : c'.log.entries = []) :
    Inv n c'.program.store.cells.size c'.program.store.cells.size c'.program
      fun id => if id < n then .generalised else .fresh := by
  obtain ⟨hnodup, hmem⟩ := c.program.components_all
  have hnone : checked [] = fun _ => .fresh := by
    funext id
    exact if_neg List.not_mem_nil
  have hall := inv_checkComponents (List.nil_append _ ▸ hnodup) (hnone ▸ h) hy hlog
  have hphase : checked ([] ++ (c.program.components c.program.all).flatten) =
      fun id => if id < n then .generalised else .fresh := by
    funext id
    unfold checked
    rw [List.nil_append, ← h.size]
    exact if_congr (hmem id) rfl rfl
  rwa [hphase] at hall

end Typing

end Mil

/-!
What a check without failures leaves: a derivation for every definition. Bound variables are
resolved in it, every recorded instance matches the final declared type of what it refers to, and the
declared types quantify variables that are unbound and different.
-/

namespace Mil

/-- The characters of a text with another piece after it. -/
theorem toList_append_ofList {text : String} {cs ds : List Char} (h : text.toList = cs) :
    (text ++ String.ofList ds).toList = cs ++ ds := by
  rw [String.toList_append, h, String.toList_ofList]

/-- The declared type of the value that a reference names. -/
def DefnBody.scheme? : DefnBody → Nat → Option Scheme
  | .top t, index => (t.lhs[index]?).bind TopName.declared
  | .external e, _ => some e.declared
  | _, _ => none

/-- The lists of generic variables of a definition and of its names. -/
def DefnBody.genericLists : DefnBody → List (List Nat)
  | .block b => [b.generics]
  | .closure k => [k.generics]
  | .top t => t.generics :: t.lhs.map TopName.generics
  | .external _ => []

/-- The rules in a checked program: types are resolved, and whatever is used is used at an instance
of its declared type. -/
def Program.context (p : Program) : Typing.Context where
  atom := p.atomType
  read := p.store.resolve
  block id inst := ∃ d b declared, p.defns[id]? = some d ∧ d.body = .block b ∧
    b.declared = some declared ∧
    (declared.matchInto p.store inst (Slots.ofKinds declared.kinds)).1 = true
  prim q inst := (q.type.matchInto p.store inst (Slots.ofKinds q.type.kinds)).1 = true
  closure id inst := ∃ d k declared, p.defns[id]? = some d ∧ d.body = .closure k ∧
    k.declared = some declared ∧
    (declared.matchInto p.store inst (Slots.ofKinds declared.kinds)).1 = true
  cfun k inst := (k.type.matchInto p.store inst (Slots.ofKinds k.type.kinds)).1 = true
  top id index t := ∃ d declared, p.defns[id]? = some d ∧ d.body.scheme? index = some declared ∧
    (p.store.matchInto declared.type t (Slots.ofKinds declared.kinds)).1 = true

/-- Every definition has a derivation at its working type, its declared type is the working type
with the generic variables quantified, and these variables are different and unbound. -/
structure Program.WellTyped (p : Program) : Prop where
  derivation : ∀ {id : DefnId} {d : Defn}, p.defns[id]? = some d → Typing.DefnHas p.context d.body
  generalised : ∀ {id : DefnId} {d : Defn}, p.defns[id]? = some d → d.body.Generalised p.store
  generics : ∀ {id : DefnId} {d : Defn}, p.defns[id]? = some d →
    ∀ vars ∈ d.body.genericLists, vars.Nodup ∧ ∀ v ∈ vars, p.store.binding? v = none

namespace Typing

/-- All definitions have gone through all stages. -/
structure Complete (p : Program) : Prop where
  regular : p.store.Regular 0
  layout : Layout p
  stage : ∀ {id : DefnId} {d : Defn}, p.defns[id]? = some d →
    GeneralisedStage p.store.cells.size p d.body

/-- A check without failures completes every definition of a program that was loaded. -/
theorem complete_of_check {p : Program} {log : FailureLog} {c : Checker} (h : Source.Loaded p)
    (hcheck : p.check.run ⟨p, log⟩ = (.ok (), c)) (hlog : c.log.entries = []) :
    Complete c.program := by
  have hinv := inv_check h.inv (c := ⟨p, log⟩) hcheck hlog
  refine ⟨hinv.regular.lower, hinv.layout, fun {id d} hd => ?_⟩
  have hlt : id < p.defns.size := by
    rw [← hinv.size]
    exact (Array.getElem?_eq_some_iff.mp hd).1
  have hstage := hinv.stage hd
  rw [if_pos hlt] at hstage
  exact hstage

section Complete

variable {p : Program}

theorem Complete.seen {i : Interface} {inst : List Ty} {d : Defn} {id : DefnId} (h : Complete p)
    (hd : p.defns[id]? = some d) (hi : i ∈ d.body.interfaces) (hseen : i.SeenAs p.store inst) :
    ∃ kinds parts, i.declared = some (kinds, parts) ∧ ClosedUnder kinds.length parts ∧
      p.store.IsInstance kinds parts inst := by
  obtain ⟨hsome, hclosed⟩ := (h.stage hd).declared i hi
  obtain ⟨⟨kinds, parts⟩, hdecl⟩ := Option.isSome_iff_exists.mp hsome
  unfold Interface.SeenAs at hseen
  rw [hdecl] at hseen
  exact ⟨kinds, parts, hdecl, hclosed _ hdecl, hseen⟩

/-- In a complete program, uses at working types are uses at instances of declared types. -/
theorem Complete.context_le (h : Complete p) :
    (p.working p.store.reading).Le p.context := by
  have hreg := h.regular
  constructor
  · exact fun a t ha => ha
  · funext t
    exact hreg.resolve_eq t
  · rintro id inst ⟨d, b, hd, hb, hs⟩
    obtain ⟨kinds, parts, hdecl, hclosed, hinst⟩ := h.seen hd (by rw [hb]; exact .head _) hs
    obtain ⟨declared, hdecl', heq⟩ := Option.map_eq_some_iff.mp hdecl
    cases heq
    exact ⟨d, b, declared, hd, hb, hdecl', BlockType.matchInto_of_isInstance hreg hclosed hinst⟩
  · rintro q inst ⟨hclosed, hinst⟩
    exact BlockType.matchInto_of_isInstance hreg hclosed hinst
  · rintro id inst ⟨d, k, hd, hk, hs⟩
    obtain ⟨kinds, parts, hdecl, hclosed, hinst⟩ := h.seen hd (by rw [hk]; exact .head _) hs
    obtain ⟨declared, hdecl', heq⟩ := Option.map_eq_some_iff.mp hdecl
    cases heq
    exact ⟨d, k, declared, hd, hk, hdecl', AllocType.matchInto_of_isInstance hreg hclosed hinst⟩
  · rintro k inst ⟨hclosed, hinst⟩
    exact AllocType.matchInto_of_isInstance hreg hclosed hinst
  · rintro id index t ⟨d, i, hd, hi, hs⟩
    obtain ⟨kinds, parts, hdecl, hclosed, hinst⟩ :=
      h.seen hd (DefnBody.mem_interfaces_of_valueInterface? hi) hs
    obtain ⟨c, hc, hkinds, hparts⟩ : ∃ c : Scheme, d.body.scheme? index = some c ∧
        c.kinds = kinds ∧ c.parts = parts := by
      cases hb : d.body with
      | block b =>
          rw [hb] at hi
          cases hi
      | closure k =>
          rw [hb] at hi
          cases hi
      | top t =>
          rw [hb] at hi
          obtain ⟨l, hl, rfl⟩ := Option.map_eq_some_iff.mp hi
          obtain ⟨c, hc, heq⟩ := Option.map_eq_some_iff.mp hdecl
          cases heq
          exact ⟨c, by rw [DefnBody.scheme?, hl]; exact hc, rfl, rfl⟩
      | external e =>
          rw [hb] at hi
          cases hi
          cases hdecl
          exact ⟨e.declared, rfl, rfl, rfl⟩
    subst hkinds hparts
    exact ⟨d, c, hd, hc, Scheme.matchInto_of_isInstance hreg hclosed hinst⟩

theorem nodup_of_generalised {s : Store} {b : DefnBody} (h : b.Generalised s) :
    ∀ vars ∈ b.genericLists, vars.Nodup ∧ ∀ v ∈ vars, v ∈ b.generics := by
  cases b with
  | block b =>
      obtain ⟨type, -, -, hgen, -⟩ := h
      intro vars hvars
      rw [List.mem_singleton.mp hvars]
      exact ⟨hgen ▸ type.nodup_addVars .nil, fun v hv => hv⟩
  | closure k =>
      obtain ⟨type, -, -, hgen, -⟩ := h
      intro vars hvars
      rw [List.mem_singleton.mp hvars]
      exact ⟨hgen ▸ type.nodup_addVars .nil, fun v hv => hv⟩
  | top t =>
      obtain ⟨hgen, hnames⟩ := h
      intro vars hvars
      rcases List.mem_cons.mp hvars with rfl | hvars
      · exact ⟨hgen ▸ nodup_eraseDups _, fun v hv => hv⟩
      · obtain ⟨l, hl, rfl⟩ := List.mem_map.mp hvars
        obtain ⟨type, -, -, hvars, -⟩ := hnames l hl
        refine ⟨hvars ▸ Ty.nodup_addVars .nil, fun v hv => ?_⟩
        rw [DefnBody.generics, hgen, List.mem_eraseDups]
        exact List.mem_flatMap.mpr ⟨l, hl, hv⟩
  | external e => exact List.forall_mem_nil _

theorem Complete.wellTyped (h : Complete p) : p.WellTyped := by
  refine ⟨fun hd => ?_, fun hd => (h.stage hd).generalised, fun hd vars hvars => ?_⟩
  · exact ((h.stage hd).derivation _ h.regular.solves_reading).mono h.context_le
  · obtain ⟨hnodup, hmem⟩ := nodup_of_generalised (h.stage hd).generalised vars hvars
    exact ⟨hnodup, fun v hv => ((h.stage hd).settled v (hmem v hv)).2⟩

end Complete

/-- Type inference leaves a typing derivation: if a program is loaded and its check ends with no
failure, the checked program is well typed. -/
theorem wellTyped_of_check {file text : String} {names : List String} {p : Program}
    {log : FailureLog} {c : Checker}
    (hload : (Program.parse file text >>= fun p => Compiler.addEntries p names) = .ok p)
    (hcheck : p.check.run ⟨p, log⟩ = (.ok (), c)) (hlog : c.log.entries = []) :
    c.program.WellTyped :=
  (complete_of_check (Source.loaded_of_parse hload) hcheck hlog).wellTyped

/-- The check of a program that is loaded, if it ends with no failure. -/
def acceptedLoad (load : Except Failure Program) : Option Checker :=
  match load with
  | .ok p =>
    match p.check.run ⟨p, .empty⟩ with
    | (.ok (), c) => if c.log.entries.isEmpty then some c else none
    | _ => none
  | .error _ => none

/-- The check of a loaded text, if it ends with no failure. -/
def accepted (file text : String) (names : List String) : Option Checker :=
  acceptedLoad (Program.parse file text >>= fun p => Compiler.addEntries p names)

/-- The check of a text that is loaded by its characters. -/
def acceptedChars (file : String) (cs : List Char) (names : List String) : Option Checker :=
  acceptedLoad (Source.File.ofRoot file (Yaml.Node.root cs) >>= Program.ofFile >>= fun p =>
    Compiler.addEntries p names)

/-- What is accepted is computed from the characters, which are at hand if the text is written out. -/
theorem accepted_eq (file text : String) (names : List String) {cs : List Char} (h : text.toList = cs) :
    accepted file text names = acceptedChars file cs names := by
  subst h
  rfl

theorem accepted_spec {file text : String} {names : List String} {c : Checker}
    (h : accepted file text names = some c) :
    ∃ p, (Program.parse file text >>= fun p => Compiler.addEntries p names) = .ok p ∧
      p.check.run ⟨p, .empty⟩ = (.ok (), c) ∧ c.log.entries = [] := by
  unfold accepted acceptedLoad at h
  split at h
  · rename_i p hload
    split at h
    · rename_i c' hcheck
      split at h
      · rename_i hlog
        cases h
        exact ⟨p, hload, hcheck, List.isEmpty_iff.mp hlog⟩
      · cases h
    · cases h
  · cases h

/-- A text whose program is accepted: the identity, and its use at words. -/
def identityText : String :=
  "blocks:\n- name: f\n  params: [x]\n  code:\n  - return: [x]\n" ++
  "- name: g\n  code:\n  - call: f\n    args: [1]\n"

theorem wellTyped_identity : ∃ p c, (Program.parse "identity" identityText >>= fun p =>
    Compiler.addEntries p []) = .ok p ∧ p.check.run ⟨p, .empty⟩ = (.ok (), c) ∧
    c.log.entries = [] ∧ (c.program.defns.toList.countP fun d => d.body.isPolymorphic) = 1 ∧
    c.program.WellTyped := by
  have hcount : (accepted "identity" identityText []).map (fun c =>
      c.program.defns.toList.countP fun d => d.body.isPolymorphic) = some 1 := by
    rw [accepted_eq _ identityText _ (toList_append_ofList String.toList_ofList)]
    decide +kernel
  obtain ⟨c, hc, hcount⟩ := Option.map_eq_some_iff.mp hcount
  obtain ⟨p, hload, hcheck, hlog⟩ := accepted_spec hc
  exact ⟨p, c, hload, hcheck, hlog, hcount, wellTyped_of_check hload hcheck hlog⟩

end Typing

end Mil
