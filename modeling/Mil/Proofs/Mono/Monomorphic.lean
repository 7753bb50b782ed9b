import Mil.Proofs.Machine.Safety
import Mil.Proofs.Mono.Derive

/-!
Specialisation yields a monomorphic program. In every definition that can be reached from the
entrypoints nothing is generic, declared and recorded types have no variables, and each reference is
used at a type that prints like the declared type of what it refers to. The two types are equal
wherever the keys by which copies are remembered tell the uses of the program apart.
-/

namespace Mil

/-- The names of the definition have declared types without variables, these are their working types,
and nothing is generic. -/
def DefnBody.Settled : DefnBody → Prop
  | .block b => b.generics = [] ∧ ∃ type, type.Final ∧ b.declared = some type ∧
      b.defining = some type
  | .closure k => k.generics = [] ∧ ∃ type, type.Final ∧ k.declared = some type ∧
      k.defining = some type
  | .top t => t.generics = [] ∧ ∀ l ∈ t.lhs, l.generics = [] ∧ ∃ c : Scheme, c.Final ∧
      l.declared = some c ∧ l.defining = some c.type
  | .external e => e.declared.Final

/-- When a type at which a reference is used counts as the declared type of its target. -/
structure Agreement where
  block : BlockType → BlockType → Prop
  alloc : AllocType → AllocType → Prop
  value : Ty → Ty → Prop

/-- The types are equal. -/
def Agreement.equal : Agreement := ⟨(· = ·), (· = ·), (· = ·)⟩

/-- The types print alike. -/
def Agreement.alike (s : Store) : Agreement where
  block a b := a.key s = b.key s
  alloc a b := a.key s = b.key s
  value a b := s.text a = s.text b

/-- The rules in a program without variables. Recorded types are closed, and a reference is used at
the declared type of what it refers to. -/
def Program.monomorphic (q : Program) (A : Agreement) : Typing.Context where
  atom a := (q.atomType a).filter Ty.isGround
  read := id
  block j inst := inst.Final ∧ ∃ d b type, q.defns[j]? = some d ∧ d.body = .block b ∧
    b.declared = some type ∧ A.block type inst
  prim g inst := inst.Final ∧ g.type = inst
  closure j inst := inst.Final ∧ ∃ d k type, q.defns[j]? = some d ∧ d.body = .closure k ∧
    k.declared = some type ∧ A.alloc type inst
  cfun k inst := inst.Final ∧ q.store.IsInstance k.type.kinds k.type.parts inst.parts
  top j index t := t.Closed 0 ∧ ∃ d c, q.defns[j]? = some d ∧ d.body.scheme? index = some c ∧
    c.kinds = [] ∧ A.value c.type t

instance : DecidableEq Ty := instDecidableEqOfLawfulBEq

deriving instance DecidableEq for BlockType, AllocType, Use

namespace Use

/-- What a copy for the use would be remembered by. -/
def key (s : Store) : Use → Mono.CloneKey
  | .block id inst => ⟨id, 0, some (inst.key s)⟩
  | .closure id inst => ⟨id, 0, some (inst.key s)⟩
  | .value id index t => ⟨id, index, some (s.text t)⟩

/-- The use of the same name at its declared type. -/
def declared? (q : Program) : Use → Option Use
  | .block id _ => ((q.block? id).bind Block.declared).map (.block id)
  | .closure id _ => ((q.closure? id).bind Closure.declared).map (.closure id)
  | .value id index _ =>
    ((q.defns[id]?).bind fun d => d.body.scheme? index).map fun c => .value id index c.type

end Use

namespace Program

/-- The uses of all definitions that can be reached. -/
def reachedUses (q : Program) : List Use := q.reachable.flatMap q.usesOf

/-- Keys tell the uses of the program apart, from each other and from uses at declared types. -/
def KeysApart (q : Program) : Prop :=
  ∀ u ∈ q.reachedUses, ∀ v ∈ q.reachedUses ++ q.reachedUses.filterMap (Use.declared? q),
    u.key q.store = v.key q.store → u = v

instance (q : Program) : Decidable q.KeysApart := inferInstanceAs (Decidable (∀ u ∈ _, _))

theorem mem_reachedUses {q : Program} {id : DefnId} {d : Defn} {u : Use} (hid : id ∈ q.reachable)
    (hd : q.defns[id]? = some d) (hu : u ∈ q.uses d.body) : u ∈ q.reachedUses :=
  List.mem_flatMap.mpr ⟨id, hid, mem_getD_map.mpr ⟨d, hd, hu⟩⟩

/-- A use whose key is the key of its name at the declared type is at the declared type. -/
theorem KeysApart.eq {q : Program} (h : q.KeysApart) {u v : Use} (hu : u ∈ q.reachedUses)
    (hv : u.declared? q = some v) (hkey : u.key q.store = v.key q.store) : u = v :=
  h u hu v (List.mem_append_right _ (List.mem_filterMap.mpr ⟨u, hu, hv⟩)) hkey

end Program

namespace Mono

open Typing (Context DefnHas Complete Checker accepted accepted_eq accepted_spec)

variable {p : Program} {s : State}

/-! ### Whole specialisation -/

theorem canEnter_of_checkEntries {ids : List DefnId}
    (hy : Yields (ids.forM checkEntry) (.start p) () s) : ∀ id ∈ ids, CanEnter p id := by
  induction ids with
  | nil => exact fun _ hid => (nomatch hid)
  | cons id ids ih =>
      have hsteps : Yields (checkEntry id >>= fun _ => ids.forM checkEntry) (.start p) () s := hy
      obtain ⟨_, s₁, hcheck, hrest⟩ := yields_bind.mp hsteps
      obtain ⟨rfl, -⟩ := checkEntry_spec hcheck
      intro id' hid'
      rcases List.mem_cons.mp hid' with rfl | hid'
      · exact canEnter_of_checkEntry hcheck
      · exact ih hrest id' hid'

/-- Specialisation ends with copies that have the types they were asked for, and the entrypoints were
asked for. -/
theorem program_typed (h : Complete p) (hy : Yields program (.start p) () s) :
    Typed p (fun _ _ => True) [] s ∧ ∀ id ∈ p.entries, s.Asked id := by
  have hp := h.prepared
  rw [program, yields_bind] at hy
  obtain ⟨_, s₁, hget, hy⟩ := hy
  obtain ⟨rfl, rfl⟩ := yields_get.mp hget
  rw [yields_bind] at hy
  obtain ⟨_, s₂, hcheck, hy⟩ := hy
  obtain ⟨rfl, -⟩ := checkEntries_spec hcheck
  rw [yields_bind] at hy
  obtain ⟨_, s₃, hentries, hy⟩ := hy
  have hstart : Typed p (fun _ _ => True) [] (.start p) := typed_start
  obtain ⟨s₄, hyields, -, ht, htyped, hasked⟩ := entries_typed h (canEnter_of_checkEntries hcheck)
    (fun _ _ => trivial) (tracks_start hp.whole) hstart
  obtain rfl := yields_unique hentries hyields
  obtain ⟨hgrows, -, -⟩ := run_spec hp ht hy
  refine ⟨run_typed h hp (followed_true h) ht htyped hy, fun id hid => ?_⟩
  obtain ⟨k, hk⟩ := hasked id hid
  exact ⟨k, hgrows.clones _ hk⟩

/-! ### Definitions that can be reached -/

section Reached

variable {Good : DefnId → (Nat → Ty) → Prop}

theorem context_within : (s.context p).Within fun j => s.Asked j ∨ MonoExternal p j where
  block h := .inl h.2.1
  closure h := .inl h.2.1
  top h := h.2.1

/-- What an external refers to is no definition. -/
theorem impl_of_standing (h : Complete p) (ht : Tracks p [] s) (hqueue : s.queue = [])
    (htyped : Typed p Good [] s) {j : DefnId} {d : Defn} (hd : s.program.defns[j]? = some d)
    {e : Mil.External} (he : d.body = .external e) (hj : s.Asked j ∨ MonoExternal p j) :
    e.impl = none := by
  rcases hj with ⟨k, hk⟩ | ⟨d₀, e₀, hd₀, he₀, -⟩
  · obtain ⟨d₀, -, hd₀, -⟩ := htyped.heads hk
    rcases ht.served hk hd₀ with ⟨q, hq, -⟩ | ⟨d', hd', hcopy⟩
    · rw [List.nil_append, hqueue] at hq
      cases hq
    · obtain rfl : d' = d := Option.some.inj (hd'.symm.trans hd)
      rw [he] at hcopy
      generalize d₀.body = b at hcopy
      cases hcopy with
      | external himpl _ => exact himpl
  · obtain rfl : d = d₀ :=
      Option.some.inj (hd.symm.trans (htyped.external_standing ht hd₀ he₀))
    have hformed := h.layout.formed hd₀
    rw [he] at hformed
    exact hformed

/-- A definition that was asked for, or an external that quantifies nothing, has a derivation. -/
theorem derivation_of_standing (ht : Tracks p [] s) (hqueue : s.queue = [])
    (htyped : Typed p Good [] s) {j : DefnId} {d : Defn} (hd : s.program.defns[j]? = some d)
    (hj : s.Asked j ∨ MonoExternal p j) : Finished d.body ∧ DefnHas (s.context p) d.body := by
  rcases hj with ⟨k, hk⟩ | ⟨d₀, e₀, hd₀, he₀, -⟩
  · obtain ⟨d', hd', hrest⟩ := htyped.filled hk fun ⟨q, hq, _⟩ => by
      rw [List.nil_append, hqueue] at hq
      cases hq
    obtain rfl : d' = d := Option.some.inj (hd'.symm.trans hd)
    exact hrest
  · obtain rfl : d = d₀ :=
      Option.some.inj (hd.symm.trans (htyped.external_standing ht hd₀ he₀))
    rw [he₀]
    exact ⟨trivial, .external⟩

/-- References lead from definitions that were asked for to such definitions. -/
theorem standing_of_path (h : Complete p) (ht : Tracks p [] s) (hqueue : s.queue = [])
    (htyped : Typed p Good [] s) {i j : DefnId}
    (hpath : Successors.Path s.program.dependencies i j)
    (hi : s.Asked i ∨ MonoExternal p i) : s.Asked j ∨ MonoExternal p j := by
  induction hpath with
  | refl => exact hi
  | @tail j r _ hr ih =>
      rw [Program.dependencies] at hr
      cases hd : s.program.defns[j]? with
      | none =>
          rw [hd] at hr
          cases hr
      | some d =>
          rw [hd, Option.map_some, Option.getD_some, DefnBody.dependencies,
            List.mem_eraseDups] at hr
          exact (derivation_of_standing ht hqueue htyped hd ih).2.refs_within context_within
            (fun e he => impl_of_standing h ht hqueue htyped hd he ih) hr

theorem standing_of_reachable (h : Complete p) (ht : Tracks p [] s) (hqueue : s.queue = [])
    (htyped : Typed p Good [] s) (hentries : ∀ id ∈ p.entries, s.Asked id) {j : DefnId}
    (hj : j ∈ s.program.reachable) : s.Asked j ∨ MonoExternal p j := by
  rw [Program.reachable, htyped.start.entries] at hj
  have hreach := of_decide_eq_true (List.mem_filter.mp hj).2
  rcases Successors.path_of_mem_spread hreach with hnil | ⟨i, hi, hpath⟩
  · cases hnil
  · exact standing_of_path h ht hqueue htyped hpath (.inl (hentries i hi))

/-- A finished copy is settled. -/
theorem settled_of_headed (h : Complete p) {k : CloneKey} {d d' : Defn}
    (hd : p.defns[k.defn]? = some d) (hheaded : Headed p Good k d.body d'.body)
    (hfinished : Finished d'.body) : d'.body.Settled := by
  generalize hb : d.body = b at hheaded
  generalize d'.body = b' at hheaded hfinished
  cases hheaded with
  | external _ hfinal => exact hfinal
  | @copy _ _ θ hθ _ hhead =>
  cases hhead with
  | block hworking hdeclared =>
      obtain ⟨type, hworking', -, hq⟩ := quantifies_block h hd hb
      obtain rfl := Option.some.inj (hworking'.symm.trans hworking)
      exact ⟨hfinished.1, _, final_block hq.fits hθ, hdeclared, hfinished.2.trans hdeclared⟩
  | closure hworking hdeclared =>
      obtain ⟨type, hworking', -, hq⟩ := quantifies_closure h hd hb
      obtain rfl := Option.some.inj (hworking'.symm.trans hworking)
      exact ⟨hfinished.1, _, final_alloc hq.fits hθ, hdeclared, hfinished.2.trans hdeclared⟩
  | @top t t' types hworking hdeclared =>
      refine ⟨hfinished.1, fun l hl => ⟨(hfinished.2 l hl).1, ?_⟩⟩
      have hmem : l.declared ∈ types.map fun u => some (Scheme.mono (u.mapVars θ)) :=
        hdeclared ▸ List.mem_map_of_mem hl
      obtain ⟨u, hu, heq⟩ := List.mem_map.mp hmem
      have hmem' : some u ∈ t.lhs.map TopName.defining := hworking ▸ List.mem_map_of_mem hu
      obtain ⟨l₀, hl₀, hu⟩ := List.mem_map.mp hmem'
      obtain ⟨type, hworking', -, hq⟩ := quantifies_name h hd hb hl₀
      obtain rfl := Option.some.inj (hworking'.symm.trans hu)
      refine ⟨_, final_scheme hq.fits hθ, heq.symm, ?_⟩
      rw [(hfinished.2 l hl).2, ← heq]
      rfl

theorem settled_of_standing (h : Complete p) (ht : Tracks p [] s) (hqueue : s.queue = [])
    (htyped : Typed p Good [] s) {j : DefnId} {d : Defn} (hd : s.program.defns[j]? = some d)
    (hj : s.Asked j ∨ MonoExternal p j) : d.body.Settled := by
  have hfinished := (derivation_of_standing ht hqueue htyped hd hj).1
  rcases hj with ⟨k, hk⟩ | ⟨d₀, e, hd₀, he, hmono⟩
  · obtain ⟨d₀, d', hd₀, hd', -, hheaded⟩ := htyped.heads hk
    obtain rfl : d' = d := Option.some.inj (hd'.symm.trans hd)
    exact settled_of_headed h hd₀ hheaded hfinished
  · obtain rfl : d = d₀ := Option.some.inj (hd.symm.trans (htyped.external_standing ht hd₀ he))
    have hkinds : e.declared.kinds = [] := by simpa [Scheme.isPolymorphic] using hmono
    have hclosed : ClosedUnder e.declared.kinds.length e.declared.parts :=
      ((h.stage hd₀).declared e.interface (by rw [he]; exact .head _)).2 _ rfl
    rw [hkinds] at hclosed
    rw [he]
    exact ⟨hkinds, hclosed _ (.head _)⟩

/-- Definitions that were asked for, and externals that quantify nothing, are in the program. -/
theorem exists_of_standing (ht : Tracks p [] s) (htyped : Typed p Good [] s) {j : DefnId}
    (hj : s.Asked j ∨ MonoExternal p j) : ∃ d, s.program.defns[j]? = some d := by
  rcases hj with ⟨k, hk⟩ | ⟨d, e, hd, he, -⟩
  · obtain ⟨-, d, -, hd, -⟩ := htyped.heads hk
    exact ⟨d, hd⟩
  · exact ⟨d, htyped.external_standing ht hd he⟩

theorem linked_of_program (h : Complete p) (hrun : Yields program (.start p) () s) :
    s.program.Linked := by
  obtain ⟨ht, hqueue, -⟩ := program_spec h.prepared hrun
  obtain ⟨htyped, hentries⟩ := program_typed h hrun
  refine (Program.linked_of_closed (A := fun j => s.Asked j ∨ MonoExternal p j) ?_ ?_ ?_ ?_ ht.whole).1
  · intro j hj
    obtain ⟨d, hd⟩ := exists_of_standing ht htyped hj
    exact (Array.getElem?_eq_some_iff.mp hd).1
  · rw [htyped.start.entries]
    exact fun id hid => .inl (hentries id hid)
  · intro j d hj hd r hr
    exact (derivation_of_standing ht hqueue htyped hd hj).2.refs_within context_within
      (fun e he => impl_of_standing h ht hqueue htyped hd he hj) hr
  · intro j d hj hd c hc
    obtain ⟨inst, -, -, d', b, type, hd', hb, -⟩ :=
      (derivation_of_standing ht hqueue htyped hd hj).2.block_of_call hc
    exact ⟨b, block_eq hd' hb⟩

end Reached

/-! ### Monomorphic programs -/

theorem context_le_alike (hstore : s.program.store = p.store) :
    (s.context p).Le (s.program.monomorphic (.alike s.program.store)) := by
  refine ⟨fun _ _ ha => ha, rfl, ?_, fun _ _ h => ⟨h.2, h.1⟩, ?_, ?_, ?_⟩
  · rintro j inst ⟨hfinal, -, d, b, type, hd, hb, htype, -, hkey⟩
    exact ⟨hfinal, d, b, type, hd, hb, htype, hstore ▸ hkey⟩
  · rintro j inst ⟨hfinal, -, d, k, type, hd, hk, htype, -, hkey⟩
    exact ⟨hfinal, d, k, type, hd, hk, htype, hstore ▸ hkey⟩
  · rintro k inst ⟨hfinal, hinst⟩
    exact ⟨hfinal, hstore ▸ hinst⟩
  · rintro j index t ⟨hclosed, -, d, c, hd, hc, hfinal, htext⟩
    exact ⟨hclosed, d, c, hd, hc, hfinal.kinds, hstore ▸ htext⟩

/-- Uses that print like uses at declared types are such uses, if keys tell them apart. -/
theorem only_le_equal {q : Program} (hapart : q.KeysApart) {us : List Use}
    (hus : us ⊆ q.reachedUses) :
    ((q.monomorphic (.alike q.store)).only us).Le (q.monomorphic .equal) := by
  refine ⟨fun _ _ ha => ha, rfl, ?_, fun _ _ h => h, ?_, fun _ _ h => h, ?_⟩
  · rintro j inst ⟨⟨hfinal, d, b, type, hd, hb, htype, hkey⟩, hu⟩
    have hdeclared : (Use.block j inst).declared? q = some (.block j type) := by
      rw [Use.declared?, Program.block?, hd, Option.map_some, hb, Option.bind_some, htype]
      rfl
    have heq := hapart.eq (hus hu) hdeclared
      (congrArg (fun text => CloneKey.mk j 0 (some text)) (Eq.symm hkey))
    exact ⟨hfinal, d, b, type, hd, hb, htype, (Use.block.inj heq).2.symm⟩
  · rintro j inst ⟨⟨hfinal, d, k, type, hd, hk, htype, hkey⟩, hu⟩
    have hdeclared : (Use.closure j inst).declared? q = some (.closure j type) := by
      rw [Use.declared?, Program.closure?, hd, Option.map_some, hk, Option.bind_some, htype]
      rfl
    have heq := hapart.eq (hus hu) hdeclared
      (congrArg (fun text => CloneKey.mk j 0 (some text)) (Eq.symm hkey))
    exact ⟨hfinal, d, k, type, hd, hk, htype, (Use.closure.inj heq).2.symm⟩
  · rintro j index t ⟨⟨hclosed, d, c, hd, hc, hkinds, htext⟩, hu⟩
    have hdeclared : (Use.value j index t).declared? q = some (.value j index c.type) := by
      rw [Use.declared?, hd, Option.bind_some, hc]
      rfl
    have heq := hapart.eq (hus hu) hdeclared
      (congrArg (fun text => CloneKey.mk j index (some text)) (Eq.symm htext))
    exact ⟨hclosed, d, c, hd, hc, hkinds, (Use.value.inj heq).2.2.symm⟩

/-- Specialisation yields a monomorphic program: if a program is loaded, its check ends with no
failure and it is specialised, then every definition that can be reached is settled and has a
derivation in which all types are closed and every reference is used at a type that prints like the
declared type of its target. It is used at the declared type itself if keys tell the uses apart. -/
theorem specialize_monomorphic {file text : String} {names : List String} {p : Program}
    {log : FailureLog} {c : Checker} {q : Program}
    (hload : (Program.parse file text >>= fun p => Compiler.addEntries p names) = .ok p)
    (hcheck : p.check.run ⟨p, log⟩ = (.ok (), c)) (hlog : c.log.entries = [])
    (hq : c.program.specialize = .ok q) {id : DefnId} (hid : id ∈ q.reachable) :
    ∃ d, q.defns[id]? = some d ∧ d.body.Settled ∧
      DefnHas (q.monomorphic (.alike q.store)) d.body ∧
      (q.KeysApart → DefnHas (q.monomorphic .equal) d.body) := by
  have h := Typing.complete_of_check (Source.loaded_of_parse hload) hcheck hlog
  obtain ⟨s, hrun, rfl⟩ := exists_of_specialize hq
  obtain ⟨ht, hqueue, -⟩ := program_spec h.prepared hrun
  obtain ⟨htyped, hentries⟩ := program_typed h hrun
  have hlt : id < s.program.defns.size := List.mem_range.mp (List.mem_filter.mp hid).1
  have hd : s.program.defns[id]? = some s.program.defns[id] := Array.getElem?_eq_getElem hlt
  have hstanding := standing_of_reachable h ht hqueue htyped hentries hid
  have hhas := (derivation_of_standing ht hqueue htyped hd hstanding).2.mono
    (context_le_alike htyped.store)
  refine ⟨_, hd, settled_of_standing h ht hqueue htyped hd hstanding, hhas, fun hapart => ?_⟩
  refine (hhas.only fun a t ha => (Option.filter_eq_some_iff.mp ha).1).mono ?_
  exact only_le_equal hapart fun u hu => Program.mem_reachedUses hid hd hu

/-- Does the checked program have a specialised one with four definitions that can be reached, whose
uses keys tell apart? -/
def copiesApart (p : Program) : Bool :=
  match p.specialize with
  | .ok q => decide (0 ∈ q.reachable ∧ q.reachable.length = 4 ∧ q.KeysApart)
  | .error _ => false

/-- A text with a block that is used at words and at flags, and with a closure over a word. -/
def copiesText : String :=
  "closures:\n- name: k\n  stored: [a]\n  tail: \x7breturn: [a]\x7d\nblocks:\n- name: f\n" ++
  "  type: \"[Word] >>= [Word]\"\n  params: [x]\n  code:\n  - bind: [y]\n    call: g\n" ++
  "    args: [x]\n  - bind: [z]\n    call: g\n    args: [true]\n  - bind: [h]\n    alloc: k\n" ++
  "    args: [y]\n  - enter: h\n- name: g\n  params: [x]\n  code:\n  - return: [x]\n"

theorem specialize_monomorphic_copies : ∃ p c q d,
    (Program.parse "copies" copiesText >>= fun p => Compiler.addEntries p ["f"]) = .ok p ∧
    p.check.run ⟨p, .empty⟩ = (.ok (), c) ∧ c.program.specialize = .ok q ∧
    q.reachable.length = 4 ∧ q.defns[0]? = some d ∧ d.body.Settled ∧
    DefnHas (q.monomorphic .equal) d.body := by
  have hall : (accepted "copies" copiesText ["f"]).any (fun c => copiesApart c.program) = true := by
    rw [accepted_eq _ copiesText _
      (toList_append_ofList (toList_append_ofList (toList_append_ofList String.toList_ofList)))]
    decide +kernel
  obtain ⟨c, hc, hall⟩ := (Option.any_eq_true _ _).mp hall
  obtain ⟨p, hload, hcheck, hlog⟩ := accepted_spec hc
  unfold copiesApart at hall
  split at hall
  · rename_i q hq
    obtain ⟨hid, hlen, hapart⟩ := of_decide_eq_true hall
    obtain ⟨d, hd, hsettled, -, hhas⟩ := specialize_monomorphic hload hcheck hlog hq hid
    exact ⟨p, c, q, d, hload, hcheck, hq, hlen, hd, hsettled, hhas hapart⟩
  · cases hall

/-- Is a name used in the first definition of the specialised program at another type than its
declared one? -/
def usesAnother (p : Program) : Bool :=
  match p.specialize with
  | .ok q => decide (0 ∈ q.reachable) && (q.defns[0]?).any fun d => (q.uses d.body).any fun u =>
      (u.declared? q).any fun v => decide (u.key q.store = v.key q.store ∧ u ≠ v)
  | .error _ => false

/-- A text with a block that is used at two types of functions that print alike. -/
def alikeText : String :=
  "blocks:\n- name: f\n  type: \"[(Word ->> Word) ->> Word, Word ->> Word ->> Word] >>= " ++
  "[Word ->> Word ->> Word]\"\n  params: [g, h]\n  code:\n  - bind: [x]\n    call: i\n" ++
  "    args: [g]\n  - call: i\n    args: [h]\n- name: i\n  params: [x]\n  code:\n  - return: [x]\n"

/-- Types that print alike share a copy, so a name can be used at another type than its declared
one. -/
theorem uses_alike : ∃ p c q d u v,
    (Program.parse "alike" alikeText >>= fun p => Compiler.addEntries p ["f"]) = .ok p ∧
    p.check.run ⟨p, .empty⟩ = (.ok (), c) ∧ c.log.entries = [] ∧ c.program.specialize = .ok q ∧
    0 ∈ q.reachable ∧ q.defns[0]? = some d ∧ u ∈ q.uses d.body ∧ Use.declared? q u = some v ∧
    Use.key q.store u = Use.key q.store v ∧ u ≠ v := by
  have hall : (accepted "alike" alikeText ["f"]).any (fun c => usesAnother c.program) = true := by
    rw [accepted_eq _ alikeText _ (toList_append_ofList (toList_append_ofList String.toList_ofList))]
    decide +kernel
  obtain ⟨c, hc, hall⟩ := (Option.any_eq_true _ _).mp hall
  obtain ⟨p, hload, hcheck, hlog⟩ := accepted_spec hc
  unfold usesAnother at hall
  split at hall
  · rename_i q hq
    rw [Bool.and_eq_true] at hall
    obtain ⟨d, hd, hany⟩ := (Option.any_eq_true _ _).mp hall.2
    obtain ⟨u, hu, hany⟩ := List.any_eq_true.mp hany
    obtain ⟨v, hv, hsame⟩ := (Option.any_eq_true _ _).mp hany
    exact ⟨p, c, q, d, u, v, hload, hcheck, hlog, hq, of_decide_eq_true hall.1, hd, hu, hv,
      of_decide_eq_true hsame⟩
  · cases hall

end Mono

end Mil
