import Mil.Proofs.Mono.Typed

/-!
Requests are granted. In a checked program every use is at an instance of the declared type, so
matching succeeds whatever closed types the instance is read as. The answer is a definition whose
declared type has the text of what was asked for, and the request that goes into the queue is at a
good reading of the source.
-/

namespace Mil

theorem BlockType.ground_of_final {s : Store} {b : BlockType} (h : b.Final) : b.ground s = b := by
  obtain ⟨hkinds, hclosed⟩ := h
  cases b
  cases hkinds
  rw [ground, Mono.ground_of_closed (hclosed _ (.head _)),
    Mono.ground_of_closed (hclosed _ (.tail _ (.head _)))]

theorem BlockType.eq_of_parts {a b : BlockType} (hkinds : a.kinds = b.kinds)
    (hparts : a.parts = b.parts) : a = b := by
  cases a
  cases b
  cases hkinds
  cases hparts
  rfl

theorem AllocType.eq_of_parts {a b : AllocType} (hkinds : a.kinds = b.kinds)
    (hparts : a.parts = b.parts) : a = b := by
  obtain ⟨hstored, hresult⟩ := List.append_inj' hparts rfl
  cases a
  cases b
  cases hkinds
  cases hstored
  cases hresult
  rfl

theorem AllocType.ground_of_final {s : Store} {a : AllocType} (h : a.Final) : a.ground s = a := by
  obtain ⟨hkinds, hclosed⟩ := h
  cases a
  cases hkinds
  rw [ground, mapTypes, Mono.ground_of_closed (hclosed _ (List.mem_append_right _ (.head _)))]
  congr
  refine (List.map_congr_left fun t ht => ?_).trans (List.map_id' _)
  exact Mono.ground_of_closed (hclosed t (List.mem_append_left _ ht))

namespace Mono

open Typing (Context DefnHas Complete)

section Final

variable {s : Store} {θ : Nat → Ty}

theorem final_block {b : BlockType} (hfits : s.Fits 0 b.parts) (hθ : Assigns s θ) :
    (b.mapTypes (Ty.mapVars θ)).Final :=
  ⟨rfl, closedUnder_reading hfits hθ⟩

theorem final_alloc {a : AllocType} (hfits : s.Fits 0 a.parts) (hθ : Assigns s θ) :
    (a.mapTypes (Ty.mapVars θ)).Final :=
  ⟨rfl, a.parts_mapTypes _ ▸ closedUnder_reading hfits hθ⟩

theorem final_scheme {t : Ty} (hfits : s.Fits 0 [t]) (hθ : Assigns s θ) :
    (Scheme.mono (t.mapVars θ)).Final :=
  ⟨rfl, closedUnder_reading hfits hθ _ (.head _)⟩

end Final

/-! ### Definitions as they stand -/

section Standing

theorem definition_yields {s : State} {id : DefnId} {d : Defn}
    (h : s.program.defns[id]? = some d) : Yields (definition id) s d s := by
  refine yields_bind.mpr ⟨s, s, rfl, ?_⟩
  rw [Program.defn, h]
  rfl

theorem known?_yields {s : State} {k : CloneKey} {r : Option DefnId}
    (h : s.clones.lookup k = r) : Yields (known? k) s r s := by
  rw [← h]
  rfl

variable {p : Program} {Good : DefnId → (Nat → Ty) → Prop} {extra : List Pending} {s : State}
  {id : DefnId} {d₀ : Defn}

/-- An external is never filled in. -/
theorem Typed.external_standing (h : Tracks p extra s) (htyped : Typed p Good extra s)
    (hd₀ : p.defns[id]? = some d₀) {e : Mil.External} (he : d₀.body = .external e) :
    s.program.defns[id]? = some d₀ := by
  refine h.untouched hd₀ (.inr (.inr fun hown => ?_))
  obtain ⟨d, d', hd, -, -, hheaded⟩ := htyped.heads hown
  obtain rfl : d = d₀ := Option.some.inj (hd.symm.trans hd₀)
  rw [he] at hheaded
  generalize d'.body = b' at hheaded
  cases hheaded with
  | copy _ _ hhead => cases hhead
  | external hne _ => exact hne rfl

end Standing

/-! ### Definitions that are used as they are -/

section Own

variable {p : Program} {Good : DefnId → (Nat → Ty) → Prop} {extra : List Pending} {s₀ : State}
  {id : DefnId} {d : Defn}

theorem assigns_default (h : Complete p) : Assigns p.store (valuation p.store []) :=
  assigns_valuation h.regular fun _ hx => (nomatch hx)

/-- The names of a top-level definition, as a reading gives their working types. -/
theorem declared_names {t t' : TopLevel} {types : List Ty} {f : Ty → Scheme}
    (htypes : t.lhs.map TopName.defining = types.map some)
    (hnames : t'.lhs.map TopName.declared = t.lhs.map fun l => l.defining.map f) :
    t'.lhs.map TopName.declared = types.map fun u => some (f u) := by
  have hmap : (t.lhs.map fun l => l.defining.map f) =
      (t.lhs.map TopName.defining).map (Option.map f) := by
    rw [List.map_map]
    rfl
  rw [hnames, hmap, htypes, List.map_map]
  rfl

theorem working_names (h : Complete p) (hd : p.defns[id]? = some d) {t : TopLevel}
    (ht : d.body = .top t) : ∃ types : List Ty, t.lhs.map TopName.defining = types.map some := by
  have hhas := (h.stage hd).derivation _ (assigns_default h).solves
  rw [ht] at hhas
  cases hhas with
  | top htypes _ _ => exact ⟨_, htypes⟩

/-- A definition that quantifies nothing has its working types as its declared types. -/
theorem headAt_own (h : Complete p) (hd : p.defns[id]? = some d)
    (hmono : d.body.isPolymorphic = false) (hcode : hasCode p id = true) :
    HeadAt (valuation p.store []) d.body d.body := by
  have hθ := (assigns_default h).solves
  cases hb : d.body with
  | block b =>
      rw [hb] at hmono
      obtain ⟨type, hworking, hdeclared, hq⟩ := quantifies_block h hd hb
      have hnil : b.generics = [] := by simpa [DefnBody.isPolymorphic] using hmono
      refine .block hworking (hdeclared.trans (congrArg some ?_))
      have hparts := hq.reading_of_nil h.regular hnil hθ
      simp only [BlockType.parts, List.map_cons, List.map_nil, List.cons.injEq, and_true] at hparts
      rw [BlockType.generalize, BlockType.mapTypes, hparts.1, hparts.2, hnil]
      rfl
  | closure k =>
      rw [hb] at hmono
      obtain ⟨type, hworking, hdeclared, hq⟩ := quantifies_closure h hd hb
      have hnil : k.generics = [] := by simpa [DefnBody.isPolymorphic] using hmono
      refine .closure hworking (hdeclared.trans (congrArg some ?_))
      have hparts := hq.reading_of_nil h.regular hnil hθ
      rw [AllocType.parts, List.map_append, List.map_append] at hparts
      obtain ⟨hstored, hresult⟩ := List.append_inj hparts (by simp)
      simp only [List.map_cons, List.map_nil, List.cons.injEq, and_true] at hresult
      rw [AllocType.generalize, AllocType.mapTypes, AllocType.mapTypes, hstored, hresult, hnil]
      rfl
  | top t =>
      rw [hb] at hmono
      have hnil : t.generics = [] := by simpa [DefnBody.isPolymorphic] using hmono
      obtain ⟨types, htypes⟩ := working_names h hd hb
      refine .top htypes (declared_names htypes (List.map_congr_left fun l hl => ?_))
      obtain ⟨type, hworking, hdeclared, hq⟩ := quantifies_name h hd hb hl
      have hnil' : l.generics = [] := by
        refine List.eq_nil_iff_forall_not_mem.mpr fun v hv => ?_
        have hmem := mem_generics_of_name h hd hb hl hv
        rw [hnil] at hmem
        cases hmem
      have hparts := hq.reading_of_nil h.regular hnil' hθ
      simp only [List.map_cons, List.map_nil, List.cons.injEq, and_true] at hparts
      rw [hdeclared, hworking, Option.map_some, Scheme.generalize, hparts, hnil']
      rfl
  | external e =>
      rw [hasCode, hd, Option.map_some, hb] at hcode
      cases hcode

/-- A definition that quantifies nothing is asked for as it is. -/
theorem meets_mono (h : Complete p) (hd : p.defns[id]? = some d)
    (hmono : d.body.isPolymorphic = false) (hcode : hasCode p id = true)
    (hgood : Good id (valuation p.store [])) :
    Meets p Good extra s₀ (mono id) fun s j => j = id ∧ s.Asked id := by
  intro s _ ht htyped
  have hlt := (Array.getElem?_eq_some_iff.mp hd).1
  obtain ⟨d', hd', hsame⟩ := htyped.start.heads hd
  have hmono' : d'.body.isPolymorphic = false := (ht.polymorphic hd hd').1.symm.trans hmono
  cases hknown : s.clones.lookup (.own id) with
  | none =>
      let s' : State := { s with
        clones := (.own id, id) :: s.clones, queue := s.queue ++ [⟨id, id, []⟩] }
      have hyields : Yields (mono id) s id s' :=
        yields_bind.mpr ⟨none, s, known?_yields hknown, rfl⟩
      obtain ⟨-, ht', -⟩ := mono_spec ht hd' hlt hmono' hyields
      have hhead := (headAt_own h hd hmono hcode).congr hsame
      have hasked : Steps p s s' ∧ Typed p Good extra s' := by
        refine htyped.ask (.own id) id (some ⟨id, id, []⟩) rfl rfl rfl rfl (fun hd => hd) rfl rfl rfl
          hknown hd hd' (.inl rfl) (.copy (assigns_default h) hgood hhead) hcode (fun q hq => ?_)
          fun hnone => (nomatch hnone)
        cases hq
        exact ⟨rfl, rfl, fun _ hx => (nomatch hx), hgood, hhead⟩
      exact ⟨id, s', hyields, hasked.1, ht', hasked.2, rfl, .own id, .head _⟩
  | some j =>
      have hyields : Yields (mono id) s id s :=
        yields_bind.mpr ⟨some j, s, known?_yields hknown, rfl⟩
      have hmem := mem_clones_of_lookup hknown
      obtain rfl : j = id := by
        rcases (ht.asked hmem).2.2 with ⟨hj, -⟩ | ⟨-, hne, -⟩
        · exact hj
        · exact absurd rfl hne
      exact ⟨j, s, hyields, .refl p s, ht, htyped, rfl, .own j, hmem⟩

end Own

/-! ### New copies -/

/-- The state after a new definition was asked for as a copy. -/
def State.withClone (s : State) (k : CloneKey) (d : Defn) (counts : List (DefnId × Nat))
    (added : Option Pending) : State where
  program := { s.program with defns := s.program.defns.push d }
  clones := (k, s.program.defns.size) :: s.clones
  prims := s.prims
  counts := counts
  queue := s.queue ++ added.toList

section Clone

variable {p : Program} {Good : DefnId → (Nat → Ty) → Prop} {extra : List Pending} {s : State}

/-- A new definition is asked for as the copy of another, at a good reading of it. -/
theorem Typed.clone (hreg : p.store.Regular 0) (h : Typed p Good extra s) {k : CloneKey}
    {d d' : Defn} {sub : TySubst} (counts : List (DefnId × Nat))
    (hfresh : s.clones.lookup k = none) (hd : p.defns[k.defn]? = some d)
    (hcode : hasCode p k.defn = true) (hkey : KeyText p.store k d'.body) (hsub : ClosedSubst sub)
    (hgood : Good k.defn (valuation p.store sub))
    (hhead : HeadAt (valuation p.store sub) d.body d'.body) :
    Steps p s (s.withClone k d' counts (some ⟨k.defn, s.program.defns.size, sub⟩)) ∧
      Typed p Good extra
        (s.withClone k d' counts (some ⟨k.defn, s.program.defns.size, sub⟩)) := by
  refine h.ask k s.program.defns.size (some ⟨k.defn, s.program.defns.size, sub⟩) rfl rfl rfl rfl
    (fun he => getElem?_push_of_some he d') rfl rfl rfl hfresh hd Array.getElem?_push_size
    (.inr hkey) (.copy (assigns_valuation hreg hsub) hgood hhead) hcode (fun q hq => ?_)
    fun hnone => (nomatch hnone)
  cases hq
  exact ⟨rfl, rfl, hsub, hgood, hhead⟩

theorem yields_request (k : CloneKey) (make : Nat → Defn) (finish : DefnId → MonoM DefnId)
    {sub : TySubst}
    (hfinish : ∀ s', s'.program.store = s.program.store → Yields (finish s.program.defns.size) s'
      s.program.defns.size
      { s' with queue := s'.queue ++ [⟨k.defn, s.program.defns.size, sub⟩] }) :
    ∃ n counts, Yields (do
      let n ← nextNumber k.defn
      let c ← add (make n)
      remember k c
      finish c) s s.program.defns.size
        (s.withClone k (make n) counts (some ⟨k.defn, s.program.defns.size, sub⟩)) := by
  let n := (s.counts.lookup k.defn).getD 0 + 1
  refine ⟨n, (k.defn, n) :: s.counts, yields_bind.mpr ⟨n, _, rfl, yields_bind.mpr ⟨_, _, rfl, ?_⟩⟩⟩
  exact yields_bind.mpr ⟨(), _, rfl, hfinish _ rfl⟩

theorem specializing_gives {vars : List Nat} {slots : Slots} {sub : TySubst}
    (h : slots.specialize? s.program.store vars = some sub) :
    Yields (specializing vars slots) s sub s := by
  refine yields_bind.mpr ⟨_, s, rfl, ?_⟩
  rw [h]
  rfl

end Clone

/-! ### Blocks and closures -/

section Code

variable {p : Program} {Good : DefnId → (Nat → Ty) → Prop} {extra : List Pending} {s₀ s : State}
  {id : DefnId} {d₀ : Defn} {θ : Nat → Ty}

/-- What was asked for by the text of a block type has a declared type of this text. -/
theorem Typed.block_known (h : Complete p) (htyped : Typed p Good extra s) {b₀ : Block}
    (hd₀ : p.defns[id]? = some d₀) (hb₀ : d₀.body = .block b₀) {asked : BlockType}
    (hfinal : asked.Final) {c : DefnId}
    (hknown : (⟨id, 0, some (asked.key p.store)⟩, c) ∈ s.clones) :
    (s.context p).block c asked := by
  obtain ⟨d, d', hd, hd', hkey, hheaded⟩ := htyped.heads hknown
  obtain rfl : d = d₀ := Option.some.inj (hd.symm.trans hd₀)
  have hkey : KeyText p.store ⟨id, 0, some (asked.key p.store)⟩ d'.body :=
    hkey.resolve_left fun hown => nomatch congrArg CloneKey.inst hown
  obtain ⟨type, hworking, -, hq⟩ := quantifies_block h hd₀ hb₀
  rw [hb₀] at hheaded
  generalize hb' : d'.body = body at hheaded hkey
  cases hheaded with
  | copy hθ hgood hhead =>
      cases hhead with
      | block hworking' hdeclared =>
          obtain rfl : type = _ := Option.some.inj (hworking.symm.trans hworking')
          refine ⟨hfinal, ⟨_, hknown⟩, d', _, _, hd', hb', hdeclared, final_block hq.fits hθ, ?_⟩
          exact (Option.some.inj (hkey _ hdeclared).2).symm

/-- A block that quantifies nothing is used at its declared type. -/
theorem Typed.block_own (h : Complete p) (htyped : Typed p Good extra s) (hθ : Assigns p.store θ)
    {b₀ : Block} (hd₀ : p.defns[id]? = some d₀) (hb₀ : d₀.body = .block b₀) {inst : BlockType}
    (hseen : b₀.interface.SeenAs p.store inst.parts) (hnil : b₀.generics = [])
    (hasked : s.Asked id) : (s.context p).block id (inst.mapTypes (Ty.mapVars θ)) := by
  obtain ⟨type, -, hdeclared, hq⟩ := quantifies_block h hd₀ hb₀
  have hinst := hq.isInstance hseen
  have hfinal := final_block hinst.fits hθ
  obtain ⟨d', hd', hsame⟩ := htyped.start.heads hd₀
  rw [hb₀] at hsame
  generalize hb' : d'.body = body at hsame
  cases hsame with
  | @block _ b' hdeclared' =>
      refine ⟨hfinal, hasked, d', b', _, hd', hb', ?_, hfinal, rfl⟩
      rw [hdeclared', hdeclared]
      refine congrArg some (BlockType.eq_of_parts ?_ ?_)
      · rw [hfinal.kinds, BlockType.generalize, hnil]
        rfl
      · rw [hnil] at hinst ⊢
        rw [BlockType.parts_generalize]
        exact (reading_of_isInstance_nil hinst hθ).symm

/-- Matching the declared type of a block with an instance leads to a reading of the block. -/
theorem block_match (h : Complete p) (hθ : Assigns p.store θ) {b₀ : Block} {type inst : BlockType}
    (hq : Quantifies p.store b₀.interface b₀.generics type.parts)
    (hseen : b₀.interface.SeenAs p.store inst.parts) :
    ∃ slots sub, (type.generalize p.store b₀.generics).matchInto p.store
        (inst.mapTypes (Ty.mapVars θ))
        (Slots.ofKinds (type.generalize p.store b₀.generics).kinds) = (true, slots) ∧
      slots.specialize? p.store b₀.generics = some sub ∧ ClosedSubst sub ∧
      Reads p.store b₀.interface b₀.generics (valuation p.store sub)
        (inst.parts.map (Ty.mapVars θ)) := by
  have hinst := hq.isInstance hseen
  have hmatch : ((type.generalize p.store b₀.generics).matchInto p.store
      (inst.mapTypes (Ty.mapVars θ))
      (Slots.ofKinds (type.generalize p.store b₀.generics).kinds)).1 = true := by
    refine BlockType.matchInto_of_isInstance h.regular ?_ ?_
    · rw [BlockType.length_kinds_generalize, BlockType.parts_generalize]
      exact hq.closed h.regular
    · rw [BlockType.parts_generalize]
      exact isInstance_reading hinst hθ
  generalize hslots : (type.generalize p.store b₀.generics).matchInto p.store
      (inst.mapTypes (Ty.mapVars θ))
      (Slots.ofKinds (type.generalize p.store b₀.generics).kinds) = r at hmatch
  obtain ⟨ok, slots⟩ := r
  obtain rfl : ok = true := hmatch
  have hlist := (BlockType.matchInto_eq ..).symm.trans hslots
  rw [BlockType.parts_generalize] at hlist
  obtain ⟨sub, hsub, hclosed, hreads⟩ :=
    hq.reads_of_match h.regular (isInstance_reading hinst hθ) (closedUnder_reading hinst.fits hθ)
      hlist [] fun _ hx => (nomatch hx)
  rw [List.append_nil] at hclosed hreads
  exact ⟨slots, sub, rfl, hsub, hclosed, hreads⟩

/-- A new copy of a block has the type that was asked for. -/
theorem Typed.block_new (h : Complete p) (htyped : Typed p Good extra s) {b₀ : Block}
    {type asked : BlockType} {sub : TySubst} {d' : Defn} {b' : Block}
    (hd₀ : p.defns[id]? = some d₀) (hb₀ : d₀.body = .block b₀) (hworking : b₀.defining = some type)
    (hfinal : asked.Final) (hparts : type.parts.map (Ty.mapVars (valuation p.store sub)) = asked.parts)
    (hsub : ClosedSubst sub) (hgood : Good id (valuation p.store sub))
    (hknown : s.clones.lookup ⟨id, 0, some (asked.key p.store)⟩ = none)
    (hb' : d'.body = .block b') (hdeclared : b'.declared = some (asked.ground p.store))
    (counts : List (DefnId × Nat)) {s' : State}
    (hs' : s' = s.withClone ⟨id, 0, some (asked.key p.store)⟩ d' counts
      (some ⟨id, s.program.defns.size, sub⟩)) :
    Steps p s s' ∧ Typed p Good extra s' ∧ (s'.context p).block s.program.defns.size asked := by
  rw [BlockType.ground_of_final hfinal] at hdeclared
  have hcode : hasCode p id = true := by rw [hasCode, hd₀, Option.map_some, hb₀]
  have hhead : HeadAt (valuation p.store sub) d₀.body d'.body := by
    rw [hb₀, hb']
    exact .block hworking (hdeclared.trans
      (congrArg some (BlockType.eq_of_parts hfinal.kinds hparts.symm)))
  have hkey : KeyText p.store ⟨id, 0, some (asked.key p.store)⟩ d'.body := by
    rw [hb']
    intro type' htype'
    obtain rfl : asked = type' := Option.some.inj (hdeclared.symm.trans htype')
    exact ⟨rfl, rfl⟩
  obtain ⟨hsteps, htyped'⟩ := htyped.clone h.regular counts hknown hd₀ hcode hkey hsub hgood hhead
  subst hs'
  exact ⟨hsteps, htyped', hfinal, ⟨_, .head _⟩, d', b', asked, Array.getElem?_push_size, hb',
    hdeclared, hfinal, rfl⟩

theorem meets_block (h : Complete p) (hθ : Assigns p.store θ) {inst : BlockType}
    (huse : (workingAt p Good θ).block id inst) :
    Meets p Good extra s₀ (block id (inst.mapTypes (Ty.mapVars θ))) fun s j =>
      (s.context p).block j (inst.mapTypes (Ty.mapVars θ)) := by
  obtain ⟨d₀, b₀, hd₀, hb₀, hseen, hgood⟩ := huse
  obtain ⟨type, hworking, hdeclared, hq⟩ := quantifies_block h hd₀ hb₀
  have hlt := (Array.getElem?_eq_some_iff.mp hd₀).1
  have hcode : hasCode p id = true := by rw [hasCode, hd₀, Option.map_some, hb₀]
  intro s hs ht htyped
  obtain ⟨d, hd, hsame⟩ := htyped.start.heads hd₀
  have hpoly := ht.polymorphic hd₀ hd
  by_cases hnil : b₀.generics = []
  · have hmono : d₀.body.isPolymorphic = false := by
      rw [hb₀, DefnBody.isPolymorphic, hnil]
      rfl
    obtain ⟨j, s', hyields, hsteps, ht', htyped', rfl, hasked⟩ :=
      meets_mono h hd₀ hmono hcode (hgood _ (hq.reads_of_nil h.regular hnil hseen hθ)) s hs ht htyped
    refine ⟨j, s', yields_bind.mpr ⟨d, s, definition_yields hd, ?_⟩, hsteps, ht', htyped',
      htyped'.block_own h hθ hd₀ hb₀ hseen hnil hasked⟩
    have hmono' := hpoly.1.symm.trans hmono
    rw [hb₀] at hsame
    generalize hb : d.body = body at hsame hmono'
    cases hsame with
    | @block _ b _ =>
        have hempty : b.generics.isEmpty = true := by simpa [DefnBody.isPolymorphic] using hmono'
        dsimp only
        rw [if_pos hempty]
        exact hyields
  · have hpoly₀ : d₀.body.isPolymorphic = true := by
      rw [hb₀, DefnBody.isPolymorphic]
      simpa using hnil
    obtain rfl := hpoly.2 (hpoly.1.symm.trans hpoly₀)
    obtain ⟨slots, sub, hslots, hsub, hclosed, hreads⟩ := block_match h hθ hq hseen
    have hfinal := final_block (hq.isInstance hseen).fits hθ
    have hstore := htyped.store
    generalize hasked : inst.mapTypes (Ty.mapVars θ) = asked at hslots hfinal
    let k : CloneKey := ⟨id, 0, some (asked.key p.store)⟩
    cases hknown : s.clones.lookup k with
    | some c =>
        refine ⟨c, s, ?_, .refl p s, ht, htyped,
          htyped.block_known h hd₀ hb₀ hfinal (mem_clones_of_lookup hknown)⟩
        refine yields_bind.mpr ⟨d₀, s, definition_yields hd, ?_⟩
        rw [hb₀]
        dsimp only
        rw [if_neg (by simpa using hnil)]
        refine yields_bind.mpr ⟨_, s, rfl, yields_bind.mpr ⟨some c, s, ?_, rfl⟩⟩
        rw [hstore]
        exact known?_yields hknown
    | none =>
        let make (n : Nat) : Defn := .new (numbered d₀.name n) d₀.pos
          (.block { Block.new [] none with declared := some (asked.ground p.store) })
        obtain ⟨n, counts, hrequest⟩ := yields_request k make
          (fun c => do
            enqueue ⟨id, c, ← specializing b₀.generics slots⟩
            return c)
          fun s' hs' => yields_bind.mpr ⟨sub, s', specializing_gives (hs' ▸ hstore ▸ hsub), rfl⟩
        have hyields : Yields (block id asked) s s.program.defns.size
            (s.withClone k (make n) counts (some ⟨id, s.program.defns.size, sub⟩)) := by
          refine yields_bind.mpr ⟨d₀, s, definition_yields hd, ?_⟩
          rw [hb₀]
          dsimp only
          rw [if_neg (by simpa using hnil)]
          refine yields_bind.mpr ⟨_, s, rfl, yields_bind.mpr ⟨none, s, ?_, ?_⟩⟩
          · rw [hstore]
            exact known?_yields hknown
          · dsimp only
            rw [hdeclared, Option.getD_some, hstore, hslots]
            exact hrequest
        obtain ⟨hsteps, htyped', hcontext⟩ := htyped.block_new h hd₀ hb₀ hworking hfinal
          (hasked ▸ hq.parts_eq hreads) hclosed (hgood _ hreads) hknown
          (show (make n).body = _ from rfl) rfl counts rfl
        exact ⟨_, _, hyields, hsteps, (block_spec ht hlt hyields).2.1, htyped', hcontext⟩

/-- What was asked for by the text of an allocation type has a declared type of this text. -/
theorem Typed.closure_known (h : Complete p) (htyped : Typed p Good extra s) {k₀ : Closure}
    (hd₀ : p.defns[id]? = some d₀) (hk₀ : d₀.body = .closure k₀) {asked : AllocType}
    (hfinal : asked.Final) {c : DefnId}
    (hknown : (⟨id, 0, some (asked.key p.store)⟩, c) ∈ s.clones) :
    (s.context p).closure c asked := by
  obtain ⟨d, d', hd, hd', hkey, hheaded⟩ := htyped.heads hknown
  obtain rfl : d = d₀ := Option.some.inj (hd.symm.trans hd₀)
  have hkey : KeyText p.store ⟨id, 0, some (asked.key p.store)⟩ d'.body :=
    hkey.resolve_left fun hown => nomatch congrArg CloneKey.inst hown
  obtain ⟨type, hworking, -, hq⟩ := quantifies_closure h hd₀ hk₀
  rw [hk₀] at hheaded
  generalize hb' : d'.body = body at hheaded hkey
  cases hheaded with
  | copy hθ hgood hhead =>
      cases hhead with
      | closure hworking' hdeclared =>
          obtain rfl : type = _ := Option.some.inj (hworking.symm.trans hworking')
          refine ⟨hfinal, ⟨_, hknown⟩, d', _, _, hd', hb', hdeclared, final_alloc hq.fits hθ, ?_⟩
          exact (Option.some.inj (hkey _ hdeclared).2).symm

/-- A closure that quantifies nothing is used at its declared type. -/
theorem Typed.closure_own (h : Complete p) (htyped : Typed p Good extra s) (hθ : Assigns p.store θ)
    {k₀ : Closure} (hd₀ : p.defns[id]? = some d₀) (hk₀ : d₀.body = .closure k₀) {inst : AllocType}
    (hseen : k₀.interface.SeenAs p.store inst.parts) (hnil : k₀.generics = [])
    (hasked : s.Asked id) : (s.context p).closure id (inst.mapTypes (Ty.mapVars θ)) := by
  obtain ⟨type, -, hdeclared, hq⟩ := quantifies_closure h hd₀ hk₀
  have hinst := hq.isInstance hseen
  have hfinal := final_alloc hinst.fits hθ
  obtain ⟨d', hd', hsame⟩ := htyped.start.heads hd₀
  rw [hk₀] at hsame
  generalize hb' : d'.body = body at hsame
  cases hsame with
  | @closure _ k' hdeclared' =>
      refine ⟨hfinal, hasked, d', k', _, hd', hb', ?_, hfinal, rfl⟩
      rw [hdeclared', hdeclared]
      refine congrArg some (AllocType.eq_of_parts ?_ ?_)
      · rw [hfinal.kinds, AllocType.generalize, hnil]
        rfl
      · rw [hnil] at hinst ⊢
        rw [AllocType.parts_generalize, AllocType.parts_mapTypes]
        exact (reading_of_isInstance_nil hinst hθ).symm

/-- Matching the declared type of a closure with an instance leads to a reading of the closure. -/
theorem closure_match (h : Complete p) (hθ : Assigns p.store θ) {k₀ : Closure} {type inst : AllocType}
    (hq : Quantifies p.store k₀.interface k₀.generics type.parts)
    (hseen : k₀.interface.SeenAs p.store inst.parts) :
    ∃ slots sub, (type.generalize p.store k₀.generics).matchInto p.store
        (inst.mapTypes (Ty.mapVars θ))
        (Slots.ofKinds (type.generalize p.store k₀.generics).kinds) = (true, slots) ∧
      slots.specialize? p.store k₀.generics = some sub ∧ ClosedSubst sub ∧
      Reads p.store k₀.interface k₀.generics (valuation p.store sub)
        (inst.parts.map (Ty.mapVars θ)) := by
  have hinst := hq.isInstance hseen
  have hmatch : ((type.generalize p.store k₀.generics).matchInto p.store
      (inst.mapTypes (Ty.mapVars θ))
      (Slots.ofKinds (type.generalize p.store k₀.generics).kinds)).1 = true := by
    refine AllocType.matchInto_of_isInstance h.regular ?_ ?_
    · rw [AllocType.length_kinds_generalize, AllocType.parts_generalize]
      exact hq.closed h.regular
    · rw [AllocType.parts_generalize, AllocType.parts_mapTypes]
      exact isInstance_reading hinst hθ
  generalize hslots : (type.generalize p.store k₀.generics).matchInto p.store
      (inst.mapTypes (Ty.mapVars θ))
      (Slots.ofKinds (type.generalize p.store k₀.generics).kinds) = r at hmatch
  obtain ⟨ok, slots⟩ := r
  obtain rfl : ok = true := hmatch
  have hfields := AllocType.length_stored_of_matchInto (congrArg Prod.fst hslots)
  have hlist := (AllocType.matchInto_eq hfields _).symm.trans hslots
  rw [AllocType.parts_generalize, AllocType.parts_mapTypes] at hlist
  obtain ⟨sub, hsub, hclosed, hreads⟩ :=
    hq.reads_of_match h.regular (isInstance_reading hinst hθ) (closedUnder_reading hinst.fits hθ)
      hlist [] fun _ hx => (nomatch hx)
  rw [List.append_nil] at hclosed hreads
  exact ⟨slots, sub, rfl, hsub, hclosed, hreads⟩

/-- A new copy of a closure has the type that was asked for. -/
theorem Typed.closure_new (h : Complete p) (htyped : Typed p Good extra s) {k₀ : Closure}
    {type asked : AllocType} {sub : TySubst} {d' : Defn} {k' : Closure}
    (hd₀ : p.defns[id]? = some d₀) (hk₀ : d₀.body = .closure k₀) (hworking : k₀.defining = some type)
    (hfinal : asked.Final) (hparts : type.parts.map (Ty.mapVars (valuation p.store sub)) = asked.parts)
    (hsub : ClosedSubst sub) (hgood : Good id (valuation p.store sub))
    (hknown : s.clones.lookup ⟨id, 0, some (asked.key p.store)⟩ = none)
    (hb' : d'.body = .closure k') (hdeclared : k'.declared = some (asked.ground p.store))
    (counts : List (DefnId × Nat)) {s' : State}
    (hs' : s' = s.withClone ⟨id, 0, some (asked.key p.store)⟩ d' counts
      (some ⟨id, s.program.defns.size, sub⟩)) :
    Steps p s s' ∧ Typed p Good extra s' ∧ (s'.context p).closure s.program.defns.size asked := by
  rw [AllocType.ground_of_final hfinal] at hdeclared
  have hcode : hasCode p id = true := by rw [hasCode, hd₀, Option.map_some, hk₀]
  have hhead : HeadAt (valuation p.store sub) d₀.body d'.body := by
    rw [hk₀, hb']
    refine .closure hworking (hdeclared.trans (congrArg some ?_))
    exact AllocType.eq_of_parts hfinal.kinds (hparts.symm.trans (type.parts_mapTypes _).symm)
  have hkey : KeyText p.store ⟨id, 0, some (asked.key p.store)⟩ d'.body := by
    rw [hb']
    intro type' htype'
    obtain rfl : asked = type' := Option.some.inj (hdeclared.symm.trans htype')
    exact ⟨rfl, rfl⟩
  obtain ⟨hsteps, htyped'⟩ := htyped.clone h.regular counts hknown hd₀ hcode hkey hsub hgood hhead
  subst hs'
  exact ⟨hsteps, htyped', hfinal, ⟨_, .head _⟩, d', k', asked, Array.getElem?_push_size, hb',
    hdeclared, hfinal, rfl⟩

theorem meets_closure (h : Complete p) (hθ : Assigns p.store θ) {inst : AllocType}
    (huse : (workingAt p Good θ).closure id inst) :
    Meets p Good extra s₀ (closure id (inst.mapTypes (Ty.mapVars θ))) fun s j =>
      (s.context p).closure j (inst.mapTypes (Ty.mapVars θ)) := by
  obtain ⟨d₀, k₀, hd₀, hk₀, hseen, hgood⟩ := huse
  obtain ⟨type, hworking, hdeclared, hq⟩ := quantifies_closure h hd₀ hk₀
  have hlt := (Array.getElem?_eq_some_iff.mp hd₀).1
  have hcode : hasCode p id = true := by rw [hasCode, hd₀, Option.map_some, hk₀]
  intro s hs ht htyped
  obtain ⟨d, hd, hsame⟩ := htyped.start.heads hd₀
  have hpoly := ht.polymorphic hd₀ hd
  by_cases hnil : k₀.generics = []
  · have hmono : d₀.body.isPolymorphic = false := by
      rw [hk₀, DefnBody.isPolymorphic, hnil]
      rfl
    obtain ⟨j, s', hyields, hsteps, ht', htyped', rfl, hasked⟩ :=
      meets_mono h hd₀ hmono hcode (hgood _ (hq.reads_of_nil h.regular hnil hseen hθ)) s hs ht htyped
    refine ⟨j, s', yields_bind.mpr ⟨d, s, definition_yields hd, ?_⟩, hsteps, ht', htyped',
      htyped'.closure_own h hθ hd₀ hk₀ hseen hnil hasked⟩
    have hmono' := hpoly.1.symm.trans hmono
    rw [hk₀] at hsame
    generalize hb : d.body = body at hsame hmono'
    cases hsame with
    | @closure _ l _ =>
        have hempty : l.generics.isEmpty = true := by simpa [DefnBody.isPolymorphic] using hmono'
        dsimp only
        rw [if_pos hempty]
        exact hyields
  · have hpoly₀ : d₀.body.isPolymorphic = true := by
      rw [hk₀, DefnBody.isPolymorphic]
      simpa using hnil
    obtain rfl := hpoly.2 (hpoly.1.symm.trans hpoly₀)
    obtain ⟨slots, sub, hslots, hsub, hclosed, hreads⟩ := closure_match h hθ hq hseen
    have hfinal := final_alloc (hq.isInstance hseen).fits hθ
    have hstore := htyped.store
    generalize hasked : inst.mapTypes (Ty.mapVars θ) = asked at hslots hfinal
    let k : CloneKey := ⟨id, 0, some (asked.key p.store)⟩
    cases hknown : s.clones.lookup k with
    | some c =>
        refine ⟨c, s, ?_, .refl p s, ht, htyped,
          htyped.closure_known h hd₀ hk₀ hfinal (mem_clones_of_lookup hknown)⟩
        refine yields_bind.mpr ⟨d₀, s, definition_yields hd, ?_⟩
        rw [hk₀]
        dsimp only
        rw [if_neg (by simpa using hnil)]
        refine yields_bind.mpr ⟨_, s, rfl, yields_bind.mpr ⟨some c, s, ?_, rfl⟩⟩
        rw [hstore]
        exact known?_yields hknown
    | none =>
        let make (n : Nat) : Defn := .new (numbered d₀.name n) d₀.pos
          (.closure { Closure.new [] [] none with declared := some (asked.ground p.store) })
        obtain ⟨n, counts, hrequest⟩ := yields_request k make
          (fun c => do
            enqueue ⟨id, c, ← specializing k₀.generics slots⟩
            return c)
          fun s' hs' => yields_bind.mpr ⟨sub, s', specializing_gives (hs' ▸ hstore ▸ hsub), rfl⟩
        have hyields : Yields (closure id asked) s s.program.defns.size
            (s.withClone k (make n) counts (some ⟨id, s.program.defns.size, sub⟩)) := by
          refine yields_bind.mpr ⟨d₀, s, definition_yields hd, ?_⟩
          rw [hk₀]
          dsimp only
          rw [if_neg (by simpa using hnil)]
          refine yields_bind.mpr ⟨_, s, rfl, yields_bind.mpr ⟨none, s, ?_, ?_⟩⟩
          · rw [hstore]
            exact known?_yields hknown
          · dsimp only
            rw [hdeclared, Option.getD_some, hstore, hslots]
            exact hrequest
        obtain ⟨hsteps, htyped', hcontext⟩ := htyped.closure_new h hd₀ hk₀ hworking hfinal
          (hasked ▸ inst.parts_mapTypes _ ▸ hq.parts_eq hreads) hclosed (hgood _ hreads) hknown
          (show (make n).body = _ from rfl) rfl counts rfl
        exact ⟨_, _, hyields, hsteps, (closure_spec ht hlt hyields).2.1, htyped', hcontext⟩

end Code

/-! ### Top-level values -/

section Values

variable {p : Program} {Good : DefnId → (Nat → Ty) → Prop} {extra : List Pending} {s₀ s : State}
  {id : DefnId} {d₀ : Defn} {θ : Nat → Ty} {index : Nat}

/-- What was asked for by the text of a type has a declared type of this text. -/
theorem Typed.name_known (h : Complete p) (htyped : Typed p Good extra s) {t₀ : TopLevel}
    (hd₀ : p.defns[id]? = some d₀) (ht₀ : d₀.body = .top t₀) {l : TopName}
    (hl : t₀.lhs[index]? = some l) {asked : Ty} (hclosed : asked.Closed 0) {c : DefnId}
    (hknown : (⟨id, index, some (p.store.text asked)⟩, c) ∈ s.clones) :
    (s.context p).top c index asked := by
  obtain ⟨d, d', hd, hd', hkey, hheaded⟩ := htyped.heads hknown
  obtain rfl : d = d₀ := Option.some.inj (hd.symm.trans hd₀)
  have hkey : KeyText p.store ⟨id, index, some (p.store.text asked)⟩ d'.body :=
    hkey.resolve_left fun hown => nomatch congrArg CloneKey.inst hown
  obtain ⟨type, hworking, -, hq⟩ := quantifies_name h hd₀ ht₀ (List.mem_of_getElem? hl)
  rw [ht₀] at hheaded
  generalize hb' : d'.body = body at hheaded hkey
  cases hheaded with
  | @copy _ _ θ' hθ hgood hhead =>
      cases hhead with
      | @top _ t' types hworking' hdeclared =>
          have htype : types[index]? = some type := by
            have hget := congrArg (·[index]?) hworking'
            simp only [List.getElem?_map, hl, Option.map_some, hworking] at hget
            obtain ⟨u, hu, heq⟩ := Option.map_eq_some_iff.mp hget.symm
            rw [hu, heq]
          have hget := congrArg (·[index]?) hdeclared
          simp only [List.getElem?_map, htype, Option.map_some] at hget
          obtain ⟨l', hl', hdeclared'⟩ := Option.map_eq_some_iff.mp hget
          have hscheme : (DefnBody.top t').scheme? index = some (.mono (type.mapVars θ')) := by
            rw [DefnBody.scheme?, hl', Option.bind_some, hdeclared']
          obtain ⟨c', hc', hinst⟩ := hkey
          obtain rfl := Option.some.inj (hscheme.symm.trans hc')
          exact ⟨hclosed, .inl ⟨_, hknown⟩, d', _, hd', hb' ▸ hscheme, final_scheme hq.fits hθ,
            (Option.some.inj hinst).symm⟩

/-- A name of a top-level definition that quantifies nothing is used at its declared type. -/
theorem Typed.name_own (h : Complete p) (htyped : Typed p Good extra s) (hθ : Assigns p.store θ)
    {t₀ : TopLevel} (hd₀ : p.defns[id]? = some d₀) (ht₀ : d₀.body = .top t₀) {l : TopName}
    (hl : t₀.lhs[index]? = some l) {t : Ty} (hseen : l.interface.SeenAs p.store [t])
    (hnil : l.generics = []) (hasked : s.Asked id) : (s.context p).top id index (t.mapVars θ) := by
  obtain ⟨type, -, hdeclared, hq⟩ := quantifies_name h hd₀ ht₀ (List.mem_of_getElem? hl)
  have hinst := hq.isInstance hseen
  have hclosed := closedUnder_reading hinst.fits hθ _ (.head _)
  have hscheme : Scheme.generalize p.store type l.generics = .mono (t.mapVars θ) := by
    rw [hnil] at hinst ⊢
    have hparts := reading_of_isInstance_nil hinst hθ
    simp only [List.map_cons, List.map_nil, List.cons.injEq, and_true] at hparts
    rw [Scheme.generalize, ← hparts]
    rfl
  obtain ⟨d', hd', hsame⟩ := htyped.start.heads hd₀
  refine ⟨hclosed, .inl hasked, d', .mono (t.mapVars θ), hd', ?_, ⟨rfl, hclosed⟩, rfl⟩
  rw [hsame.scheme? index, ht₀]
  show (t₀.lhs[index]?).bind TopName.declared = _
  rw [hl, Option.bind_some, hdeclared, hscheme]

/-- Matching the declared type of a name with an instance leads to a reading of the name; the other
variables of the definition take their defaults. -/
theorem name_match (h : Complete p) (hθ : Assigns p.store θ) {l : TopName} {type t : Ty}
    (hq : Quantifies p.store l.interface l.generics [type])
    (hseen : l.interface.SeenAs p.store [t]) (vars : List Nat) :
    ∃ slots sub, p.store.matchInto (Scheme.generalize p.store type l.generics).type (t.mapVars θ)
        (Slots.ofKinds (Scheme.generalize p.store type l.generics).kinds) = (true, slots) ∧
      slots.specialize? p.store l.generics = some sub ∧
      ClosedSubst (sub ++ vars.map fun g => (g, Ty.defaultOf (p.store.kindOf g))) ∧
      Reads p.store l.interface l.generics
        (valuation p.store (sub ++ vars.map fun g => (g, Ty.defaultOf (p.store.kindOf g))))
        [t.mapVars θ] := by
  have hinst := hq.isInstance hseen
  have hmatch : (p.store.matchInto (Scheme.generalize p.store type l.generics).type (t.mapVars θ)
      (Slots.ofKinds (Scheme.generalize p.store type l.generics).kinds)).1 = true := by
    refine Scheme.matchInto_of_isInstance h.regular ?_ (isInstance_reading hinst hθ)
    rw [Scheme.length_kinds_generalize, Scheme.parts_generalize]
    exact hq.closed h.regular
  generalize hslots : p.store.matchInto (Scheme.generalize p.store type l.generics).type
      (t.mapVars θ) (Slots.ofKinds (Scheme.generalize p.store type l.generics).kinds) = r at hmatch
  obtain ⟨ok, slots⟩ := r
  obtain rfl : ok = true := hmatch
  have hlist := (Store.matchInto_eq ..).symm.trans hslots
  obtain ⟨sub, hsub, hclosed, hreads⟩ :=
    hq.reads_of_match h.regular (isInstance_reading hinst hθ) (closedUnder_reading hinst.fits hθ)
      hlist (vars.map fun g => (g, Ty.defaultOf (p.store.kindOf g))) fun x hx => by
        obtain ⟨g, -, rfl⟩ := List.mem_map.mp hx
        rfl
  exact ⟨slots, sub, rfl, hsub, hclosed, hreads⟩

/-- A new copy of a top-level definition has the type that was asked for. -/
theorem Typed.name_new (h : Complete p) (htyped : Typed p Good extra s) {t₀ t' : TopLevel}
    {l : TopName} {type asked : Ty} {sub : TySubst} {d' : Defn}
    (hd₀ : p.defns[id]? = some d₀) (ht₀ : d₀.body = .top t₀) (hl : t₀.lhs[index]? = some l)
    (hworking : l.defining = some type) (hclosed : asked.Closed 0)
    (htype : type.mapVars (valuation p.store sub) = asked)
    (hsub : ClosedSubst sub) (hgood : Good id (valuation p.store sub))
    (hknown : s.clones.lookup ⟨id, index, some (p.store.text asked)⟩ = none)
    (hb' : d'.body = .top t')
    (hnames : t'.lhs.map TopName.declared = t₀.lhs.map fun l =>
      l.defining.map fun u => .mono (u.mapVars (valuation p.store sub)))
    (counts : List (DefnId × Nat)) {s' : State}
    (hs' : s' = s.withClone ⟨id, index, some (p.store.text asked)⟩ d' counts
      (some ⟨id, s.program.defns.size, sub⟩)) :
    Steps p s s' ∧ Typed p Good extra s' ∧ (s'.context p).top s.program.defns.size index asked := by
  have hcode : hasCode p id = true := by rw [hasCode, hd₀, Option.map_some, ht₀]
  obtain ⟨types, htypes⟩ := working_names h hd₀ ht₀
  have hhead : HeadAt (valuation p.store sub) d₀.body d'.body := by
    rw [ht₀, hb']
    exact .top htypes (declared_names htypes hnames)
  have hname : ∃ l', t'.lhs[index]? = some l' ∧ l'.declared = some (.mono asked) := by
    have hget := congrArg (·[index]?) hnames
    simp only [List.getElem?_map, hl, Option.map_some, hworking, htype] at hget
    exact Option.map_eq_some_iff.mp hget
  obtain ⟨l', hl', hdeclared⟩ := hname
  have hscheme : d'.body.scheme? index = some (.mono asked) := by
    rw [hb', DefnBody.scheme?, hl', Option.bind_some, hdeclared]
  have hkey : KeyText p.store ⟨id, index, some (p.store.text asked)⟩ d'.body := by
    rw [hb'] at hscheme ⊢
    exact ⟨_, hscheme, rfl⟩
  obtain ⟨hsteps, htyped'⟩ := htyped.clone h.regular counts hknown hd₀ hcode hkey hsub hgood hhead
  subst hs'
  exact ⟨hsteps, htyped', hclosed, .inl ⟨_, .head _⟩, d', .mono asked, Array.getElem?_push_size,
    hscheme, ⟨rfl, hclosed⟩, rfl⟩

theorem meets_topLevel (h : Complete p) (hθ : Assigns p.store θ) {t₀ : TopLevel}
    (hd₀ : p.defns[id]? = some d₀) (ht₀ : d₀.body = .top t₀) {t : Ty}
    (huse : (workingAt p Good θ).top id index t) :
    Meets p Good extra s₀ (topRef id index (some (t.mapVars θ))) fun s r =>
      (s.context p).top r.1 r.2 (t.mapVars θ) := by
  obtain ⟨d, i, hd, hi, hseen, hgood⟩ := huse
  obtain rfl : d = d₀ := Option.some.inj (hd.symm.trans hd₀)
  rw [ht₀] at hi hgood
  obtain ⟨l, hl, rfl⟩ := Option.map_eq_some_iff.mp hi
  have hmem := List.mem_of_getElem? hl
  rw [valueGenerics, hl, Option.map_some, Option.getD_some] at hgood
  obtain ⟨type, hworking, hdeclared, hq⟩ := quantifies_name h hd₀ ht₀ hmem
  have hlt := (Array.getElem?_eq_some_iff.mp hd₀).1
  have hcode : hasCode p id = true := by rw [hasCode, hd₀, Option.map_some, ht₀]
  intro s hs ht htyped
  obtain ⟨d', hd', hsame⟩ := htyped.start.heads hd₀
  have hpoly := ht.polymorphic hd₀ hd'
  by_cases hnil : t₀.generics = []
  · have hmono : d.body.isPolymorphic = false := by
      rw [ht₀, DefnBody.isPolymorphic, hnil]
      rfl
    have hnil' : l.generics = [] := by
      refine List.eq_nil_iff_forall_not_mem.mpr fun v hv => ?_
      have hv' := mem_generics_of_name h hd₀ ht₀ hmem hv
      rw [hnil] at hv'
      cases hv'
    obtain ⟨j, s', hyields, hsteps, ht', htyped', rfl, hasked⟩ :=
      meets_mono h hd₀ hmono hcode (hgood _ (hq.reads_of_nil h.regular hnil' hseen hθ)) s hs ht
        htyped
    refine ⟨(j, index), s', yields_bind.mpr ⟨d', s, definition_yields hd', ?_⟩, hsteps, ht', htyped',
      htyped'.name_own h hθ hd₀ ht₀ hl hseen hnil' hasked⟩
    have hmono' := hpoly.1.symm.trans hmono
    rw [ht₀] at hsame
    generalize hb : d'.body = body at hsame hmono'
    cases hsame with
    | @top _ t' _ =>
        have hempty : t'.generics.isEmpty = true := by simpa [DefnBody.isPolymorphic] using hmono'
        dsimp only
        refine yields_bind.mpr ⟨j, s', ?_, rfl⟩
        rw [topLevel, if_pos hempty]
        exact hyields
  · have hpoly₀ : d.body.isPolymorphic = true := by
      rw [ht₀, DefnBody.isPolymorphic]
      simpa using hnil
    obtain rfl := hpoly.2 (hpoly.1.symm.trans hpoly₀)
    let rest := t₀.generics.filter fun g => g ∉ l.generics
    obtain ⟨slots, sub, hslots, hsub, hclosed, hreads⟩ := name_match h hθ hq hseen rest
    have hclosed' := closedUnder_reading (hq.isInstance hseen).fits hθ _ (.head _)
    have hstore := htyped.store
    have htype := (List.cons.inj (hq.parts_eq hreads)).1
    generalize hasked : t.mapVars θ = asked at hslots hclosed' htype
    let k : CloneKey := ⟨id, index, some (p.store.text asked)⟩
    cases hknown : s.clones.lookup k with
    | some c =>
        refine ⟨(c, index), s, ?_, .refl p s, ht, htyped,
          htyped.name_known h hd₀ ht₀ hl hclosed' (mem_clones_of_lookup hknown)⟩
        refine yields_bind.mpr ⟨d, s, definition_yields hd', ?_⟩
        rw [ht₀]
        dsimp only
        refine yields_bind.mpr ⟨c, s, ?_, rfl⟩
        rw [topLevel, if_neg (by simpa using hnil)]
        refine yields_bind.mpr ⟨_, s, rfl, yields_bind.mpr ⟨some c, s, ?_, rfl⟩⟩
        rw [hstore]
        exact known?_yields hknown
    | none =>
        let sub' := sub ++ rest.map fun g => (g, Ty.defaultOf (p.store.kindOf g))
        let make (n : Nat) : Defn := .newTop d.pos ⟨t₀.lhs.map fun l =>
          (⟨numbered l.name n,
            l.defining.map fun u => .mono (p.store.ground (p.store.applySubst sub' u)), none, []⟩ :
            TopName), none, [], false⟩
        obtain ⟨n, counts, hrequest⟩ := yields_request k make
          (fun c => do
            enqueue ⟨id, c, sub'⟩
            return c) fun s' hs' => rfl
        have hyields : Yields (topRef id index (some asked)) s (s.program.defns.size, index)
            (s.withClone k (make n) counts (some ⟨id, s.program.defns.size, sub'⟩)) := by
          refine yields_bind.mpr ⟨d, s, definition_yields hd', ?_⟩
          rw [ht₀]
          dsimp only
          refine yields_bind.mpr ⟨s.program.defns.size, _, ?_, rfl⟩
          rw [topLevel, if_neg (by simpa using hnil)]
          refine yields_bind.mpr ⟨_, s, rfl, yields_bind.mpr ⟨none, s, ?_, ?_⟩⟩
          · rw [hstore]
            exact known?_yields hknown
          · dsimp only
            rw [hl]
            dsimp only
            rw [hdeclared, Option.getD_some, Option.getD_some, hstore, hslots]
            refine yields_bind.mpr ⟨sub, s, specializing_gives (hstore ▸ hsub), ?_⟩
            exact hrequest
        obtain ⟨hsteps, htyped', hcontext⟩ := htyped.name_new h hd₀ ht₀ hl hworking hclosed'
          htype hclosed (hgood _ hreads) hknown (show (make n).body = _ from rfl) (by
            simp only [List.map_map, Function.comp_def, ground_applySubst h.regular]
            rfl) counts rfl
        exact ⟨_, _, hyields, hsteps, (topRef_spec ht hlt hyields).2.1, htyped', hcontext⟩

theorem meets_external (h : Complete p) (hθ : Assigns p.store θ) {e : Mil.External}
    (hd₀ : p.defns[id]? = some d₀) (he : d₀.body = .external e) {t : Ty}
    (huse : (workingAt p Good θ).top id index t) :
    Meets p Good extra s₀ (topRef id index (some (t.mapVars θ))) fun s r =>
      (s.context p).top r.1 r.2 (t.mapVars θ) := by
  obtain ⟨d, i, hd, hi, hseen, -⟩ := huse
  obtain rfl : d = d₀ := Option.some.inj (hd.symm.trans hd₀)
  rw [he] at hi
  cases hi
  have hinst : p.store.IsInstance e.declared.kinds e.declared.parts [t] := hseen
  have hdeclared : ClosedUnder e.declared.kinds.length e.declared.parts :=
    ((h.stage hd₀).declared e.interface (by rw [he]; exact .head _)).2 _ rfl
  have hclosed := closedUnder_reading hinst.fits hθ _ (.head _)
  have hlt := (Array.getElem?_eq_some_iff.mp hd₀).1
  have hcode : hasCode p id = false := by rw [hasCode, hd₀, Option.map_some, he]
  intro s hs ht htyped
  have hd' := htyped.external_standing ht hd₀ he
  have hstore := htyped.store
  by_cases hpoly : e.declared.isPolymorphic = true
  · have hmatch := Scheme.matchInto_of_isInstance h.regular hdeclared (isInstance_reading hinst hθ)
    generalize hasked : t.mapVars θ = asked at hmatch hclosed
    let k : CloneKey := ⟨id, 0, some (p.store.text asked)⟩
    cases hknown : s.clones.lookup k with
    | some c =>
        refine ⟨(c, 0), s, ?_, .refl p s, ht, htyped, ?_⟩
        · refine yields_bind.mpr ⟨d, s, definition_yields hd', ?_⟩
          rw [he]
          dsimp only
          refine yields_bind.mpr ⟨c, s, ?_, rfl⟩
          rw [external, if_neg (by simpa using hpoly)]
          refine yields_bind.mpr ⟨_, s, rfl, yields_bind.mpr ⟨some c, s, ?_, rfl⟩⟩
          rw [hstore]
          exact known?_yields hknown
        · have hmem := mem_clones_of_lookup hknown
          obtain ⟨d₁, d', hd₁, hc, hkey, hheaded⟩ := htyped.heads hmem
          obtain rfl : d₁ = d := Option.some.inj (hd₁.symm.trans hd₀)
          have hkey := hkey.resolve_left fun hown => nomatch congrArg CloneKey.inst hown
          rw [he] at hheaded
          generalize hb' : d'.body = body at hheaded hkey
          cases hheaded with
          | copy _ _ hhead => cases hhead
          | @external _ e' _ hfinal =>
              refine ⟨hclosed, .inl ⟨_, hmem⟩, d', e'.declared, hc, by rw [hb']; rfl, hfinal, ?_⟩
              exact (Option.some.inj hkey.2).symm
    | none =>
        generalize hslots : p.store.matchInto e.declared.type asked
          (Slots.ofKinds e.declared.kinds) = r at hmatch
        obtain ⟨ok, slots⟩ := r
        obtain rfl : ok = true := hmatch
        let n := (s.counts.lookup id).getD 0 + 1
        let d' : Defn := .new (numbered d.name n) d.pos (.external ⟨.mono (p.store.ground asked),
          e.ref, e.types.map fun t => p.store.ground ((p.store.resolve t).instantiate
            (slots.fill e.declared.kinds)), none⟩)
        have hyields : Yields (topRef id index (some asked)) s (s.program.defns.size, 0)
            (s.withClone k d' ((id, n) :: s.counts) none) := by
          refine yields_bind.mpr ⟨d, s, definition_yields hd', ?_⟩
          rw [he]
          dsimp only
          refine yields_bind.mpr ⟨s.program.defns.size, _, ?_, rfl⟩
          rw [external, if_neg (by simpa using hpoly)]
          refine yields_bind.mpr ⟨_, s, rfl, yields_bind.mpr ⟨none, s, ?_, ?_⟩⟩
          · rw [hstore]
            exact known?_yields hknown
          · dsimp only
            rw [Option.getD_some, hstore, hslots]
            refine yields_bind.mpr ⟨n, _, rfl, yields_bind.mpr ⟨_, _, rfl, yields_bind.mpr
              ⟨(), _, rfl, ?_⟩⟩⟩
            rw [State.withClone, Option.toList_none, List.append_nil]
            rfl
        have hfinal : (Scheme.mono (p.store.ground asked)).Final :=
          ⟨rfl, by rw [Scheme.mono, ground_of_closed hclosed]; exact hclosed⟩
        have hnew : Steps p s (s.withClone k d' ((id, n) :: s.counts) none) ∧
            Typed p Good extra (s.withClone k d' ((id, n) :: s.counts) none) := by
          refine htyped.ask k s.program.defns.size none rfl rfl rfl rfl
            (fun he => getElem?_push_of_some he d') rfl rfl rfl hknown hd₀ Array.getElem?_push_size
            (.inr ⟨rfl, ?_⟩) ?_ hcode (fun q hq => nomatch hq) fun _ => ⟨trivial, .external⟩
          · show some _ = some (p.store.text (p.store.ground asked))
            rw [ground_of_closed hclosed]
          · rw [he]
            exact .external (fun hown => nomatch congrArg CloneKey.inst hown) hfinal
        refine ⟨_, _, hyields, hnew.1, (topRef_spec ht hlt hyields).2.1, hnew.2, hclosed,
          .inl ⟨k, .head _⟩, d', .mono (p.store.ground asked), Array.getElem?_push_size, rfl, hfinal,
          ?_⟩
        rw [Scheme.mono, ground_of_closed hclosed]
  · have hmono : e.declared.isPolymorphic = false := Bool.eq_false_iff.mpr hpoly
    have hkinds : e.declared.kinds = [] := by simpa [Scheme.isPolymorphic] using hmono
    refine ⟨(id, 0), s, ?_, .refl p s, ht, htyped, hclosed, .inr ⟨d, e, hd₀, he, hmono⟩, d,
      e.declared, hd', by rw [he]; rfl, ⟨hkinds, ?_⟩, ?_⟩
    · refine yields_bind.mpr ⟨d, s, definition_yields hd', ?_⟩
      rw [he]
      dsimp only
      refine yields_bind.mpr ⟨id, s, ?_, rfl⟩
      rw [external, if_pos (by simpa using hmono)]
      rfl
    · rw [hkinds] at hdeclared
      exact hdeclared _ (.head _)
    · rw [hkinds] at hinst
      rw [(List.cons.inj (reading_of_isInstance_nil hinst hθ)).1]

theorem meets_topRef (h : Complete p) (hθ : Assigns p.store θ) {t : Ty}
    (huse : (workingAt p Good θ).top id index t) :
    Meets p Good extra s₀ (topRef id index (some (t.mapVars θ))) fun s r =>
      (s.context p).top r.1 r.2 (t.mapVars θ) := by
  have hvalue := huse
  obtain ⟨d, i, hd, hi, -⟩ := hvalue
  cases hb : d.body with
  | block b =>
      rw [hb] at hi
      cases hi
  | closure k =>
      rw [hb] at hi
      cases hi
  | top t₀ => exact meets_topLevel h hθ hd hb huse
  | external e => exact meets_external h hθ hd hb huse

end Values

/-! ### Primitives -/

section Prims

variable {p : Program} {Good : DefnId → (Nat → Ty) → Prop} {extra : List Pending} {s₀ : State}
  {θ : Nat → Ty}

/-- Block types without variables that are equal up to renaming are equal. -/
theorem eq_of_alphaEquiv {s : Store} {a b : BlockType} (ha : a.Final) (hb : b.Final)
    (h : a.alphaEquiv s b = true) : a = b := by
  have hclosed {c : BlockType} (hc : c.Final) : ClosedUnder c.kinds.length c.parts := by
    rw [hc.kinds]
    exact hc.closed
  obtain ⟨-, m, hm⟩ := BlockType.rename_of_alphaEquiv h (hclosed ha) (hclosed hb)
  obtain ⟨-, -, hsame⟩ := Ty.renameList?_spec _ _ hm
  -- no leaf is renamed, so it does not matter what the leaves become
  have hself {c : BlockType} (hc : c.Final) :
      c.parts.map (Ty.subst (fun _ => .unit) fun _ => .unit) = c.parts := by
    refine (List.map_congr_left fun t ht => ?_).trans (List.map_id' _)
    refine (Ty.subst_congr fun x hx => ?_).trans (Ty.subst_var_gen t)
    obtain ⟨m, hm, -⟩ := hc.closed t ht x hx
    exact absurd hm (Nat.not_lt_zero m)
  refine BlockType.eq_of_parts (ha.kinds.trans hb.kinds.symm) ?_
  rw [← hself ha, ← hself hb]
  exact hsame ⟨fun _ _ _ => rfl, fun _ _ _ => rfl⟩

theorem meets_prim (hθ : Assigns p.store θ) {q : Prim} {inst : BlockType}
    (hnamed : p.prims.prims[q.index]? = some q) (huse : (workingAt p Good θ).prim q inst) :
    Meets p Good extra s₀ (prim q (inst.mapTypes (Ty.mapVars θ))) fun s g =>
      (s.context p).prim g (inst.mapTypes (Ty.mapVars θ)) := by
  obtain ⟨-, hinst⟩ : ClosedUnder q.type.kinds.length q.type.parts ∧
    p.store.IsInstance q.type.kinds q.type.parts inst.parts := huse
  have hfinal := final_block hinst.fits hθ
  intro s hs ht htyped
  by_cases hpoly : q.type.isPolymorphic = true
  · generalize inst.mapTypes (Ty.mapVars θ) = asked at hfinal
    have hground := BlockType.ground_of_final (s := s.program.store) hfinal
    cases hfind : s.prims.find? fun x =>
        x.1 = q.index && x.2.type.alphaEquiv s.program.store asked with
    | some x =>
        obtain ⟨i, g⟩ := x
        have hmem := List.mem_of_find?_eq_some hfind
        have halpha := List.find?_some hfind
        rw [Bool.and_eq_true] at halpha
        refine ⟨g, s, ?_, .refl p s, ht, htyped,
          eq_of_alphaEquiv (htyped.prims hmem) hfinal halpha.2, hfinal⟩
        rw [prim, if_neg (by simpa using hpoly)]
        refine yields_bind.mpr ⟨s, s, rfl, ?_⟩
        dsimp only
        rw [hground, hfind]
        rfl
    | none =>
        let g := (s.program.prims.clone q asked).1
        let s' : State := { s with
          program := { s.program with prims := (s.program.prims.clone q asked).2 }
          prims := s.prims ++ [(q.index, g)] }
        have hyields : Yields (prim q asked) s g s' := by
          rw [prim, if_neg (by simpa using hpoly)]
          refine yields_bind.mpr ⟨s, s, rfl, ?_⟩
          dsimp only
          rw [hground, hfind]
          rfl
        have hrecord : Steps p s s' ∧ Typed p Good extra s' := by
          refine htyped.record
            ⟨rfl, fun h => h, fun h => h, fun _ h => h, fun {_ d} hd => ⟨d, hd, .refl _⟩⟩ rfl rfl rfl rfl
            fun hg => ?_
          rcases List.mem_append.mp hg with hg | hg
          · exact htyped.prims hg
          · cases List.mem_singleton.mp hg
            exact hfinal
        exact ⟨g, s', hyields, hrecord.1, (prim_spec ht hnamed hyields).2.1, hrecord.2, rfl, hfinal⟩
  · have hkinds : q.type.kinds = [] := by simpa [BlockType.isPolymorphic] using hpoly
    refine ⟨q, s, ?_, .refl p s, ht, htyped, BlockType.eq_of_parts hkinds ?_, hfinal⟩
    · rw [prim, if_pos (by simpa using hpoly)]
      rfl
    · rw [hkinds] at hinst
      exact (reading_of_isInstance_nil hinst hθ).symm

end Prims

end Mono

end Mil
