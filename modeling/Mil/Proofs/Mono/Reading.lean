import Mil.Proofs.Mono.Valuation
import Mil.Proofs.Typing.WellTyped

/-!
Readings of names. A copy reads the variables of its source by closed types, and so it reads the
working type of the source as a closed instance of the declared type. Conversely every closed
instance is how some reading gives the working type, and matching finds one: what it leaves open is
at its default, and so are the variables that the name is not generic in.
-/

namespace Mil

open Ty (Occurs)

namespace Mono

open Typing (Complete)

/-- A reading of the variables by closed types. -/
structure Assigns (s : Store) (θ : Nat → Ty) : Prop where
  solves : s.Solves θ
  closed : ∀ v, (θ v).Closed 0

/-- A reading gives the working type of a name as the given types. Variables that the name is not
generic in are at their defaults. -/
structure Reads (s : Store) (i : Interface) (vars : List Nat) (θ : Nat → Ty) (inst : List Ty) :
    Prop where
  assigns : Assigns s θ
  base : ∀ v, s.binding? v = none → v ∉ vars → θ v = Ty.defaultOf (s.kindOf v)
  parts : i.working.map (List.map (Ty.mapVars θ)) = some inst

/-- The declared type of a name is its working type, quantified over its variables. -/
structure Quantifies (s : Store) (i : Interface) (vars : List Nat) (types : List Ty) : Prop where
  working : i.working = some types
  declared : i.declared = some (s.kindsOf vars, types.map fun t => (s.resolve t).generalize vars)
  fits : s.Fits 0 types
  mem : ∀ v, v ∈ vars ↔ ∃ t ∈ types, Occurs (.var v) (s.resolve t)
  nodup : vars.Nodup
  free : ∀ v ∈ vars, s.binding? v = none

section Names

variable {p : Program} {id : DefnId} {d : Defn} (h : Complete p) (hd : p.defns[id]? = some d)

include h hd

theorem quantifies_block {b : Block} (hb : d.body = .block b) :
    ∃ type, b.defining = some type ∧ b.declared = some (type.generalize p.store b.generics) ∧
      Quantifies p.store b.interface b.generics type.parts := by
  have hstage := h.stage hd
  have hsettled := hstage.settled
  have hgeneralised := hstage.generalised
  rw [hb] at hsettled hgeneralised
  obtain ⟨type, hdefining, hfits, hgenerics, hdeclared⟩ := hgeneralised
  refine ⟨type, hdefining, hdeclared, ?_, ?_, hfits, fun v => ?_, ?_, fun v hv => (hsettled v hv).2⟩
  · rw [Block.interface, hdefining, Option.map_some]
  · rw [Block.interface, hdeclared, Option.map_some, BlockType.parts_generalize]
    rfl
  · rw [hgenerics, BlockType.mem_addVars]
    simp
  · exact hgenerics ▸ type.nodup_addVars .nil

theorem quantifies_closure {k : Closure} (hk : d.body = .closure k) :
    ∃ type, k.defining = some type ∧ k.declared = some (type.generalize p.store k.generics) ∧
      Quantifies p.store k.interface k.generics type.parts := by
  have hstage := h.stage hd
  have hsettled := hstage.settled
  have hgeneralised := hstage.generalised
  rw [hk] at hsettled hgeneralised
  obtain ⟨type, hdefining, hfits, hgenerics, hdeclared⟩ := hgeneralised
  refine ⟨type, hdefining, hdeclared, ?_, ?_, hfits, fun v => ?_, ?_, fun v hv => (hsettled v hv).2⟩
  · rw [Closure.interface, hdefining, Option.map_some]
  · rw [Closure.interface, hdeclared, Option.map_some, AllocType.parts_generalize]
    rfl
  · rw [hgenerics, AllocType.mem_addVars]
    simp
  · exact hgenerics ▸ type.nodup_addVars .nil

theorem mem_generics_of_name {t : TopLevel} (ht : d.body = .top t) {l : TopName} (hl : l ∈ t.lhs)
    {v : Nat} (hv : v ∈ l.generics) : v ∈ t.generics := by
  have hgeneralised := (h.stage hd).generalised
  rw [ht] at hgeneralised
  rw [hgeneralised.1, List.mem_eraseDups]
  exact List.mem_flatMap.mpr ⟨l, hl, hv⟩

theorem quantifies_name {t : TopLevel} (ht : d.body = .top t) {l : TopName} (hl : l ∈ t.lhs) :
    ∃ type, l.defining = some type ∧
      l.declared = some (Scheme.generalize p.store type l.generics) ∧
      Quantifies p.store l.interface l.generics [type] := by
  have hstage := h.stage hd
  have hsettled := hstage.settled
  have hgeneralised := hstage.generalised
  rw [ht] at hsettled hgeneralised
  obtain ⟨type, hdefining, hfits, hgenerics, hdeclared⟩ := hgeneralised.2 l hl
  refine ⟨type, hdefining, hdeclared, ?_, ?_, hfits, fun v => ?_, ?_, fun v hv => ?_⟩
  · rw [TopName.interface, hdefining, Option.map_some]
  · rw [TopName.interface, hdeclared, Option.map_some, Scheme.parts_generalize]
    rfl
  · rw [hgenerics, Store.mem_varsOf]
    simp
  · exact hgenerics ▸ Ty.nodup_addVars .nil
  · exact (hsettled v (mem_generics_of_name h hd ht hl hv)).2

end Names

section Readings

variable {s : Store} {i : Interface} {vars : List Nat} {types inst parts : List Ty} {θ : Nat → Ty}
  {kinds : List Kind}

theorem closedUnder_reading (hfits : s.Fits 0 types) (hθ : Assigns s θ) :
    ClosedUnder 0 (types.map (Ty.mapVars θ)) := by
  intro t ht
  obtain ⟨u, hu, rfl⟩ := List.mem_map.mp ht
  exact (hfits u hu).closed_mapVars hθ.closed

/-- What an instance is read as is an instance. -/
theorem isInstance_reading (h : s.IsInstance kinds parts inst) (hθ : Assigns s θ) :
    s.IsInstance kinds parts (inst.map (Ty.mapVars θ)) := by
  have hclosed := closedUnder_reading h.fits hθ
  refine ⟨fun t ht x hx => ?_, fun θ' _ => ?_⟩
  · obtain ⟨m, hm, -⟩ := hclosed t ht x hx
    exact absurd hm (Nat.not_lt_zero m)
  · obtain ⟨types, hlen, heq⟩ := h.solved θ hθ.solves
    refine ⟨types, hlen, Eq.trans ?_ heq⟩
    exact (List.map_congr_left fun t ht => (hclosed t ht).mapVars θ').trans (List.map_id' _)

/-- What quantifies nothing has itself as its only instance. -/
theorem reading_of_isInstance_nil (h : s.IsInstance [] parts inst) (hθ : Assigns s θ) :
    inst.map (Ty.mapVars θ) = parts := by
  obtain ⟨types, hlen, heq⟩ := h.solved θ hθ.solves
  obtain rfl := List.length_eq_zero_iff.mp hlen
  refine heq.trans ((List.map_congr_left fun t _ => ?_).trans (List.map_id' _))
  exact Ty.subst_var_gen t

theorem ground_var {v : Nat} (hv : s.binding? v = none) :
    s.ground (.var v) = Ty.defaultOf (s.kindOf v) := by
  rw [Store.ground, show s.resolve (.var v) = .var v from Store.reading_of_none hv, Ty.mapVars_var]

/-- Variables beside the ones that are replaced are at their defaults. -/
theorem valuation_of_not_mem (hreg : s.Regular 0) {rest : TySubst} {v : Nat}
    (hrest : ∀ x ∈ rest, x.2 = Ty.defaultOf (s.kindOf x.1)) (hv : s.binding? v = none)
    (hnot : v ∉ vars) : valuation s (vars.zip types ++ rest) v = Ty.defaultOf (s.kindOf v) := by
  have hzip : (vars.zip types).lookup v = none := by
    refine List.lookup_eq_none_iff.mpr fun x hx => bne_iff_ne.mpr ?_
    rintro rfl
    exact hnot (List.of_mem_zip hx).1
  rw [valuation_of_none hreg hv, List.lookup_append, hzip, Option.none_or]
  cases hlookup : rest.lookup v with
  | none => exact ground_var hv
  | some t =>
      obtain ⟨before, after, heq, -⟩ := List.lookup_eq_some_iff.mp hlookup
      have hmem : (v, t) ∈ rest := by
        rw [heq]
        simp
      rw [Option.getD_some, show t = _ from hrest (v, t) hmem]
      exact ground_of_closed (Ty.closed_defaultOf _)

theorem assigns_valuation (hreg : s.Regular 0) {sub : TySubst} (hsub : ClosedSubst sub) :
    Assigns s (valuation s sub) :=
  ⟨solves_valuation hreg sub, closed_valuation hreg hsub⟩

namespace Quantifies

variable (h : Quantifies s i vars types)

include h

theorem closed (hreg : s.Regular 0) :
    ClosedUnder vars.length (types.map fun t => (s.resolve t).generalize vars) :=
  s.closedUnder_generalize hreg h.fits fun t ht v hv => (h.mem v).mpr ⟨t, ht, hv⟩

theorem isInstance (hseen : i.SeenAs s inst) :
    s.IsInstance (s.kindsOf vars) (types.map fun t => (s.resolve t).generalize vars) inst := by
  unfold Interface.SeenAs at hseen
  rw [h.declared] at hseen
  exact hseen

theorem parts_eq {θ' : Nat → Ty} (hreads : Reads s i vars θ' inst) :
    types.map (Ty.mapVars θ') = inst := by
  have hparts := hreads.parts
  rw [h.working] at hparts
  exact Option.some.inj hparts

/-- A name that is not generic has one type, however it is read. -/
theorem reading_of_nil (hreg : s.Regular 0) (hvars : vars = []) (hθ : s.Solves θ) :
    types.map (Ty.mapVars θ) = types.map fun t => (s.resolve t).generalize vars := by
  refine List.map_congr_left fun t ht => ?_
  have hinst := Ty.instantiate_generalize (hreg.resolve_within (h.fits t ht)).not_gen
    (fun v hv => (h.mem v).mpr ⟨t, ht, hv⟩) θ
  rw [hθ.resolve] at hinst
  rw [← hinst, hvars]
  exact Ty.subst_var_gen _

/-- A name that is not generic is used at its one type. -/
theorem reads_of_nil (hreg : s.Regular 0) (hvars : vars = []) (hseen : i.SeenAs s inst)
    (hθ : Assigns s θ) : Reads s i vars (valuation s []) (inst.map (Ty.mapVars θ)) := by
  have hassigns : Assigns s (valuation s []) := assigns_valuation hreg fun _ hx => (nomatch hx)
  refine ⟨hassigns, fun v hv _ => ?_, ?_⟩
  · rw [valuation_of_none hreg hv]
    exact ground_var hv
  · have hinst := h.isInstance hseen
    rw [hvars] at hinst
    rw [h.working, Option.map_some, reading_of_isInstance_nil hinst hθ,
      h.reading_of_nil hreg hvars hassigns.solves, hvars]

/-- What matching has found for a closed instance reads the working type as the instance. -/
theorem reads_of_match (hreg : s.Regular 0)
    (hinst : s.IsInstance (s.kindsOf vars) (types.map fun t => (s.resolve t).generalize vars) inst)
    (hclosed : ClosedUnder 0 inst) {slots : Slots}
    (hmatch : Ty.matchList ((types.map fun t => (s.resolve t).generalize vars).map s.resolve)
      (inst.map s.resolve) (Slots.ofKinds (s.kindsOf vars)) = (true, slots)) (rest : TySubst)
    (hrest : ∀ x ∈ rest, x.2 = Ty.defaultOf (s.kindOf x.1)) :
    ∃ sub, slots.specialize? s vars = some sub ∧ ClosedSubst (sub ++ rest) ∧
      Reads s i vars (valuation s (sub ++ rest)) inst := by
  rw [closedUnder_map_resolve (h.closed hreg), closedUnder_map_resolve hclosed] at hmatch
  have hlists : (types.map fun t => (s.resolve t).generalize vars).length = inst.length := by
    obtain ⟨_, -, heq⟩ := hinst.solved s.reading hreg.solves_reading
    have hlength := congrArg List.length heq
    rw [List.length_map, List.length_map] at hlength
    exact hlength.symm
  obtain ⟨hle, hsound⟩ := Ty.matchList_sound _ _ hlists hmatch
  have hlen : vars.length = slots.length := by
    rw [hle.1, Slots.ofKinds, List.length_map, Store.kindsOf, List.length_map]
  have hall : slots.AllClosed := by
    have hfound := Ty.matchList_closed (types.map fun t => (s.resolve t).generalize vars) inst
      hclosed (Slots.allClosed_ofKinds (s.kindsOf vars))
    rwa [hmatch] at hfound
  have hsub : ClosedSubst (vars.zip (slots.typesFor s vars) ++ rest) := by
    intro x hx
    rcases List.mem_append.mp hx with hx | hx
    · exact closed_typesFor hall _ (List.of_mem_zip hx).2
    · rw [hrest x hx]
      exact Ty.closed_defaultOf _
  have hassigns := assigns_valuation hreg hsub
  refine ⟨_, specialize?_eq hlen, hsub, hassigns, fun v hv hnot => ?_, ?_⟩
  · exact valuation_of_not_mem hreg hrest hv hnot
  · rw [h.working, Option.map_some]
    refine congrArg some (map_mapVars_of_match hreg h.fits hassigns.solves
      (fun t ht v hv => (h.mem v).mpr ⟨t, ht, hv⟩) hlen ?_ hsound)
    exact map_valuation hreg hlen h.nodup h.free hall rest

end Quantifies

end Readings

end Mono

end Mil
