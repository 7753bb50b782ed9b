import Mathlib.Data.Finite.Prod
import Mathlib.Data.Finset.Card
import Mathlib.Data.Set.Finite.Lattice
import Mathlib.Order.CompletePartialOrder
import Mil.Proofs.Machine.Safety
import Mil.Proofs.Mono.Derive

/-!
Flows of types. A reference puts types in place of the generic variables of what it refers to, and
the variables of the referring definition flow into these types. A flow grows if the type is more
than the variable. If no flow that grows lies on a cycle, the variables have ranks, and the types
that a variable can stand for are bounded by its rank: there are finitely many, and so there are
finitely many copies to be asked for.
-/

namespace Mil

open Ty (Occurs)

namespace Ty

theorem leaf_eq_of_subst_eq {f g f' g' : Nat → Ty} {t : Ty} (h : subst f g t = subst f' g' t)
    {x : Leaf} (hx : Occurs x t) : x.subst f g = x.subst f' g' := by
  induction t with
  | var v =>
      obtain rfl := occurs_var.mp hx
      exact h
  | gen n =>
      obtain rfl := occurs_gen.mp hx
      exact h
  | con c => exact absurd hx not_occurs_con
  | ap a b ha hb =>
      rw [subst_ap, subst_ap] at h
      obtain ⟨hfn, harg⟩ := Ty.ap.inj h
      exact (occurs_ap.mp hx).elim (ha hfn) (hb harg)
  | nat n => exact absurd hx not_occurs_nat
  | tuple ts ih =>
      rw [subst_tuple, subst_tuple] at h
      obtain ⟨t, ht, hx⟩ := occurs_tuple.mp hx
      exact ih t ht (List.map_inj_left.mp (Ty.tuple.inj h) t ht) hx

/-- The types that a type becomes when each variable is read as one of some types. -/
def readings (S : Nat → Set Ty) (t : Ty) : Set Ty :=
  {u | ∃ θ : Nat → Ty, (∀ v, Occurs (.var v) t → θ v ∈ S v) ∧ t.mapVars θ = u}

/-- The lists that a list of types becomes when each variable is read as one of some types. -/
def readingsList (S : Nat → Set Ty) (ts : List Ty) : Set (List Ty) :=
  {us | List.Forall₂ (fun t u => u ∈ readings S t) ts us}

theorem finite_readingsList {S : Nat → Set Ty} {ts : List Ty}
    (h : ∀ t ∈ ts, (readings S t).Finite) : (readingsList S ts).Finite := by
  induction ts with
  | nil =>
      refine (Set.finite_singleton []).subset fun us hus => ?_
      cases hus
      rfl
  | cons t ts ih =>
      refine (Set.Finite.image2 List.cons (h t (.head _)) (ih fun u hu => h u (.tail _ hu))).subset
        fun us hus => ?_
      cases hus with
      | cons hu hus => exact ⟨_, hu, _, hus, rfl⟩

/-- A type becomes finitely many types if each variable is read as one of finitely many. -/
theorem finite_readings {S : Nat → Set Ty} (hS : ∀ v, (S v).Finite) (t : Ty) :
    (readings S t).Finite := by
  induction t with
  | var v =>
      refine (hS v).subset ?_
      rintro _ ⟨θ, hθ, rfl⟩
      exact hθ v (occurs_var.mpr rfl)
  | gen n =>
      refine (Set.finite_singleton (.gen n)).subset ?_
      rintro _ ⟨θ, -, rfl⟩
      rfl
  | con c =>
      refine (Set.finite_singleton (.con c)).subset ?_
      rintro _ ⟨θ, -, rfl⟩
      rfl
  | nat n =>
      refine (Set.finite_singleton (.nat n)).subset ?_
      rintro _ ⟨θ, -, rfl⟩
      rfl
  | ap f a hf ha =>
      refine (Set.Finite.image2 Ty.ap hf ha).subset ?_
      rintro _ ⟨θ, hθ, rfl⟩
      exact ⟨_, ⟨θ, fun v hv => hθ v (.fn hv), rfl⟩, _, ⟨θ, fun v hv => hθ v (.arg hv), rfl⟩, rfl⟩
  | tuple ts ih =>
      refine ((finite_readingsList ih).image Ty.tuple).subset ?_
      rintro _ ⟨θ, hθ, rfl⟩
      refine ⟨ts.map (mapVars θ), ?_, (subst_tuple ..).symm⟩
      refine List.forall₂_map_right_iff.mpr (List.forall₂_same.mpr fun t ht => ?_)
      exact ⟨θ, fun v hv => hθ v (.elem ht hv), rfl⟩

end Ty

/-! ### Flows -/

/-- A variable of a definition that occurs in a type which takes the place of a generic variable of
another definition. -/
structure Flow where
  source : DefnId × Nat
  target : DefnId × Nat
  type : Ty

/-- Is the type more than the variable? -/
def Flow.grows (f : Flow) : Bool := !(f.type == .var f.source.2)

namespace Program

/-- The declared type of the name that a use refers to, and the variables it is generic in. -/
def generic? (p : Program) : Use → Option (List Ty × List Nat)
  | .block id _ => (p.block? id).bind fun b => b.declared.map fun t => (t.parts, b.generics)
  | .closure id _ => (p.closure? id).bind fun k => k.declared.map fun t => (t.parts, k.generics)
  | .value id index _ =>
    match (p.defns[id]?).map Defn.body with
    | some (.top t) => (t.lhs[index]?).bind fun l => l.declared.map fun c => (c.parts, l.generics)
    | _ => none

/-- The types that a use puts in place of generic variables. -/
def puts (p : Program) (u : Use) : List (Nat × Ty) :=
  match p.generic? u with
  | some (parts, vars) =>
    let slots := (Ty.matchList (parts.map p.store.resolve) (u.parts.map p.store.resolve)
      (Slots.ofKinds (p.store.kindsOf vars))).2
    (vars.zip slots).filterMap fun (v, slot) => slot.map (v, ·)
  | none => []

/-- The flows along the references of all definitions that can be reached. -/
def flows (p : Program) : List Flow :=
  p.reachable.flatMap fun id => (p.usesOf id).flatMap fun u => (p.puts u).flatMap fun (w, t) =>
    (t.addVars []).map fun v => ⟨(id, v), (u.target, w), t⟩

/-- Types flow from one variable to another. -/
abbrev FlowPath (p : Program) : DefnId × Nat → DefnId × Nat → Prop :=
  Relation.ReflTransGen fun x y => ∃ f ∈ p.flows, f.source = x ∧ f.target = y

/-- No flow that grows lies on a cycle. -/
def Nonexpansive (p : Program) : Prop :=
  ∀ f ∈ p.flows, f.grows = true → ¬ p.FlowPath f.target f.source

/-- Flows do not go down in rank, and those that grow go up. -/
def Ranked (p : Program) (rank : DefnId × Nat → Nat) : Prop :=
  ∀ f ∈ p.flows, rank f.source + f.grows.toNat ≤ rank f.target

theorem mem_flows {p : Program} {id : DefnId} {u : Use} {w v : Nat} {t : Ty} (hid : id ∈ p.reachable)
    (hu : u ∈ p.usesOf id) (hput : (w, t) ∈ p.puts u) (hv : Occurs (.var v) t) :
    ⟨(id, v), (u.target, w), t⟩ ∈ p.flows :=
  List.mem_flatMap.mpr ⟨id, hid, List.mem_flatMap.mpr ⟨u, hu, List.mem_flatMap.mpr
    ⟨(w, t), hput, List.mem_map.mpr ⟨v, Ty.mem_addVars.mpr (.inr hv), rfl⟩⟩⟩⟩

/-- If no flow that grows lies on a cycle, a variable can be ranked by the number of those that flow
into it. -/
theorem Nonexpansive.exists_ranked {p : Program} (h : p.Nonexpansive) : ∃ rank, p.Ranked rank := by
  classical
  let targets : Finset (DefnId × Nat) := (p.flows.map Flow.target).toFinset
  refine ⟨fun x => (targets.filter fun y => p.FlowPath y x).card, fun f hf => ?_⟩
  have hsub : (targets.filter fun y => p.FlowPath y f.source) ⊆
      targets.filter fun y => p.FlowPath y f.target := by
    intro y hy
    obtain ⟨hy, hpath⟩ := Finset.mem_filter.mp hy
    exact Finset.mem_filter.mpr ⟨hy, hpath.tail ⟨f, hf, rfl, rfl⟩⟩
  cases hgrows : f.grows with
  | false => exact Finset.card_le_card hsub
  | true =>
      refine Finset.card_lt_card (Finset.ssubset_iff_of_subset hsub |>.mpr ⟨f.target, ?_, ?_⟩)
      · refine Finset.mem_filter.mpr ⟨?_, .refl⟩
        exact List.mem_toFinset.mpr (List.mem_map_of_mem hf)
      · exact fun hmem => h f hf hgrows (Finset.mem_filter.mp hmem).2

theorem Ranked.le_of_path {p : Program} {rank : DefnId × Nat → Nat} (h : p.Ranked rank)
    {x y : DefnId × Nat} (hpath : p.FlowPath x y) : rank x ≤ rank y := by
  induction hpath with
  | refl => exact Nat.le_refl _
  | tail _ hstep ih =>
      obtain ⟨f, hf, rfl, rfl⟩ := hstep
      exact ih.trans ((Nat.le_add_right _ _).trans (h f hf))

theorem Ranked.nonexpansive {p : Program} {rank : DefnId × Nat → Nat} (h : p.Ranked rank) :
    p.Nonexpansive := by
  intro f hf hgrows hpath
  have hlt := h f hf
  rw [hgrows] at hlt
  exact Nat.lt_irrefl _ (hlt.trans (h.le_of_path hpath))

end Program

namespace Mono

open Typing (Context DefnHas Complete)

/-! ### What a reading puts in place of generic variables -/

section Puts

namespace Quantifies

variable {s : Store} {i : Interface} {vars : List Nat} {types inst τs : List Ty} {θ θ' : Nat → Ty}
  (h : Quantifies s i vars types)

include h

theorem occurs_gen {n : Nat} (hn : n < vars.length) :
    ∃ t ∈ types, Occurs (.gen n) ((s.resolve t).generalize vars) := by
  obtain ⟨t, ht, hocc⟩ := (h.mem vars[n]).mp (List.getElem_mem hn)
  refine ⟨t, ht, Ty.occurs_mapVars.mpr (.inl ⟨vars[n], hocc, ?_⟩)⟩
  rw [if_pos (List.getElem_mem hn), h.nodup.idxOf_getElem n hn]
  exact Ty.occurs_gen.mpr rfl

/-- How an instance is read determines how the generic variables are read. -/
theorem map_reads (hreg : s.Regular 0) (hlen : τs.length = vars.length)
    (hinst : (types.map fun t => ((s.resolve t).generalize vars).instantiate τs) =
      inst.map s.resolve)
    (hθ : s.Solves θ) (hreads : Reads s i vars θ' (inst.map (Ty.mapVars θ))) :
    vars.map θ' = τs.map (Ty.mapVars θ) := by
  have hsame : (types.map fun t => ((s.resolve t).generalize vars).instantiate (vars.map θ')) =
      types.map fun t => ((s.resolve t).generalize vars).instantiate (τs.map (Ty.mapVars θ)) :=
    calc
      _ = types.map (Ty.mapVars θ') := by
        refine List.map_congr_left fun t ht => ?_
        rw [Ty.instantiate_generalize (hreg.resolve_within (h.fits t ht)).not_gen
          (fun v hv => (h.mem v).mpr ⟨t, ht, hv⟩), hreads.assigns.solves.resolve]
      _ = inst.map (Ty.mapVars θ) := h.parts_eq hreads
      _ = (inst.map s.resolve).map (Ty.mapVars θ) := by
        rw [List.map_map]
        exact List.map_congr_left fun t _ => (hθ.resolve t).symm
      _ = _ := by
        rw [← hinst, List.map_map]
        refine List.map_congr_left fun t ht => ?_
        exact (h.closed hreg _ (List.mem_map_of_mem ht)).mapVars_instantiate hlen.ge θ
  refine List.ext_getElem (by simp [hlen]) fun n hn hn' => ?_
  obtain ⟨t, ht, hocc⟩ := h.occurs_gen (by simpa using hn)
  have hleaf := Ty.leaf_eq_of_subst_eq (List.map_inj_left.mp hsame t ht) hocc
  simpa only [Ty.Leaf.subst, List.getElem?_eq_getElem hn, List.getElem?_eq_getElem hn',
    Option.getD_some] using hleaf

theorem unbound_of_instance (hreg : s.Regular 0)
    (hinst : (types.map fun t => ((s.resolve t).generalize vars).instantiate τs) =
      inst.map s.resolve)
    {n : Nat} {t : Ty} (hn : n < vars.length) (ht : τs[n]? = some t) {v : Nat}
    (hv : Occurs (.var v) t) : s.binding? v = none := by
  obtain ⟨t₀, ht₀, hocc⟩ := h.occurs_gen hn
  have hmem : ((s.resolve t₀).generalize vars).instantiate τs ∈ inst.map s.resolve :=
    hinst ▸ List.mem_map_of_mem ht₀
  obtain ⟨u, -, hu⟩ := List.mem_map.mp hmem
  refine hreg.unbound_of_occurs (t := u) (hu ▸ Ty.occurs_subst.mpr ⟨_, hocc, ?_⟩)
  rw [Ty.Leaf.subst, ht]
  exact hv

end Quantifies

variable {p : Program} {i : Interface} {vars : List Nat} {types : List Ty} {u : Use}
  {θ θ' : Nat → Ty}

/-- If a use reads the name that it refers to, the generic variables of the name are read as the
types that the use puts in their place are, or they are at their defaults. -/
theorem put_of_reads (hreg : p.store.Regular 0) (hq : Quantifies p.store i vars types)
    (hgeneric : p.generic? u =
      some (types.map fun t => (p.store.resolve t).generalize vars, vars))
    (hseen : i.SeenAs p.store u.parts) (hθ : Assigns p.store θ)
    (hreads : Reads p.store i vars θ' (u.parts.map (Ty.mapVars θ))) {w : Nat} (hw : w ∈ vars) :
    θ' w = Ty.defaultOf (p.store.kindOf w) ∨ ∃ t, (w, t) ∈ p.puts u ∧ θ' w = t.mapVars θ ∧
      ∀ v, Occurs (.var v) t → p.store.binding? v = none := by
  have hinst := hq.isInstance hseen
  have hclosed := hq.closed hreg
  have hkinds : (p.store.kindsOf vars).length = vars.length := List.length_map ..
  obtain ⟨slots, hmatch⟩ := hinst.matchList hreg (hkinds ▸ hclosed)
  obtain ⟨hle, hsound⟩ := Ty.matchList_sound _ _ (by
    obtain ⟨_, -, heq⟩ := hinst.solved θ hθ.solves
    simpa using (congrArg List.length heq).symm) hmatch
  have hlen : vars.length = slots.length := by
    rw [hle.1, Slots.ofKinds, List.length_map, hkinds]
  have hsame := hsound _ (slots.agreesWith_typesFor p.store hlen)
  rw [closedUnder_map_resolve hclosed, List.map_map] at hsame
  have hread := hq.map_reads hreg (by simp [Slots.typesFor, hlen]) hsame hθ.solves hreads
  obtain ⟨n, hn, rfl⟩ := List.mem_iff_getElem.mp hw
  obtain ⟨slot, hslot⟩ : ∃ slot, slots[n]? = some slot :=
    ⟨_, List.getElem?_eq_getElem (hlen ▸ hn)⟩
  have hzip : (vars.zip slots)[n]? = some (vars[n], slot) :=
    List.getElem?_zip_eq_some.mpr ⟨List.getElem?_eq_getElem hn, hslot⟩
  have htype : (slots.typesFor p.store vars)[n]? =
      some (slot.getD (Ty.defaultOf (p.store.kindOf vars[n]))) := by
    rw [Slots.typesFor, List.getElem?_map, hzip, Option.map_some]
  have hget := congrArg (·[n]?) hread
  simp only [List.getElem?_map, List.getElem?_eq_getElem hn, htype, Option.map_some,
    Option.some.injEq] at hget
  cases slot with
  | none => exact .inl (hget.trans ((Ty.closed_defaultOf _).mapVars θ))
  | some t =>
      refine .inr ⟨t, ?_, hget, fun v hv => hq.unbound_of_instance hreg hsame hn htype hv⟩
      rw [Program.puts, hgeneric]
      dsimp only
      rw [hmatch]
      exact List.mem_filterMap.mpr ⟨_, List.mem_of_getElem? hzip, rfl⟩

end Puts

/-! ### Grades -/

/-- The types that references put in place of generic variables. -/
def putTypes (p : Program) : List Ty :=
  p.reachable.flatMap fun id => (p.usesOf id).flatMap fun u => (p.puts u).map Prod.snd

/-- Defaults, and types that arise from them when a type is put in place of a variable up to a number
of times. -/
def grade (p : Program) : Nat → Set Ty
  | 0 => Set.range Ty.defaultOf
  | n + 1 => grade p n ∪ ⋃ t ∈ {t | t ∈ putTypes p}, t.readings fun _ => grade p n

section Grades

variable {p : Program} {rank : DefnId × Nat → Nat}

theorem finite_grade (p : Program) (n : Nat) : (grade p n).Finite := by
  induction n with
  | zero =>
      refine (Set.toFinite {Ty.unit, .nat 0, .tuple []}).subset ?_
      rintro _ ⟨k, rfl⟩
      cases k <;> simp [Ty.defaultOf]
  | succ n ih =>
      exact ih.union ((List.finite_toSet (putTypes p)).biUnion fun t _ =>
        Ty.finite_readings (fun _ => ih) t)

theorem grade_mono (p : Program) : Monotone (grade p) :=
  monotone_nat_of_le_succ fun _ => Set.subset_union_left

theorem default_mem_grade (k : Kind) (n : Nat) : Ty.defaultOf k ∈ grade p n :=
  grade_mono p (Nat.zero_le n) ⟨k, rfl⟩

/-- A definition that can be reached is read at a grade above the rank of each variable. -/
structure Graded (p : Program) (rank : DefnId × Nat → Nat) (id : DefnId) (θ : Nat → Ty) : Prop where
  reachable : id ∈ p.reachable
  mem : ∀ v, p.store.binding? v = none → θ v ∈ grade p (rank (id, v) + 1)

/-- What a reference puts in place of a variable is at the grade of the variable. -/
theorem put_mem_grade (hrank : p.Ranked rank) {id : DefnId} {u : Use} {w : Nat} {t : Ty}
    {θ : Nat → Ty} (hgood : Graded p rank id θ) (hu : u ∈ p.usesOf id) (hput : (w, t) ∈ p.puts u)
    (hfree : ∀ v, Occurs (.var v) t → p.store.binding? v = none) :
    t.mapVars θ ∈ grade p (rank (u.target, w) + 1) := by
  have hflow {v : Nat} (hv : Occurs (.var v) t) :
      rank (id, v) + (Flow.mk (id, v) (u.target, w) t).grows.toNat ≤ rank (u.target, w) :=
    hrank _ (Program.mem_flows hgood.reachable hu hput hv)
  by_cases hvar : ∃ v, t = .var v
  · obtain ⟨v, rfl⟩ := hvar
    have hv := Ty.occurs_var.mpr (rfl : Ty.Leaf.var v = .var v)
    rw [Ty.mapVars_var]
    refine grade_mono p (Nat.succ_le_succ ?_) (hgood.mem v (hfree v hv))
    exact (Nat.le_add_right _ _).trans (hflow hv)
  · refine .inr (Set.mem_biUnion (x := t) ?_ ⟨θ, fun v hv => ?_, rfl⟩)
    · exact List.mem_flatMap.mpr ⟨id, hgood.reachable, List.mem_flatMap.mpr
        ⟨u, hu, List.mem_map.mpr ⟨(w, t), hput, rfl⟩⟩⟩
    · have hgrows : (Flow.mk (id, v) (u.target, w) t).grows = true := by
        rw [Flow.grows, Bool.not_eq_true', beq_eq_false_iff_ne]
        exact fun heq => hvar ⟨v, heq⟩
      refine grade_mono p ?_ (hgood.mem v (hfree v hv))
      simpa [hgrows] using hflow hv

theorem graded_of_reads (hreg : p.store.Regular 0) (hrank : p.Ranked rank)
    (hclosed : ∀ i ∈ p.reachable, ∀ j ∈ p.dependencies i, j ∈ p.reachable) {id : DefnId} {u : Use}
    {i : Interface} {vars : List Nat} {types : List Ty} {θ θ' : Nat → Ty}
    (hgood : Graded p rank id θ) (hθ : Assigns p.store θ) (hu : u ∈ p.usesOf id)
    (hq : Quantifies p.store i vars types)
    (hgeneric : p.generic? u =
      some (types.map fun t => (p.store.resolve t).generalize vars, vars))
    (hseen : i.SeenAs p.store u.parts)
    (hreads : Reads p.store i vars θ' (u.parts.map (Ty.mapVars θ))) :
    Graded p rank u.target θ' := by
  refine ⟨hclosed id hgood.reachable _ (Program.target_mem_dependencies hu), fun v hv => ?_⟩
  by_cases hw : v ∈ vars
  · rcases put_of_reads hreg hq hgeneric hseen hθ hreads hw with hdefault | ⟨t, hput, heq, hfree⟩
    · rw [hdefault]
      exact default_mem_grade _ _
    · rw [heq]
      exact put_mem_grade hrank hgood hu hput hfree
  · rw [hreads.base v hv hw]
    exact default_mem_grade _ _

/-- From graded definitions only graded ones are asked for. -/
theorem followed_graded (h : Complete p) (hrank : p.Ranked rank)
    (hclosed : ∀ i ∈ p.reachable, ∀ j ∈ p.dependencies i, j ∈ p.reachable) :
    Followed p (Graded p rank) := by
  intro id d θ hd hθ hgood
  have hreg := h.regular
  have huses : p.usesOf id = p.uses d.body := by
    rw [Program.usesOf, hd]
    rfl
  have hder := ((h.stage hd).derivation θ hθ.solves).only (p := p) fun _ _ ha => ha
  rw [← huses] at hder
  suffices hle : ((p.working θ).only (p.usesOf id)).Le (workingAt p (Graded p rank) θ) from
    hder.mono hle
  refine ⟨fun _ _ ha => ha, rfl, ?_, fun _ _ hq => hq, ?_, fun _ _ hk => hk, ?_⟩
  · rintro j inst ⟨⟨d', b, hd', hb, hseen⟩, hu⟩
    obtain ⟨type, -, hdeclared, hq⟩ := quantifies_block h hd' hb
    refine ⟨d', b, hd', hb, hseen, fun θ' hreads => ?_⟩
    refine graded_of_reads hreg hrank hclosed hgood hθ hu hq ?_ hseen hreads
    rw [Program.generic?, Program.block?, hd', Option.map_some, hb, Option.bind_some, hdeclared,
      Option.map_some, BlockType.parts_generalize]
  · rintro j inst ⟨⟨d', k, hd', hk, hseen⟩, hu⟩
    obtain ⟨type, -, hdeclared, hq⟩ := quantifies_closure h hd' hk
    refine ⟨d', k, hd', hk, hseen, fun θ' hreads => ?_⟩
    refine graded_of_reads hreg hrank hclosed hgood hθ hu hq ?_ hseen hreads
    rw [Program.generic?, Program.closure?, hd', Option.map_some, hk, Option.bind_some, hdeclared,
      Option.map_some, AllocType.parts_generalize]
  · rintro j index t ⟨⟨d', i, hd', hi, hseen⟩, hu⟩
    refine ⟨d', i, hd', hi, hseen, fun θ' hreads => ?_⟩
    cases hb : d'.body with
    | block b =>
        rw [hb] at hi
        cases hi
    | closure k =>
        rw [hb] at hi
        cases hi
    | top t' =>
        rw [hb] at hi hreads
        obtain ⟨l, hl, rfl⟩ := Option.map_eq_some_iff.mp hi
        rw [valueGenerics, hl, Option.map_some, Option.getD_some] at hreads
        obtain ⟨type, -, hdeclared, hq⟩ := quantifies_name h hd' hb (List.mem_of_getElem? hl)
        refine graded_of_reads hreg hrank hclosed hgood hθ hu hq ?_ hseen hreads
        rw [Program.generic?, hd', Option.map_some, hb]
        dsimp only
        rw [hl, Option.bind_some, hdeclared, Option.map_some, Scheme.parts_generalize]
    | external e =>
        rw [hb] at hreads
        refine ⟨hclosed id hgood.reachable _ (Program.target_mem_dependencies hu), fun v hv => ?_⟩
        rw [hreads.base v hv List.not_mem_nil]
        exact default_mem_grade _ _

end Grades

end Mono

end Mil
