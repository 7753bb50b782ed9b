import Mil.Mono.Request
import Mil.Optimize.Duplicates
import Mil.Proofs.Ty.MostGeneral
import Mil.Proofs.Typing.Generalise

/-!
Equality up to renaming decides whether there is a renaming: functions that are injective on the unbound
and on the quantified variables of one type and turn it into another. The parts of a block type and
those of an allocation type share one renaming. So equality up to renaming is an equivalence, and what
tests for it does not depend on which of the two types comes first.
-/

namespace Mil

open Ty (Occurs)

namespace Store

/-- The variables of some types that nothing is bound to. -/
def unboundIn (s : Store) (ts : List Ty) : Set Nat :=
  {v | s.binding? v = none ∧ ∃ t ∈ ts, Occurs (.var v) (s.resolve t)}

/-- The quantified variables of some types. -/
def quantifiedIn (s : Store) (ts : List Ty) : Set Nat :=
  {n | ∃ t ∈ ts, Occurs (.gen n) (s.resolve t)}

/-- An injective renaming of the unbound variables of some types to those of others and an injective
renaming of the quantified ones, which together turn the first types into the others. -/
structure Relabels (s : Store) (f g : Nat → Nat) (as bs : List Ty) : Prop where
  unbound : Set.InjOn f (s.unboundIn as)
  unbound_mapsTo : Set.MapsTo f (s.unboundIn as) (s.unboundIn bs)
  quantified : Set.InjOn g (s.quantifiedIn as)
  quantified_mapsTo : Set.MapsTo g (s.quantifiedIn as) (s.quantifiedIn bs)
  turns : as.map (fun t => (s.resolve t).relabel f g) = bs.map s.resolve

/-- The variables of a quantifier are the ones that occur under it. -/
def Quantifies (s : Store) (kinds : List Kind) (ts : List Ty) : Prop :=
  ∀ n, n ∈ s.quantifiedIn ts ↔ n < kinds.length

variable {s : Store} {f g : Nat → Nat} {as bs ts : List Ty} {kinds kinds' : List Kind}

theorem unboundIn_eq (h : s.Acyclic) (ts : List Ty) : s.unboundIn ts = Ty.varsIn (ts.map s.resolve) := by
  ext v
  simp only [unboundIn, Ty.varsIn, Set.mem_ofPred_eq, List.mem_map, exists_exists_and_eq_and,
    and_iff_right_iff_imp]
  rintro ⟨t, -, hv⟩
  exact h.ranked.unbound_of_occurs hv

theorem quantifiedIn_eq (s : Store) (ts : List Ty) : s.quantifiedIn ts = Ty.gensIn (ts.map s.resolve) := by
  ext n
  simp only [quantifiedIn, Ty.gensIn, Set.mem_ofPred_eq, List.mem_map, exists_exists_and_eq_and]

theorem relabels_iff (h : s.Acyclic) :
    s.Relabels f g as bs ↔ Ty.Relabels f g (as.map s.resolve) (bs.map s.resolve) := by
  constructor
  · intro hren
    refine ⟨unboundIn_eq h as ▸ hren.unbound, quantifiedIn_eq s as ▸ hren.quantified, ?_⟩
    rw [List.map_map]
    exact hren.turns
  · intro hren
    refine ⟨unboundIn_eq h as ▸ hren.vars, ?_, quantifiedIn_eq s as ▸ hren.gens, ?_, ?_⟩
    · rw [unboundIn_eq h, unboundIn_eq h]
      exact Set.mapsTo_iff_image_subset.mpr hren.image_vars.subset
    · rw [quantifiedIn_eq, quantifiedIn_eq]
      exact Set.mapsTo_iff_image_subset.mpr hren.image_gens.subset
    · rw [← hren.turns, List.map_map]
      rfl

theorem isSome_renameList?_iff (h : s.Acyclic) :
    (Ty.renameList? (as.map s.resolve) (bs.map s.resolve) .empty).isSome = true ↔
      ∃ f g, s.Relabels f g as bs := by
  rw [Ty.isSome_renameList?_iff]
  exact exists_congr fun f => exists_congr fun g => (relabels_iff h).symm

/-- Types that are turned into each other are quantified over the same number of variables, where all
of these occur. -/
theorem Relabels.length_eq (h : s.Acyclic) (hren : s.Relabels f g as bs) (ha : s.Quantifies kinds as)
    (hb : s.Quantifies kinds' bs) : kinds.length = kinds'.length := by
  have himage := ((relabels_iff h).mp hren).image_gens
  rw [← quantifiedIn_eq, ← quantifiedIn_eq] at himage
  have hrange : (Finset.range kinds.length).image g = Finset.range kinds'.length := by
    ext k
    rw [Finset.mem_range, ← hb, ← himage, Finset.mem_image]
    simp only [Finset.mem_range, ← ha _, Set.mem_image]
  have hinj : Set.InjOn g (Finset.range kinds.length) := fun n hn n' hn' heq =>
    hren.quantified ((ha n).mpr (Finset.mem_range.mp hn)) ((ha n').mpr (Finset.mem_range.mp hn')) heq
  rw [← Finset.card_range kinds.length, ← Finset.card_range kinds'.length, ← hrange,
    Finset.card_image_of_injOn hinj]

/-- A test of quantified types decides whether there is a renaming of their parts. The numbers of
variables that are quantified are equal then, as they must be in any case where all of them occur. -/
structure DecidesRenaming {α : Type} (s : Store) (kinds : α → List Kind) (parts : α → List Ty)
    (test : α → α → Bool) : Prop where
  exact : ∀ a b, test a b = true ↔
    (kinds a).length = (kinds b).length ∧ ∃ f g, s.Relabels f g (parts a) (parts b)
  quantifies : ∀ a b, s.Quantifies (kinds a) (parts a) → s.Quantifies (kinds b) (parts b) →
    (test a b = true ↔ ∃ f g, s.Relabels f g (parts a) (parts b))
  equivalence : Equivalence fun a b => test a b = true

theorem decidesRenaming {α : Type} {kinds : α → List Kind} {parts : α → List Ty}
    {test : α → α → Bool} (h : s.Acyclic)
    (htest : ∀ a b, test a b = ((kinds a).length = (kinds b).length &&
      (Ty.renameList? ((parts a).map s.resolve) ((parts b).map s.resolve) .empty).isSome)) :
    s.DecidesRenaming kinds parts test := by
  have hexact (a b : α) : test a b = true ↔ (kinds a).length = (kinds b).length ∧
      ∃ f g, Ty.Relabels f g ((parts a).map s.resolve) ((parts b).map s.resolve) := by
    rw [htest, Bool.and_eq_true, decide_eq_true_iff, Ty.isSome_renameList?_iff]
  refine ⟨fun a b => ?_, fun a b ha hb => ?_, ⟨fun a => ?_, fun {a b} hab => ?_, fun {a b c} hab hbc => ?_⟩⟩
  · rw [htest, Bool.and_eq_true, decide_eq_true_iff, isSome_renameList?_iff h]
  · rw [htest, Bool.and_eq_true, decide_eq_true_iff, isSome_renameList?_iff h]
    exact and_iff_right_of_imp fun ⟨f, g, hren⟩ => hren.length_eq h ha hb
  · exact (hexact a a).mpr ⟨rfl, id, id, Ty.relabels_refl _⟩
  · obtain ⟨hk, f, g, hren⟩ := (hexact a b).mp hab
    exact (hexact b a).mpr ⟨hk.symm, _, _, hren.symm⟩
  · obtain ⟨hk, f, g, hren⟩ := (hexact a b).mp hab
    obtain ⟨hk', f', g', hren'⟩ := (hexact b c).mp hbc
    exact (hexact a c).mpr ⟨hk.trans hk', _, _, hren.trans hren'⟩

theorem DecidesRenaming.comm {α : Type} {kinds : α → List Kind} {parts : α → List Ty}
    {test : α → α → Bool} (h : s.DecidesRenaming kinds parts test) (a b : α) : test a b = test b a :=
  Bool.eq_iff_iff.mpr ⟨h.equivalence.symm, h.equivalence.symm⟩

theorem decidesRenaming_type (h : s.Acyclic) :
    s.DecidesRenaming (fun _ : Ty => []) (fun t => [t]) s.alphaEquiv :=
  decidesRenaming h fun a b => by
    rw [List.map_singleton, List.map_singleton, Ty.renameList?_singleton]
    exact (Bool.true_and _).symm

theorem decidesRenaming_scheme (h : s.Acyclic) :
    s.DecidesRenaming Scheme.kinds Scheme.parts (Scheme.alphaEquiv s) :=
  decidesRenaming h Scheme.alphaEquiv_eq

theorem decidesRenaming_block (h : s.Acyclic) :
    s.DecidesRenaming BlockType.kinds BlockType.parts (BlockType.alphaEquiv s) :=
  decidesRenaming h BlockType.alphaEquiv_eq

theorem decidesRenaming_alloc (h : s.Acyclic) :
    s.DecidesRenaming AllocType.kinds AllocType.parts (AllocType.alphaEquiv s) :=
  decidesRenaming h AllocType.alphaEquiv_eq

end Store

/-! ### What tests for it -/

namespace Typing

variable {c : Checker} {id : DefnId} {d : Defn}

theorem exists_yields_reportAmbiguous (c : Checker) (d : Defn) (generics used : List Nat) :
    ∃ c', Yields (reportAmbiguous d generics used) c () c' := by
  unfold reportAmbiguous
  dsimp only
  split
  · exact ⟨_, yields_modify.mpr rfl⟩
  · exact ⟨c, yields_pure.mpr ⟨rfl, rfl⟩⟩

theorem filter_not_eq_none_iff {α : Type} {o : Option α} {f : α → Bool} :
    (o.filter fun a => !f a) = none ↔ ∀ a ∈ o, f a = true := by
  rw [Option.filter_eq_none_iff]
  simp

theorem exists_yields_store {f : Store → CheckM Unit} :
    (∃ c', Yields (store >>= f) c () c') ↔ ∃ c', Yields (f c.program.store) c () c' := by
  refine exists_congr fun c' => yields_bind.trans ⟨?_, fun h => ⟨_, c, yields_store.mpr ⟨rfl, rfl⟩, h⟩⟩
  rintro ⟨s, c₁, hs, h⟩
  obtain ⟨rfl, rfl⟩ := yields_store.mp hs
  exact h

theorem exists_yields_setBody {body : DefnBody} {k : Checker → CheckM Unit}
    (hk : ∀ c, ∃ c', Yields (k c) c () c') : ∃ c', Yields (do setBody id body; k (← get)) c () c' := by
  obtain ⟨c', hc'⟩ := hk { c with program := c.program.setBody id body }
  exact ⟨c', yields_bind.mpr ⟨(), _, yields_setBody.mpr rfl, yields_bind.mpr
    ⟨_, _, yields_get.mpr ⟨rfl, rfl⟩, hc'⟩⟩⟩

theorem not_exists_yields_refuse {problem : DefnProblem} :
    ¬ ∃ c', Yields (refuse d problem : CheckM Unit) c () c' := by
  rintro ⟨c', h⟩
  exact not_yields_throw h

/-- The type of a block is accepted if what was declared is equal to it up to renaming. -/
theorem generalizeBlock_iff {b : Block} {type : BlockType} :
    (∃ c', Yields (generalizeBlock id d b type) c () c') ↔ ∀ t ∈ b.declared,
      t.alphaEquiv c.program.store
        (type.generalize c.program.store (type.addVars c.program.store [])) = true := by
  rw [← filter_not_eq_none_iff]
  refine exists_yields_store.trans ?_
  dsimp only
  split
  · rename_i hfilter
    exact iff_of_false not_exists_yields_refuse (by rw [hfilter]; exact Option.some_ne_none _)
  · rename_i hfilter
    exact iff_of_true (exists_yields_setBody fun c => exists_yields_reportAmbiguous c d _ _) hfilter

/-- The type of a closure is accepted if what was declared is equal to it up to renaming. -/
theorem generalizeClosure_iff {k : Closure} {type : AllocType} :
    (∃ c', Yields (generalizeClosure id d k type) c () c') ↔ ∀ t ∈ k.declared,
      t.alphaEquiv c.program.store
        (type.generalize c.program.store (type.addVars c.program.store [])) = true := by
  rw [← filter_not_eq_none_iff]
  refine exists_yields_store.trans ?_
  dsimp only
  split
  · rename_i hfilter
    exact iff_of_false not_exists_yields_refuse (by rw [hfilter]; exact Option.some_ne_none _)
  · rename_i hfilter
    exact iff_of_true (exists_yields_setBody fun c => exists_yields_reportAmbiguous c d _ _) hfilter

theorem generalizeNames_iff {s : Store} {ls : List TopName} :
    (generalizeNames d s ls).2 = none ↔ ∀ l ∈ ls, ∀ type ∈ l.defining, ∀ t ∈ l.declared,
      t.alphaEquiv s (Scheme.generalize s type (s.varsOf type)) = true := by
  induction ls with
  | nil => simp [generalizeNames]
  | cons l ls ih =>
      rw [List.forall_mem_cons, ← ih, generalizeNames]
      cases hdef : l.defining with
      | none => simp
      | some type =>
          simp only [Option.mem_some_iff, forall_eq']
          rw [← filter_not_eq_none_iff]
          split <;> simp [*]

/-- The names of a top-level definition are accepted if what was declared for each is equal to its type
up to renaming. -/
theorem generalizeTop_iff {t : TopLevel} :
    (∃ c', Yields (generalizeTop id d t) c () c') ↔ ∀ l ∈ t.lhs, ∀ type ∈ l.defining, ∀ u ∈ l.declared,
      u.alphaEquiv c.program.store
        (Scheme.generalize c.program.store type (c.program.store.varsOf type)) = true := by
  rw [← generalizeNames_iff (d := d)]
  refine exists_yields_store.trans ?_
  rcases hnames : generalizeNames d c.program.store t.lhs with ⟨lhs, _ | problem⟩
  · exact iff_of_true (exists_yields_setBody fun c => exists_yields_reportAmbiguous c d _ _) rfl
  · refine iff_of_false ?_ (Option.some_ne_none problem)
    rintro ⟨c', h⟩
    obtain ⟨_, c₂, -, h⟩ := yields_bind.mp h
    exact not_exists_yields_refuse ⟨c', h⟩

end Typing

namespace Mono

/-- The copy of a primitive that was made for a block type that is equal up to renaming. -/
def State.copy? (st : State) (p : Prim) (asked : BlockType) : Option Prim :=
  (st.prims.find? fun x => x.1 = p.index && asked.alphaEquiv st.program.store x.2.type).map Prod.snd

/-- The state after a copy of a primitive was made, and the copy. -/
def State.copy (st : State) (p : Prim) (asked : BlockType) : Prim × State :=
  let (q, prims) := st.program.prims.clone p asked
  (q, { st with program := { st.program with prims }, prims := st.prims ++ [(p.index, q)] })

/-- A primitive is asked for at a block type: a copy that was made is used again, whichever of the two
block types comes first in the comparison. -/
theorem prim_eq {st : State} {p : Prim} {inst : BlockType} (hp : p.type.isPolymorphic = true)
    (hcomm : ∀ a b : BlockType, a.alphaEquiv st.program.store b = b.alphaEquiv st.program.store a) :
    prim p inst st = Prod.map .ok id (match st.copy? p (inst.ground st.program.store) with
      | some q => (q, st)
      | none => st.copy p (inst.ground st.program.store)) := by
  have hfind (asked : BlockType) :
      (fun x : Nat × Prim => x.1 = p.index && asked.alphaEquiv st.program.store x.2.type) =
        fun x => x.1 = p.index && x.2.type.alphaEquiv st.program.store asked :=
    funext fun x => by rw [hcomm]
  have hget (f : State → MonoM Prim) : (get >>= f) st = f st st := rfl
  rw [prim, if_neg (by simpa using hp), State.copy?, hfind, hget]
  dsimp only
  cases st.prims.find? _ <;> rfl

end Mono

namespace DefnBody

variable {s : Store}

/-- A block is merged into one that declares nothing, or the same up to renaming. -/
theorem fitsType_block_iff {a b : Block} : (block a).fitsType s (block b) = true ↔
    ∀ t ∈ a.declared, ∃ u ∈ b.declared, t.alphaEquiv s u = true := by
  rw [fitsType]
  cases ha : a.declared <;> cases hb : b.declared <;> simp

/-- A closure is merged into one that declares nothing, or the same up to renaming. -/
theorem fitsType_closure_iff {a b : Closure} : (closure a).fitsType s (closure b) = true ↔
    ∀ t ∈ a.declared, ∃ u ∈ b.declared, t.alphaEquiv s u = true := by
  rw [fitsType]
  cases ha : a.declared <;> cases hb : b.declared <;> simp

end DefnBody

namespace Store

open Typing

/-- What tests for equality up to renaming gets the same answers with the two types exchanged: the check
of what was declared against what was found, the search for a copy of a primitive, and the merging of
duplicates. -/
structure TestsEitherWay (s : Store) : Prop where
  block : ∀ {c : Checker}, c.program.store = s → ∀ id d (b : Block) (type : BlockType),
    (∃ c', Yields (generalizeBlock id d b type) c () c') ↔
      ∀ t ∈ b.declared, (type.generalize s (type.addVars s [])).alphaEquiv s t = true
  closure : ∀ {c : Checker}, c.program.store = s → ∀ id d (k : Closure) (type : AllocType),
    (∃ c', Yields (generalizeClosure id d k type) c () c') ↔
      ∀ t ∈ k.declared, (type.generalize s (type.addVars s [])).alphaEquiv s t = true
  top : ∀ {c : Checker}, c.program.store = s → ∀ id d (t : TopLevel),
    (∃ c', Yields (generalizeTop id d t) c () c') ↔
      ∀ l ∈ t.lhs, ∀ type ∈ l.defining, ∀ u ∈ l.declared,
        (Scheme.generalize s type (s.varsOf type)).alphaEquiv s u = true
  prim : ∀ {st : Mono.State}, st.program.store = s → ∀ (p : Prim) (inst : BlockType),
    p.type.isPolymorphic = true →
      Mono.prim p inst st = Prod.map .ok id (match st.copy? p (inst.ground s) with
        | some q => (q, st)
        | none => st.copy p (inst.ground s))
  mergeBlock : ∀ a b : Block, (DefnBody.block a).fitsType s (.block b) = true ↔
    ∀ t ∈ a.declared, ∃ u ∈ b.declared, u.alphaEquiv s t = true
  mergeClosure : ∀ a b : Closure, (DefnBody.closure a).fitsType s (.closure b) = true ↔
    ∀ t ∈ a.declared, ∃ u ∈ b.declared, u.alphaEquiv s t = true

theorem testsEitherWay {s : Store} (h : s.Acyclic) : s.TestsEitherWay where
  block hs id d b type := by
    subst hs
    simp only [generalizeBlock_iff, (decidesRenaming_block h).comm]
  closure hs id d k type := by
    subst hs
    simp only [generalizeClosure_iff, (decidesRenaming_alloc h).comm]
  top hs id d t := by
    subst hs
    simp only [generalizeTop_iff, (decidesRenaming_scheme h).comm]
  prim hs p inst hp := by
    subst hs
    exact Mono.prim_eq hp (decidesRenaming_block h).comm
  mergeBlock a b := by simp only [DefnBody.fitsType_block_iff, (decidesRenaming_block h).comm]
  mergeClosure a b := by simp only [DefnBody.fitsType_closure_iff, (decidesRenaming_alloc h).comm]

/-- Equality up to renaming. Over a store without cycles two types are equal up to renaming exactly if
there are injective renamings of the unbound and of the quantified variables of one to those of the
other that turn the one into the other, and likewise for schemes, for domain and range of block types
and for all fields and the result of allocation types. It is an equivalence, and what tests for it does
not depend on the order of the two. -/
theorem alphaEquiv_iff_relabels {s : Store} (h : s.Acyclic) :
    (∀ a b : Ty, s.alphaEquiv a b = true ↔ ∃ f g, s.Relabels f g [a] [b]) ∧
    (Equivalence fun a b : Ty => s.alphaEquiv a b = true) ∧
    s.DecidesRenaming Scheme.kinds Scheme.parts (Scheme.alphaEquiv s) ∧
    s.DecidesRenaming BlockType.kinds BlockType.parts (BlockType.alphaEquiv s) ∧
    s.DecidesRenaming AllocType.kinds AllocType.parts (AllocType.alphaEquiv s) ∧
    s.TestsEitherWay :=
  ⟨fun a b => ((decidesRenaming_type h).exact a b).trans (and_iff_right rfl),
    (decidesRenaming_type h).equivalence, decidesRenaming_scheme h, decidesRenaming_block h,
    decidesRenaming_alloc h, testsEitherWay h⟩

/-- A variable that is bound to another is read as that one. It can be renamed to a third variable, but
two variables cannot be renamed to one. -/
theorem alphaEquiv_iff_relabels_linked : linked.Acyclic ∧
    (∃ f g, linked.Relabels f g [.tuple [.var 0, .gen 0, .var 1]] [.tuple [.var 2, .gen 5, .var 2]]) ∧
    ¬ ∃ f g, linked.Relabels f g [.tuple [.var 0, .var 2]] [.tuple [.var 0, .var 1]] := by
  have hacyclic := proper_linked.acyclic
  obtain ⟨hiff, -⟩ := alphaEquiv_iff_relabels hacyclic
  exact ⟨hacyclic, (hiff _ _).mp (by decide), fun h => absurd ((hiff _ _).mpr h) (by decide)⟩

end Store

end Mil
