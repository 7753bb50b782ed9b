import Mil.Proofs.Ty.Renaming
import Mil.Proofs.Ty.Unify

/-!
Quantified types and their instances. Schemes, block types and allocation types are lists of types
under one quantifier. An instance puts types in place of the quantified variables; a fresh instance
and the type that was generalised are instances, equality up to renaming keeps the instances, and
matching succeeds on every instance.
-/

namespace Mil

namespace Ty

variable {n lo hi : Nat} {t : Ty}

/-! ### Equality -/

mutual

theorem beq_iff_eq : (a b : Ty) → (beq a b = true ↔ a = b)
  | .var v, b => by cases b <;> simp [beq]
  | .gen m, b => by cases b <;> simp [beq]
  | .con c, b => by cases b <;> simp [beq]
  | .nat m, b => by cases b <;> simp [beq]
  | .ap f x, b => by
    cases b with
    | ap g y => rw [beq, Bool.and_eq_true, beq_iff_eq f g, beq_iff_eq x y, ap.injEq]
    | _ => simp [beq]
  | .tuple ts, b => by
    cases b with
    | tuple us => rw [beq, beqList_iff_eq ts us, tuple.injEq]
    | _ => simp [beq]

theorem beqList_iff_eq : (as bs : List Ty) → (beqList as bs = true ↔ as = bs)
  | [], bs => by cases bs <;> simp [beqList]
  | a :: as, bs => by
    cases bs with
    | nil => simp [beqList]
    | cons b bs => rw [beqList, Bool.and_eq_true, beq_iff_eq a b, beqList_iff_eq as bs, List.cons.injEq]

end

instance : LawfulBEq Ty where
  rfl {a} := (beq_iff_eq a a).mpr rfl
  eq_of_beq {a b} h := (beq_iff_eq a b).mp h

/-! ### Types in place of quantified variables -/

/-- Reading an instance is taking the instance at what was read. -/
theorem Closed.mapVars_instantiate {types : List Ty} (h : t.Closed n) (hn : n ≤ types.length)
    (θ : Nat → Ty) :
    (t.instantiate types).mapVars θ = t.instantiate (types.map fun u => u.mapVars θ) := by
  rw [Ty.mapVars, instantiate, subst_subst]
  refine subst_congr fun x hx => ?_
  cases x with
  | var v => exact absurd hx (h.not_var v)
  | gen m =>
      have hm : m < types.length := Nat.lt_of_lt_of_le (h.gen hx) hn
      simp only [Leaf.subst, List.getElem?_map, List.getElem?_eq_getElem hm]
      rfl

theorem Closed.within_instantiate {types : List Ty} (h : t.Closed n) (hn : n ≤ types.length)
    (htypes : ∀ u ∈ types, u.Within lo hi) : (t.instantiate types).Within lo hi := by
  intro x hx
  obtain ⟨y, hy, hx⟩ := occurs_subst.mp hx
  cases y with
  | var v => exact absurd hy (h.not_var v)
  | gen m =>
      have hm : m < types.length := Nat.lt_of_lt_of_le (h.gen hy) hn
      rw [Leaf.subst, List.getElem?_eq_getElem hm, Option.getD_some] at hx
      exact htypes _ (List.getElem_mem hm) x hx

/-- Generalising over all variables and then putting types in their place reads the type. -/
theorem instantiate_generalize {vars : List Nat} (h : ∀ m, ¬ Occurs (.gen m) t)
    (hvars : ∀ v, Occurs (.var v) t → v ∈ vars) (θ : Nat → Ty) :
    (t.generalize vars).instantiate (vars.map θ) = t.mapVars θ := by
  rw [generalize, instantiate, Ty.mapVars, Ty.mapVars, subst_subst]
  refine subst_congr fun x hx => ?_
  cases x with
  | var v =>
      have hv := hvars v hx
      have hlt : vars.idxOf v < vars.length := List.idxOf_lt_length_iff.mpr hv
      simp only [Leaf.subst, if_pos hv, subst_gen, List.getElem?_map,
        List.getElem?_eq_getElem hlt, List.getElem_idxOf]
      rfl
  | gen m => exact absurd hx (h m)

theorem closed_generalize {vars : List Nat} (h : ∀ m, ¬ Occurs (.gen m) t)
    (hvars : ∀ v, Occurs (.var v) t → v ∈ vars) : (t.generalize vars).Closed vars.length := by
  intro x hx
  rcases occurs_mapVars.mp hx with ⟨v, hv, hx⟩ | ⟨m, hm, -⟩
  · rw [if_pos (hvars v hv), occurs_gen] at hx
    exact ⟨_, List.idxOf_lt_length_iff.mpr (hvars v hv), hx⟩
  · exact absurd hm (h m)

theorem Closed.resolve (h : t.Closed n) (s : Store) : s.resolve t = t := by
  unfold Store.resolve
  cases s.cells.size with
  | zero => rfl
  | succ fuel => exact h.mapVars _

/-! ### Matching -/

/-- The slots that are filled hold the given types. -/
def AgreesWith (slots : Slots) (types : List Ty) : Prop :=
  slots.length = types.length ∧
    ∀ (m : Nat) (u : Ty), slots[m]? = some (some u) → types[m]? = some u

theorem agreesWith_ofKinds {kinds : List Kind} {types : List Ty}
    (h : types.length = kinds.length) : AgreesWith (Slots.ofKinds kinds) types := by
  refine ⟨by rw [Slots.ofKinds, List.length_map, h], fun m u hu => ?_⟩
  rw [Slots.ofKinds, List.getElem?_map, Option.map_eq_some_iff] at hu
  obtain ⟨k, -, hk⟩ := hu
  cases hk

theorem AgreesWith.set {slots : Slots} {types : List Ty} (h : AgreesWith slots types) {m : Nat}
    {u : Ty} (hm : types[m]? = some u) : AgreesWith (slots.set m (some u)) types := by
  refine ⟨by rw [List.length_set, h.1], fun k w hw => ?_⟩
  rw [List.getElem?_set] at hw
  split at hw
  · rename_i hk
    split at hw
    · cases hw
      exact hk ▸ hm
    · cases hw
  · exact h.2 k w hw

/-- Matching a list goes well if it goes well for the elements. -/
theorem matchList_instantiate {types : List Ty} (ps : List Ty)
    (hps : ∀ p ∈ ps, ∀ slots, AgreesWith slots types →
      ∃ slots', matchInto p (p.instantiate types) slots = (true, slots') ∧ AgreesWith slots' types)
    {slots : Slots} (h : AgreesWith slots types) :
    ∃ slots', matchList ps (ps.map (instantiate types)) slots = (true, slots') ∧
      AgreesWith slots' types := by
  induction ps generalizing slots with
  | nil => exact ⟨slots, rfl, h⟩
  | cons p ps ih =>
      obtain ⟨slots₁, hp, h₁⟩ := hps p (.head _) slots h
      obtain ⟨slots₂, hps', h₂⟩ := ih (fun p hp => hps p (.tail _ hp)) h₁
      exact ⟨slots₂, by rw [List.map_cons, matchList, hp]; exact hps', h₂⟩

/-- Matching a pattern against its instance succeeds and fills slots with the types it was taken
at. -/
theorem matchInto_instantiate {types : List Ty} (ht : ∀ m, Occurs (.gen m) t → m < types.length)
    {slots : Slots} (h : AgreesWith slots types) :
    ∃ slots', matchInto t (t.instantiate types) slots = (true, slots') ∧
      AgreesWith slots' types := by
  induction t generalizing slots with
  | var v => exact ⟨slots, by simp [instantiate, matchInto], h⟩
  | gen m =>
      have hm : m < types.length := ht m .leaf
      have hget : types[m]? = some types[m] := List.getElem?_eq_getElem hm
      have hinst : (Ty.gen m).instantiate types = types[m] := by
        rw [instantiate, subst_gen, hget, Option.getD_some]
      rw [hinst, matchInto]
      have hlt : m < slots.length := h.1 ▸ hm
      have hslot : slots[m]? = some slots[m] := List.getElem?_eq_getElem hlt
      cases hu : slots[m] with
      | none =>
          rw [hslot, hu]
          exact ⟨_, rfl, h.set hget⟩
      | some u =>
          have heq : types[m]? = some u := h.2 m u (by rw [hslot, hu])
          rw [hget] at heq
          cases heq
          rw [hslot, hu]
          exact ⟨slots, by simp, h⟩
  | con c => exact ⟨slots, by simp [instantiate, matchInto], h⟩
  | nat m => exact ⟨slots, by simp [instantiate, matchInto], h⟩
  | ap f a hf ha =>
      obtain ⟨slots₁, h₁, hs₁⟩ := hf (fun m hm => ht m (.fn hm)) h
      obtain ⟨slots₂, h₂, hs₂⟩ := ha (fun m hm => ht m (.arg hm)) hs₁
      refine ⟨slots₂, ?_, hs₂⟩
      have hinst : (ap f a).instantiate types = .ap (f.instantiate types) (a.instantiate types) :=
        subst_ap ..
      rw [hinst, matchInto, h₁]
      exact h₂
  | tuple ts ih =>
      obtain ⟨slots', h', hs'⟩ := matchList_instantiate ts
        (fun t ht' slots hs => ih t ht' (fun m hm => ht m (.elem ht' hm)) hs) h
      refine ⟨slots', ?_, hs'⟩
      have hinst : (tuple ts).instantiate types = .tuple (ts.map (instantiate types)) :=
        subst_tuple ..
      rw [hinst, matchInto, if_neg (by simp)]
      exact h'

theorem matchList_append {ps ts qs us : List Ty} {slots : Slots} (hlen : ps.length = ts.length) :
    matchList (ps ++ qs) (ts ++ us) slots =
      match matchList ps ts slots with
      | (true, slots) => matchList qs us slots
      | r => r := by
  induction ps generalizing ts slots with
  | nil =>
      obtain rfl : ts = [] := List.eq_nil_of_length_eq_zero hlen.symm
      rfl
  | cons p ps ih =>
      cases ts with
      | nil => cases hlen
      | cons t ts =>
          rw [List.cons_append, List.cons_append, matchList, matchList]
          generalize matchInto p t slots = r
          obtain ⟨ok, slots₁⟩ := r
          cases ok with
          | false => rfl
          | true => exact ih (Nat.succ.inj hlen)

theorem matchList_singleton (p t : Ty) (slots : Slots) :
    matchList [p] [t] slots = matchInto p t slots := by
  rw [matchList]
  generalize matchInto p t slots = r
  obtain ⟨ok, slots₁⟩ := r
  cases ok <;> rfl

/-- Closed types that are equal up to renaming have the same instances. -/
theorem exists_instantiate_of_rename {as bs : List Ty} {n : Nat} {m : Renaming}
    (h : renameList? as bs .empty = some m) (hb : ∀ b ∈ bs, b.Closed n) (types : List Ty) :
    ∃ types' : List Ty, types'.length = n ∧
      as.map (instantiate types) = bs.map (instantiate types') := by
  obtain ⟨f, g, hren⟩ : ∃ f g, Relabels f g bs as := by
    obtain ⟨f, g, hren⟩ := isSome_renameList?_iff.mp (Option.isSome_iff_exists.mpr ⟨m, h⟩)
    exact ⟨_, _, hren.symm⟩
  refine ⟨(List.range n).map fun k => (types[g k]?).getD (.gen (g k)), by simp, ?_⟩
  rw [← hren.turns, List.map_map]
  refine List.map_congr_left fun b hb' => ?_
  rw [Function.comp_apply, instantiate, relabel, subst_subst]
  refine subst_congr fun x hx => ?_
  cases x with
  | var v => exact absurd hx ((hb b hb').not_var v)
  | gen k =>
      have hk : k < n := (hb b hb').gen hx
      simp only [Leaf.subst, subst_gen, List.getElem?_map, List.getElem?_range hk]
      rfl

end Ty

/-! ### Lists of types under one quantifier -/

/-- The type of a scheme. -/
def Scheme.parts (c : Scheme) : List Ty := [c.type]

/-- The domain and the range of a block type. -/
def BlockType.parts (b : BlockType) : List Ty := [b.dom, b.rng]

/-- The fields and the result of an allocation type. -/
def AllocType.parts (a : AllocType) : List Ty := a.stored ++ [a.result]

theorem AllocType.parts_mapTypes (f : Ty → Ty) (a : AllocType) :
    (a.mapTypes f).parts = a.parts.map f := by
  simp [parts, mapTypes]

/-- All types of a list are closed under a quantifier over `n` variables. -/
def ClosedUnder (n : Nat) (ts : List Ty) : Prop := ∀ t ∈ ts, t.Closed n

theorem closedUnder_map_resolve {n : Nat} {ts : List Ty} (h : ClosedUnder n ts) (s : Store) :
    ts.map s.resolve = ts :=
  (List.map_congr_left fun t ht => (h t ht).resolve s).trans (List.map_id' _)

/-- All types of a list are over the variables of the store from `lo` on. -/
def Store.Fits (s : Store) (lo : Nat) (ts : List Ty) : Prop := ∀ t ∈ ts, t.Within lo s.cells.size

/-- The types of `inst` are over the variables of the store, and for every solution of it they are
the types of `parts` with some types in place of the quantified variables. -/
structure Store.IsInstance (s : Store) (kinds : List Kind) (parts inst : List Ty) : Prop where
  fits : s.Fits 0 inst
  solved : ∀ θ, s.Solves θ → ∃ types : List Ty, types.length = kinds.length ∧
    inst.map (fun t => t.mapVars θ) = parts.map (Ty.instantiate types)

namespace Store

variable {s s' : Store} {lo : Nat} {kinds : List Kind} {parts inst : List Ty}

theorem Refines.fits (h : s.Refines lo s') {ts : List Ty} (ht : s.Fits lo ts) : s'.Fits lo ts :=
  fun t hmem => h.within (ht t hmem)

theorem IsInstance.of_extends (h : s.IsInstance kinds parts inst) (hs : s.Extends s') :
    s'.IsInstance kinds parts inst :=
  ⟨fun t ht => (h.fits t ht).mono (Nat.le_refl _) hs.size_le,
    fun θ hθ => h.solved θ (hθ.of_extends hs)⟩

/-- Fresh variables are unbound variables of the new store. -/
theorem freshAll_spec (h : s.Regular lo) (kinds : List Kind) :
    s.Refines lo (s.freshAll kinds).2 ∧ (s.freshAll kinds).1.length = kinds.length ∧
      (s.freshAll kinds).2.Fits lo (s.freshAll kinds).1 := by
  induction kinds generalizing s with
  | nil => exact ⟨.refl h, rfl, fun t ht => absurd ht List.not_mem_nil⟩
  | cons k kinds ih =>
      obtain ⟨href, hlen, hfit⟩ := ih (h.fresh k)
      refine ⟨(Refines.fresh h k).trans href, congrArg (· + 1) hlen, fun t ht => ?_⟩
      rcases List.mem_cons.mp ht with rfl | ht
      · refine href.within (Ty.within_var.mpr ⟨h.le_size, ?_⟩)
        rw [size_fresh]
        omega
      · exact hfit t ht

theorem fits_instantiate {types : List Ty} (h : ClosedUnder kinds.length parts)
    (hlen : types.length = kinds.length) (htypes : s.Fits lo types) :
    s.Fits lo (parts.map (Ty.instantiate types)) := by
  intro t ht
  obtain ⟨p, hp, rfl⟩ := List.mem_map.mp ht
  exact (h p hp).within_instantiate hlen.ge htypes

/-- Putting fresh variables in place of the quantified ones gives an instance. -/
theorem isInstance_instantiate {types : List Ty} (h : ClosedUnder kinds.length parts)
    (hlen : types.length = kinds.length) (htypes : s.Fits lo types) :
    s.IsInstance kinds parts (parts.map (Ty.instantiate types)) := by
  refine ⟨fun t ht => (fits_instantiate h hlen htypes t ht).mono (Nat.zero_le _) (Nat.le_refl _),
    fun θ _ => ?_⟩
  refine ⟨types.map fun t => t.mapVars θ, by rw [List.length_map, hlen], ?_⟩
  rw [List.map_map]
  exact List.map_congr_left fun t ht => (h t ht).mapVars_instantiate hlen.ge θ

/-- Every list of types is an instance of what it was generalised to. -/
theorem isInstance_generalize {vars : List Nat} (hs : s.Regular lo) (h : s.Fits lo inst)
    (hlen : kinds.length = vars.length)
    (hvars : ∀ t ∈ inst, ∀ v, Ty.Occurs (.var v) (s.resolve t) → v ∈ vars) :
    s.IsInstance kinds (inst.map fun t => (s.resolve t).generalize vars) inst := by
  refine ⟨fun t ht => (h t ht).mono (Nat.zero_le _) (Nat.le_refl _), fun θ hθ => ?_⟩
  refine ⟨vars.map θ, by rw [List.length_map, hlen], ?_⟩
  rw [List.map_map]
  refine List.map_congr_left fun t ht => ?_
  rw [← hθ.resolve t]
  exact (Ty.instantiate_generalize (hs.resolve_within (h t ht)).not_gen (hvars t ht) θ).symm

theorem closedUnder_generalize {vars : List Nat} (hs : s.Regular lo) (h : s.Fits lo inst)
    (hvars : ∀ t ∈ inst, ∀ v, Ty.Occurs (.var v) (s.resolve t) → v ∈ vars) :
    ClosedUnder vars.length (inst.map fun t => (s.resolve t).generalize vars) := by
  intro u hu
  obtain ⟨t, ht, rfl⟩ := List.mem_map.mp hu
  exact Ty.closed_generalize (hs.resolve_within (h t ht)).not_gen (hvars t ht)

/-- Every instance of what types were generalised to is how some solution reads them. -/
theorem exists_solution {vars : List Nat} {types : List Ty} (hs : s.Regular lo)
    (h : s.Fits lo inst) (hnodup : vars.Nodup) (hlen : types.length = vars.length)
    (hvars : ∀ t ∈ inst, ∀ v, Ty.Occurs (.var v) (s.resolve t) → v ∈ vars) :
    ∃ θ, s.Solves θ ∧ inst.map (fun t => t.mapVars θ) =
      (inst.map fun t => (s.resolve t).generalize vars).map (Ty.instantiate types) := by
  let η : Nat → Ty := fun v => (types[vars.idxOf v]?).getD (.var v)
  have hη : vars.map η = types := by
    refine List.ext_getElem (by rw [List.length_map, hlen]) fun n hn hn' => ?_
    rw [List.length_map] at hn
    simp only [List.getElem_map, η, hnodup.idxOf_getElem n hn, List.getElem?_eq_getElem hn',
      Option.getD_some]
  refine ⟨fun v => (s.reading v).mapVars η, fun v b hb => ?_, ?_⟩
  · dsimp only
    rw [hs.reading_of_some hb, Ty.mapVars_mapVars]
  · rw [List.map_map]
    refine List.map_congr_left fun t ht => ?_
    rw [Function.comp_apply, ← hη,
      Ty.instantiate_generalize (hs.resolve_within (h t ht)).not_gen (hvars t ht) η, hs.resolve_eq,
      Ty.mapVars_mapVars]

/-- Equality up to renaming keeps the instances. -/
theorem IsInstance.rename {kinds' : List Kind} {parts' : List Ty} {m : Renaming}
    (h : s.IsInstance kinds parts inst) (hk : kinds'.length = kinds.length)
    (hc' : ClosedUnder kinds'.length parts')
    (hm : Ty.renameList? parts parts' .empty = some m) : s.IsInstance kinds' parts' inst := by
  refine ⟨h.fits, fun θ hθ => ?_⟩
  obtain ⟨types, -, heq⟩ := h.solved θ hθ
  obtain ⟨types', hlen', heq'⟩ := Ty.exists_instantiate_of_rename hm (hk ▸ hc') types
  exact ⟨types', hlen'.trans hk.symm, heq.trans heq'⟩

/-- Matching succeeds on an instance that is read through the store. -/
theorem IsInstance.matchList (h : s.IsInstance kinds parts inst) (hs : s.Regular lo)
    (hc : ClosedUnder kinds.length parts) :
    ∃ slots, Ty.matchList (parts.map s.resolve) (inst.map s.resolve) (Slots.ofKinds kinds) =
      (true, slots) := by
  obtain ⟨types, hlen, heq⟩ := h.solved s.reading hs.solves_reading
  have hparts : parts.map s.resolve = parts := closedUnder_map_resolve hc s
  have hinst : inst.map s.resolve = parts.map (Ty.instantiate types) :=
    (List.map_congr_left fun t _ => hs.resolve_eq t).trans heq
  rw [hparts, hinst]
  obtain ⟨slots, hslots, -⟩ := Ty.matchList_instantiate parts
    (fun p hp slots hag => Ty.matchInto_instantiate (fun m hm => hlen ▸ (hc p hp).gen hm) hag)
    (Ty.agreesWith_ofKinds hlen)
  exact ⟨slots, hslots⟩

end Store

section Quantified

variable {s : Store} {lo : Nat}

open Ty (Occurs)

/-- What a fresh instance of a quantified type is. -/
structure Store.FreshInstance (lo : Nat) (s s' : Store) (kinds : List Kind)
    (parts inst : List Ty) : Prop where
  refines : s.Refines lo s'
  fits : s'.Fits lo inst
  isInstance : s'.IsInstance kinds parts inst

theorem Store.freshInstance {kinds : List Kind} {parts : List Ty} (h : s.Regular lo)
    (hc : ClosedUnder kinds.length parts) :
    s.FreshInstance lo (s.freshAll kinds).2 kinds parts
      (parts.map fun t => ((s.freshAll kinds).2.resolve t).instantiate (s.freshAll kinds).1) := by
  obtain ⟨href, hlen, hfit⟩ := Store.freshAll_spec h kinds
  have hparts : (parts.map fun t =>
      ((s.freshAll kinds).2.resolve t).instantiate (s.freshAll kinds).1) =
      parts.map (Ty.instantiate (s.freshAll kinds).1) :=
    List.map_congr_left fun t ht => by rw [(hc t ht).resolve]
  rw [hparts]
  exact ⟨href, Store.fits_instantiate hc hlen hfit, Store.isInstance_instantiate hc hlen hfit⟩

/-- Closed types are renamed as they are, since nothing in them is bound. -/
theorem renames_of_test {kinds kinds' : List Kind} {as bs : List Ty} (ha : ClosedUnder kinds.length as)
    (hb : ClosedUnder kinds'.length bs)
    (h : (kinds.length = kinds'.length &&
      (Ty.renameList? (as.map s.resolve) (bs.map s.resolve) .empty).isSome) = true) :
    kinds'.length = kinds.length ∧ ∃ m, Ty.renameList? as bs .empty = some m := by
  rw [closedUnder_map_resolve ha, closedUnder_map_resolve hb, Bool.and_eq_true, decide_eq_true_iff,
    Option.isSome_iff_exists] at h
  exact ⟨h.1.symm, h.2⟩

namespace Scheme

theorem instantiate_spec (c : Scheme) (h : s.Regular lo) (hc : ClosedUnder c.kinds.length c.parts) :
    s.FreshInstance lo (c.instantiate s).2 c.kinds c.parts [(c.instantiate s).1] :=
  Store.freshInstance h hc

theorem parts_generalize (t : Ty) (vars : List Nat) :
    (Scheme.generalize s t vars).parts = [t].map fun t => (s.resolve t).generalize vars := rfl

theorem length_kinds_generalize (t : Ty) (vars : List Nat) :
    (Scheme.generalize s t vars).kinds.length = vars.length := List.length_map ..

theorem alphaEquiv_eq (a b : Scheme) : a.alphaEquiv s b = (a.kinds.length = b.kinds.length &&
    (Ty.renameList? (a.parts.map s.resolve) (b.parts.map s.resolve) .empty).isSome) := by
  rw [parts, parts, List.map_singleton, List.map_singleton, Ty.renameList?_singleton]
  rfl

theorem rename_of_alphaEquiv {a b : Scheme} (h : a.alphaEquiv s b = true)
    (ha : ClosedUnder a.kinds.length a.parts) (hb : ClosedUnder b.kinds.length b.parts) :
    b.kinds.length = a.kinds.length ∧ ∃ m, Ty.renameList? a.parts b.parts .empty = some m := by
  rw [alphaEquiv_eq] at h
  exact renames_of_test ha hb h

end Scheme

namespace BlockType

theorem instantiate_spec (b : BlockType) (h : s.Regular lo)
    (hc : ClosedUnder b.kinds.length b.parts) :
    s.FreshInstance lo (b.instantiate s).2 b.kinds b.parts (b.instantiate s).1.parts :=
  Store.freshInstance h hc

theorem parts_generalize (b : BlockType) (vars : List Nat) :
    (b.generalize s vars).parts = b.parts.map fun t => (s.resolve t).generalize vars := rfl

theorem length_kinds_generalize (b : BlockType) (vars : List Nat) :
    (b.generalize s vars).kinds.length = vars.length := List.length_map ..

theorem mem_addVars {b : BlockType} {acc : List Nat} {v : Nat} :
    v ∈ b.addVars s acc ↔ v ∈ acc ∨ ∃ t ∈ b.parts, Occurs (.var v) (s.resolve t) := by
  rw [addVars, Store.addVars, Ty.mem_addVars, Store.addVars, Ty.mem_addVars]
  simp [parts, or_assoc]

theorem nodup_addVars (b : BlockType) {acc : List Nat} (h : acc.Nodup) :
    (b.addVars s acc).Nodup :=
  Ty.nodup_addVars (Ty.nodup_addVars h)

theorem alphaEquiv_eq (a b : BlockType) : a.alphaEquiv s b = (a.kinds.length = b.kinds.length &&
    (Ty.renameList? (a.parts.map s.resolve) (b.parts.map s.resolve) .empty).isSome) := by
  rw [alphaEquiv, ← Ty.renameList?_singleton, ← Ty.renameList?_concat]
  rfl

theorem rename_of_alphaEquiv {a b : BlockType} (h : a.alphaEquiv s b = true)
    (ha : ClosedUnder a.kinds.length a.parts) (hb : ClosedUnder b.kinds.length b.parts) :
    b.kinds.length = a.kinds.length ∧ ∃ m, Ty.renameList? a.parts b.parts .empty = some m := by
  rw [alphaEquiv_eq] at h
  exact renames_of_test ha hb h

/-- To match block types is to match the lists of their parts. -/
theorem matchInto_eq (b inst : BlockType) (slots : Slots) :
    b.matchInto s inst slots =
      Ty.matchList (b.parts.map s.resolve) (inst.parts.map s.resolve) slots := by
  rw [parts, parts, List.map_cons, List.map_cons, List.map_cons, List.map_cons, Ty.matchList,
    matchInto, Store.matchInto]
  generalize (s.resolve b.dom).matchInto (s.resolve inst.dom) slots = r
  obtain ⟨ok, slots₁⟩ := r
  cases ok with
  | false => rfl
  | true => exact (Ty.matchList_singleton ..).symm

theorem matchInto_of_isInstance {b inst : BlockType} (hs : s.Regular lo)
    (hc : ClosedUnder b.kinds.length b.parts) (h : s.IsInstance b.kinds b.parts inst.parts) :
    (b.matchInto s inst (Slots.ofKinds b.kinds)).1 = true := by
  obtain ⟨slots, hm⟩ := h.matchList hs hc
  rw [matchInto_eq, hm]

end BlockType

namespace AllocType

theorem instantiate_spec (a : AllocType) (h : s.Regular lo)
    (hc : ClosedUnder a.kinds.length a.parts) :
    s.FreshInstance lo (a.instantiate s).2 a.kinds a.parts (a.instantiate s).1.parts := by
  rw [show (a.instantiate s).1.parts = _ from parts_mapTypes _ a]
  exact Store.freshInstance h hc

theorem parts_generalize (a : AllocType) (vars : List Nat) :
    (a.generalize s vars).parts = a.parts.map fun t => (s.resolve t).generalize vars :=
  parts_mapTypes ..

theorem length_kinds_generalize (a : AllocType) (vars : List Nat) :
    (a.generalize s vars).kinds.length = vars.length := List.length_map ..

theorem mem_addVars {a : AllocType} {acc : List Nat} {v : Nat} :
    v ∈ a.addVars s acc ↔ v ∈ acc ∨ ∃ t ∈ a.parts, Occurs (.var v) (s.resolve t) := by
  have hstored (ts : List Ty) (acc : List Nat) :
      v ∈ ts.foldl (fun acc t => s.addVars t acc) acc ↔
        v ∈ acc ∨ ∃ t ∈ ts, Occurs (.var v) (s.resolve t) := by
    induction ts generalizing acc with
    | nil => simp
    | cons t ts ih =>
        rw [List.foldl_cons, ih, Store.addVars, Ty.mem_addVars]
        simp [or_assoc]
  rw [addVars, Store.addVars, Ty.mem_addVars, hstored]
  simp [parts, or_assoc, or_and_right, exists_or]

theorem nodup_addVars (a : AllocType) {acc : List Nat} (h : acc.Nodup) :
    (a.addVars s acc).Nodup := by
  have hstored (ts : List Ty) (acc : List Nat) (h : acc.Nodup) :
      (ts.foldl (fun acc t => s.addVars t acc) acc).Nodup := by
    induction ts generalizing acc with
    | nil => exact h
    | cons t ts ih => exact ih _ (Ty.nodup_addVars h)
  exact Ty.nodup_addVars (hstored a.stored acc h)

theorem alphaEquiv_eq (a b : AllocType) : a.alphaEquiv s b = (a.kinds.length = b.kinds.length &&
    (Ty.renameList? (a.parts.map s.resolve) (b.parts.map s.resolve) .empty).isSome) := by
  rw [alphaEquiv, ← Ty.renameList?_concat, parts, parts, List.map_append, List.map_append]
  rfl

theorem rename_of_alphaEquiv {a b : AllocType} (h : a.alphaEquiv s b = true)
    (ha : ClosedUnder a.kinds.length a.parts) (hb : ClosedUnder b.kinds.length b.parts) :
    b.kinds.length = a.kinds.length ∧ ∃ m, Ty.renameList? a.parts b.parts .empty = some m := by
  rw [alphaEquiv_eq] at h
  exact renames_of_test ha hb h

/-- To match allocation types of one number of fields is to match the lists of their parts. -/
theorem matchInto_eq {a inst : AllocType} (hlen : a.stored.length = inst.stored.length)
    (slots : Slots) :
    a.matchInto s inst slots =
      Ty.matchList (a.parts.map s.resolve) (inst.parts.map s.resolve) slots := by
  rw [matchInto, if_neg (not_not.mpr hlen), parts, parts, List.map_append, List.map_append,
    Ty.matchList_append (by simpa using hlen)]
  generalize Ty.matchList (a.stored.map s.resolve) (inst.stored.map s.resolve) slots = r
  obtain ⟨ok, slots₁⟩ := r
  cases ok with
  | false => rfl
  | true => exact (Ty.matchList_singleton ..).symm

theorem length_stored_of_matchInto {a inst : AllocType} {slots : Slots}
    (h : (a.matchInto s inst slots).1 = true) : a.stored.length = inst.stored.length := by
  by_contra hlen
  rw [matchInto, if_pos hlen] at h
  cases h

theorem matchInto_of_isInstance {a inst : AllocType} (hs : s.Regular lo)
    (hc : ClosedUnder a.kinds.length a.parts) (h : s.IsInstance a.kinds a.parts inst.parts) :
    (a.matchInto s inst (Slots.ofKinds a.kinds)).1 = true := by
  obtain ⟨types, -, heq⟩ := h.solved s.reading hs.solves_reading
  have hlen : a.stored.length = inst.stored.length := by
    have := congrArg List.length heq
    simp [parts] at this
    omega
  obtain ⟨slots, hm⟩ := h.matchList hs hc
  rw [matchInto_eq hlen, hm]

end AllocType

theorem Store.matchInto_eq (p t : Ty) (slots : Slots) :
    s.matchInto p t slots = Ty.matchList ([p].map s.resolve) ([t].map s.resolve) slots :=
  (Ty.matchList_singleton ..).symm

theorem Scheme.matchInto_of_isInstance {c : Scheme} {t : Ty} (hs : s.Regular lo)
    (hc : ClosedUnder c.kinds.length c.parts) (h : s.IsInstance c.kinds c.parts [t]) :
    (s.matchInto c.type t (Slots.ofKinds c.kinds)).1 = true := by
  obtain ⟨slots, hm⟩ := h.matchList hs hc
  rw [Store.matchInto_eq]
  exact congrArg Prod.fst hm

end Quantified

end Mil
