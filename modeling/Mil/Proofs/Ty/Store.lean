import Mathlib.Data.Finset.Card
import Mathlib.Data.Finset.Range
import Mil.Proofs.Ty.Subst

/-!
The store of variables as a system of equations. An assignment of types to variables solves a store
if every bound variable has the same type as its binding. A store that grows has fewer solutions, so
what holds of all solutions of a store holds of all solutions of every later one. If bindings do not
go round in circles, then reading types through the bindings is itself a solution, and the fuel of
`resolve` is never used up.
-/

namespace Mil

namespace Store

open Ty (Occurs)

variable {s s' : Store} {v w : Nat} {t b : Ty}

theorem binding?_eq_none_of_size_le (h : s.cells.size ≤ v) : s.binding? v = none := by
  rw [binding?, Array.getElem?_eq_none h]
  rfl

theorem lt_size_of_binding? (h : s.binding? v = some b) : v < s.cells.size := by
  by_contra hv
  rw [binding?_eq_none_of_size_le (by omega)] at h
  cases h

@[simp] theorem size_bind : (s.bind v t).cells.size = s.cells.size := by
  simp [bind]

theorem binding?_bind (hv : v < s.cells.size) :
    (s.bind v t).binding? w = if w = v then some t else s.binding? w := by
  rw [binding?, bind, Array.getElem?_modify]
  by_cases h : w = v
  · subst h
    rw [if_pos rfl, if_pos rfl, Array.getElem?_eq_getElem hv]
    rfl
  · rw [if_neg (Ne.symm h), if_neg h]
    rfl

@[simp] theorem kindOf_bind : (s.bind v t).kindOf w = s.kindOf w := by
  rw [kindOf, bind, Array.getElem?_modify]
  split
  · subst_vars
    rw [Option.map_map]
    rfl
  · rfl

@[simp] theorem size_fresh (k : Kind) : (s.fresh k).2.cells.size = s.cells.size + 1 := by
  simp [fresh]

@[simp] theorem binding?_fresh (k : Kind) : (s.fresh k).2.binding? v = s.binding? v := by
  by_cases hv : v = s.cells.size
  · subst hv
    rw [binding?_eq_none_of_size_le (Nat.le_refl _)]
    simp [fresh, binding?]
  · simp only [fresh, binding?, Array.getElem?_push]
    rw [if_neg hv]

theorem kindOf_fresh (k : Kind) (hv : v < s.cells.size) : (s.fresh k).2.kindOf v = s.kindOf v := by
  simp only [fresh, kindOf, Array.getElem?_push]
  rw [if_neg (by omega)]

/-! ### Solutions -/

/-- Every bound variable has the type of its binding. -/
def Solves (s : Store) (θ : Nat → Ty) : Prop :=
  ∀ v b, s.binding? v = some b → θ v = b.mapVars θ

/-- Bindings and kinds are kept, and no variable is lost. -/
structure Extends (s s' : Store) : Prop where
  size_le : s.cells.size ≤ s'.cells.size
  binding : ∀ {v b}, s.binding? v = some b → s'.binding? v = some b
  kind : ∀ {v}, v < s.cells.size → s'.kindOf v = s.kindOf v

theorem Extends.refl (s : Store) : s.Extends s := ⟨Nat.le_refl _, id, fun _ => rfl⟩

theorem Extends.trans {s₁ s₂ s₃ : Store} (h : s₁.Extends s₂) (h' : s₂.Extends s₃) :
    s₁.Extends s₃ :=
  ⟨Nat.le_trans h.size_le h'.size_le, fun hb => h'.binding (h.binding hb),
    fun hv => (h'.kind (Nat.lt_of_lt_of_le hv h.size_le)).trans (h.kind hv)⟩

theorem Solves.of_extends {θ : Nat → Ty} (h : s'.Solves θ) (hs : s.Extends s') : s.Solves θ :=
  fun v b hb => h v b (hs.binding hb)

theorem extends_fresh (k : Kind) : s.Extends (s.fresh k).2 :=
  ⟨by simp, fun h => by rwa [binding?_fresh], fun hv => kindOf_fresh k hv⟩

theorem extends_bind (hv : s.binding? v = none) (hlt : v < s.cells.size) :
    s.Extends (s.bind v t) := by
  refine ⟨by simp, fun {w b} h => ?_, fun _ => kindOf_bind⟩
  rw [binding?_bind hlt, if_neg]
  · exact h
  · rintro rfl
    rw [hv] at h
    cases h

/-- Reading a type through the bindings does not change it for a solution. -/
theorem Solves.resolveWith {θ : Nat → Ty} (h : s.Solves θ) (fuel : Nat) (t : Ty) :
    (s.resolveWith fuel t).mapVars θ = t.mapVars θ := by
  induction fuel generalizing t with
  | zero => rfl
  | succ fuel ih =>
      rw [Store.resolveWith, Ty.mapVars_mapVars]
      refine Ty.mapVars_congr fun v _ => ?_
      cases hv : s.binding? v with
      | none => exact Ty.mapVars_var θ v
      | some b => exact (ih b).trans (h v b hv).symm

theorem Solves.resolve {θ : Nat → Ty} (h : s.Solves θ) (t : Ty) :
    (s.resolve t).mapVars θ = t.mapVars θ :=
  h.resolveWith _ t

theorem Solves.pruneWith {θ : Nat → Ty} (h : s.Solves θ) (fuel : Nat) (t : Ty) :
    (s.pruneWith fuel t).mapVars θ = t.mapVars θ := by
  induction fuel generalizing t with
  | zero =>
      cases t <;> rfl
  | succ fuel ih =>
      cases t with
      | var v =>
          rw [Store.pruneWith]
          cases hv : s.binding? v with
          | none => rfl
          | some b => exact (ih b).trans ((h v b hv).symm.trans (Ty.mapVars_var θ v).symm)
      | _ => rfl

theorem Solves.prune {θ : Nat → Ty} (h : s.Solves θ) (t : Ty) :
    (s.prune t).mapVars θ = t.mapVars θ :=
  h.pruneWith _ t

/-! ### Stores without cycles -/

/-- The rank goes down from a bound variable to the variables of its binding. -/
def Descends (s : Store) (rank : Nat → Nat) : Prop :=
  ∀ v b, s.binding? v = some b → ∀ w, Occurs (.var w) b → rank w < rank v

/-- Bindings do not go round in circles. -/
def Ranked (s : Store) : Prop := ∃ rank, s.Descends rank

/-- Bindings hold variables of the store only and do not go round in circles, and those of the
variables from `lo` on hold none of the variables before `lo`. -/
structure Regular (lo : Nat) (s : Store) : Prop where
  le_size : lo ≤ s.cells.size
  within : ∀ v b, s.binding? v = some b → b.Within 0 s.cells.size
  above : ∀ v b, lo ≤ v → s.binding? v = some b → b.Within lo s.cells.size
  ranked : s.Ranked

/-- What a variable stands for. -/
def reading (s : Store) (v : Nat) : Ty := s.resolve (.var v)

/-- The number of bound variables of no higher rank. -/
def height (s : Store) (rank : Nat → Nat) (v : Nat) : Nat :=
  if (s.binding? v).isSome then
    ((Finset.range s.cells.size).filter fun w => (s.binding? w).isSome ∧ rank w ≤ rank v).card
  else 0

theorem height_le_size (rank : Nat → Nat) (v : Nat) : s.height rank v ≤ s.cells.size := by
  unfold height
  split
  · exact (Finset.card_filter_le _ _).trans (Finset.card_range _).le
  · exact Nat.zero_le _

theorem height_pos {rank : Nat → Nat} (h : s.binding? v = some b) : 0 < s.height rank v := by
  rw [height, if_pos (by rw [h]; rfl), Finset.card_pos]
  refine ⟨v, Finset.mem_filter.mpr ⟨Finset.mem_range.mpr (lt_size_of_binding? h), ?_, Nat.le_refl _⟩⟩
  rw [h]
  rfl

/-- Heights are ranks that are at most the size of the store, so the fuel of `resolve` is enough. -/
theorem Descends.height {rank : Nat → Nat} (h : s.Descends rank) : s.Descends (s.height rank) := by
  intro v b hb w hw
  by_cases hbound : (s.binding? w).isSome
  · have hlt : rank w < rank v := h v b hb w hw
    rw [Store.height, Store.height, if_pos hbound, if_pos (by rw [hb]; rfl)]
    refine Finset.card_lt_card (Finset.ssubset_iff_of_subset ?_ |>.mpr ⟨v, ?_, ?_⟩)
    · intro u hu
      obtain ⟨hu, hsome, hle⟩ := Finset.mem_filter.mp hu
      exact Finset.mem_filter.mpr ⟨hu, hsome, by omega⟩
    · have hv : v < s.cells.size := lt_size_of_binding? hb
      exact Finset.mem_filter.mpr ⟨Finset.mem_range.mpr hv, by rw [hb]; rfl, Nat.le_refl _⟩
    · intro hv
      have hle : rank v ≤ rank w := (Finset.mem_filter.mp hv).2.2
      omega
  · rw [Store.height, if_neg hbound]
    exact height_pos hb

theorem resolveWith_var_of_none (h : s.binding? v = none) (fuel : Nat) :
    s.resolveWith fuel (.var v) = .var v := by
  cases fuel with
  | zero => rfl
  | succ fuel => rw [resolveWith, Ty.mapVars_var, h]

theorem resolveWith_var_of_some (h : s.binding? v = some b) (fuel : Nat) :
    s.resolveWith (fuel + 1) (.var v) = s.resolveWith fuel b := by
  rw [resolveWith, Ty.mapVars_var, h]

theorem reading_of_none (h : s.binding? v = none) : s.reading v = .var v :=
  resolveWith_var_of_none h _

/-- Fuel for the ranks of the variables of a type is fuel enough. -/
theorem Descends.resolveWith {rank : Nat → Nat} (h : s.Descends rank)
    (hpos : ∀ v b, s.binding? v = some b → 0 < rank v) (fuel : Nat) (t : Ty)
    (ht : ∀ v, Occurs (.var v) t → rank v ≤ fuel) :
    s.resolveWith fuel t = t.mapVars fun v => s.resolveWith (rank v) (.var v) := by
  induction fuel using Nat.strong_induction_on generalizing t with
  | _ fuel ih =>
      cases fuel with
      | zero =>
          refine (Ty.mapVars_self t).symm.trans (Ty.mapVars_congr fun v hv => ?_)
          rw [Nat.le_zero.mp (ht v hv)]
          rfl
      | succ fuel =>
          rw [Store.resolveWith]
          refine Ty.mapVars_congr fun v hv => ?_
          cases hb : s.binding? v with
          | none => exact (resolveWith_var_of_none hb _).symm
          | some b =>
              have hle : rank v ≤ fuel + 1 := ht v hv
              obtain ⟨m, hm⟩ : ∃ m, rank v = m + 1 := ⟨rank v - 1, by have := hpos v b hb; omega⟩
              have hdown : ∀ w, Occurs (.var w) b → rank w ≤ m := fun w hw => by
                have := h v b hb w hw
                omega
              -- the fuel that is left and the rank less one are both enough for the binding
              rw [hm, resolveWith_var_of_some hb, ih m (by omega) b hdown]
              exact ih fuel (by omega) b fun w hw => by have := hdown w hw; omega

/-- To read a type is to read each of its variables. -/
theorem Ranked.resolve_eq (h : s.Ranked) (t : Ty) : s.resolve t = t.mapVars s.reading := by
  have ⟨rank, hrank⟩ := h
  have hpos : ∀ v b, s.binding? v = some b → 0 < s.height rank v := fun v b hb => height_pos hb
  have key : ∀ t, s.resolve t = t.mapVars fun v => s.resolveWith (s.height rank v) (.var v) :=
    fun t => hrank.height.resolveWith hpos _ t fun v _ => height_le_size rank v
  rw [key]
  refine Ty.mapVars_congr fun v _ => ?_
  rw [reading, key, Ty.mapVars_var]

theorem Ranked.reading_of_some (h : s.Ranked) (hb : s.binding? v = some b) :
    s.reading v = b.mapVars s.reading := by
  obtain ⟨n, hn⟩ : ∃ n, s.cells.size = n + 1 :=
    ⟨s.cells.size - 1, by have := lt_size_of_binding? hb; omega⟩
  have ⟨rank, hrank⟩ := h
  have hpos : ∀ v b, s.binding? v = some b → 0 < s.height rank v := fun v b hb => height_pos hb
  have hdown : ∀ w, Occurs (.var w) b → s.height rank w ≤ n := fun w hw => by
    have := hrank.height v b hb w hw
    have := height_le_size (s := s) rank v
    omega
  have hb' : s.reading v = s.resolveWith n b := by
    rw [reading, resolve, hn, resolveWith_var_of_some hb]
  rw [hb', hrank.height.resolveWith hpos n b hdown]
  refine Ty.mapVars_congr fun w _ => ?_
  have hw := hrank.height.resolveWith hpos s.cells.size (.var w) fun u _ => height_le_size rank u
  rw [Ty.mapVars_var] at hw
  exact hw.symm

/-- Reading through the bindings is a solution. -/
theorem Ranked.solves_reading (h : s.Ranked) : s.Solves s.reading :=
  fun _ _ hb => h.reading_of_some hb

/-- What has been read holds no bound variables. -/
theorem Ranked.unbound_of_occurs_reading (h : s.Ranked) (hw : Occurs (.var w) (s.reading v)) :
    s.binding? w = none := by
  have ⟨rank, hrank⟩ := h
  induction hn : rank v using Nat.strong_induction_on generalizing v with
  | _ n ih =>
      cases hb : s.binding? v with
      | none =>
          rw [reading_of_none hb, Ty.occurs_var] at hw
          cases hw
          exact hb
      | some b =>
          rw [h.reading_of_some hb] at hw
          rcases Ty.occurs_mapVars.mp hw with ⟨u, hu, hw⟩ | ⟨m, -, hm⟩
          · exact ih (rank u) (hn ▸ hrank v b hb u hu) hw rfl
          · cases hm

theorem Ranked.unbound_of_occurs (h : s.Ranked) (hw : Occurs (.var w) (s.resolve t)) :
    s.binding? w = none := by
  rw [h.resolve_eq] at hw
  rcases Ty.occurs_mapVars.mp hw with ⟨u, -, hw⟩ | ⟨m, -, hm⟩
  · exact h.unbound_of_occurs_reading hw
  · cases hm

section Regular

variable {lo : Nat}

theorem Regular.resolve_eq (h : s.Regular lo) (t : Ty) : s.resolve t = t.mapVars s.reading :=
  h.ranked.resolve_eq t

theorem Regular.reading_of_some (h : s.Regular lo) (hb : s.binding? v = some b) :
    s.reading v = b.mapVars s.reading :=
  h.ranked.reading_of_some hb

theorem Regular.solves_reading (h : s.Regular lo) : s.Solves s.reading :=
  h.ranked.solves_reading

theorem Regular.unbound_of_occurs (h : s.Regular lo) (hw : Occurs (.var w) (s.resolve t)) :
    s.binding? w = none :=
  h.ranked.unbound_of_occurs hw

/-- Reading a variable from `lo` on does not lead below `lo`. -/
theorem Regular.reading_within (h : s.Regular lo) (hlo : lo ≤ v) (hv : v < s.cells.size) :
    (s.reading v).Within lo s.cells.size := by
  obtain ⟨rank, hrank⟩ := h.ranked
  induction hn : rank v using Nat.strong_induction_on generalizing v with
  | _ n ih =>
      cases hb : s.binding? v with
      | none =>
          rw [reading_of_none hb]
          exact Ty.within_var.mpr ⟨hlo, hv⟩
      | some b =>
          rw [h.reading_of_some hb]
          have hw := h.above v b hlo hb
          refine hw.mapVars fun u hu => ?_
          obtain ⟨hlo', hu'⟩ := hw.var hu
          exact ih (rank u) (hn ▸ hrank v b hb u hu) hlo' hu' rfl

theorem Regular.resolve_within (h : s.Regular lo) (ht : t.Within lo s.cells.size) :
    (s.resolve t).Within lo s.cells.size := by
  rw [h.resolve_eq]
  refine ht.mapVars fun v hv => ?_
  obtain ⟨hlo, hv⟩ := ht.var hv
  exact h.reading_within hlo hv

/-- Once all variables so far are settled, the lower bound goes up to the size of the store. -/
theorem Regular.raise (h : s.Regular lo) : s.Regular s.cells.size where
  le_size := Nat.le_refl _
  within := h.within
  above v b hv hb := absurd (lt_size_of_binding? hb) (by omega)
  ranked := h.ranked

theorem Regular.lower (h : s.Regular lo) : s.Regular 0 where
  le_size := Nat.zero_le _
  within := h.within
  above v b _ hb := h.within v b hb
  ranked := h.ranked

/-- Variables that stay unbound keep the reading of a type as it is. -/
theorem Regular.resolve_eq_of_extends (h' : s'.Regular lo)
    (hs : s.Extends s') (ht : ∀ v, Occurs (.var v) (s.resolve t) → s'.binding? v = none) :
    s'.resolve t = s.resolve t := by
  rw [h'.resolve_eq, ← (h'.solves_reading.of_extends hs).resolve t]
  exact (Ty.mapVars_congr fun v hv => reading_of_none (ht v hv)).trans (Ty.mapVars_self _)

theorem mem_varsOf : v ∈ s.varsOf t ↔ Occurs (.var v) (s.resolve t) := by
  rw [varsOf, addVars, Ty.mem_addVars]
  simp

/-! ### Growth of a regular store -/

theorem regular_empty : Store.empty.Regular 0 where
  le_size := Nat.le_refl _
  within v b h := by simp [empty, binding?] at h
  above v b _ h := by simp [empty, binding?] at h
  ranked := ⟨fun _ => 0, fun v b h => by simp [empty, binding?] at h⟩

theorem Regular.fresh (h : s.Regular lo) (k : Kind) : (s.fresh k).2.Regular lo where
  le_size := by
    have := h.le_size
    simp only [size_fresh]
    omega
  within v b hb := by
    rw [binding?_fresh] at hb
    exact (h.within v b hb).mono (Nat.le_refl _) (by simp)
  above v b hv hb := by
    rw [binding?_fresh] at hb
    exact (h.above v b hv hb).mono (Nat.le_refl _) (by simp)
  ranked := by
    obtain ⟨rank, hrank⟩ := h.ranked
    refine ⟨rank, fun v b hb => ?_⟩
    rw [binding?_fresh] at hb
    exact hrank v b hb

/-- Binding a variable that does not occur in its type makes no circle. -/
theorem Ranked.bind (h : s.Ranked) (hv : s.binding? v = none) (hlt : v < s.cells.size)
    (hocc : ¬ Occurs (.var v) (s.resolve t)) : (s.bind v t).Ranked := by
  classical
  have ⟨rank₀, hrank₀⟩ := h
  have hrank : s.Descends (s.height rank₀) := hrank₀.height
  -- variables whose reading leads to `v` go above all others
  let lift (u : Nat) : Nat := if Occurs (.var v) (s.reading u) then s.cells.size + 1 else 0
  refine ⟨fun u => s.height rank₀ u + lift u, fun u b hb w hw => ?_⟩
  rw [binding?_bind hlt] at hb
  by_cases hu : u = v
  · rw [if_pos hu] at hb
    cases hb
    have hw' : lift w = 0 := if_neg fun hvw => hocc (by
      rw [h.resolve_eq]
      exact Ty.occurs_mapVars.mpr (.inl ⟨w, hw, hvw⟩))
    have hu' : lift u = s.cells.size + 1 := if_pos (by
      rw [hu, reading_of_none hv]
      exact .leaf)
    have := height_le_size (s := s) rank₀ w
    show s.height rank₀ w + lift w < s.height rank₀ u + lift u
    omega
  · rw [if_neg hu] at hb
    have hlt := hrank u b hb w hw
    have hle : lift w ≤ lift u := by
      by_cases hvw : Occurs (.var v) (s.reading w)
      · have hvu : Occurs (.var v) (s.reading u) := by
          rw [h.reading_of_some hb]
          exact Ty.occurs_mapVars.mpr (.inl ⟨w, hw, hvw⟩)
        exact Nat.le_of_eq ((if_pos hvw).trans (if_pos hvu).symm)
      · exact (if_neg hvw).trans_le (Nat.zero_le _)
    show s.height rank₀ w + lift w < s.height rank₀ u + lift u
    omega

/-- Binding a variable keeps a store regular if the variable does not occur in its type. -/
theorem Regular.bind (h : s.Regular lo) (hv : s.binding? v = none) (hlt : v < s.cells.size)
    (ht : t.Within lo s.cells.size) (hocc : ¬ Occurs (.var v) (s.resolve t)) : (s.bind v t).Regular lo where
  le_size := by
    rw [size_bind]
    exact h.le_size
  within w b hb := by
    rw [binding?_bind hlt] at hb
    rw [size_bind]
    split at hb
    · cases hb
      exact ht.mono (Nat.zero_le _) (Nat.le_refl _)
    · exact h.within w b hb
  above w b hw hb := by
    rw [binding?_bind hlt] at hb
    rw [size_bind]
    split at hb
    · cases hb
      exact ht
    · exact h.above w b hw hb
  ranked := h.ranked.bind hv hlt hocc

end Regular

end Store

end Mil
