import Mathlib.Algebra.GroupWithZero.Nat
import Mil.Proofs.Ty.Descent

/-!
Unification computes most general unifiers. The recursion of unification is given once more without a
number of steps, as a relation between a store, what is to be made equal in it, and the outcome. On a
store without cycles every such recursion is finite: the types on a path of the recursion get smaller
under every solution of the store, so no type comes twice, and there are no more types than symbols of
the two types and of all bindings. An outcome then says which solutions of the store make the types
equal: those of the store that is left, or none.
-/

namespace Mil

namespace Ty

variable {n : Nat} {t u f a : Ty} {ts : List Ty}

/-! ### Sizes and parts -/

theorem sizeList_eq_sum (ts : List Ty) : sizeList ts = (ts.map size).sum := by
  induction ts with
  | nil => rfl
  | cons t ts ih => rw [sizeList, ih, List.map_cons, List.sum_cons]

theorem size_lt_of_mem (ht : t ∈ ts) : t.size < (tuple ts).size := by
  obtain ⟨us, vs, rfl⟩ := List.append_of_mem ht
  rw [size, sizeList_eq_sum, List.map_append, List.sum_append, List.map_cons, List.sum_cons]
  omega

theorem size_le_of_occurs (θ : Nat → Ty) {v : Nat} (hv : Occurs (.var v) t) :
    (θ v).size ≤ (t.mapVars θ).size := by
  induction t with
  | var w =>
      cases occurs_var.mp hv
      rw [mapVars_var]
  | gen => cases occurs_gen.mp hv
  | con => exact absurd hv not_occurs_con
  | ap f a hf ha =>
      rw [mapVars_ap, size]
      rcases occurs_ap.mp hv with hv | hv
      · have := hf hv
        omega
      · have := ha hv
        omega
  | nat => exact absurd hv not_occurs_nat
  | tuple ts ih =>
      obtain ⟨t, ht, hv⟩ := occurs_tuple.mp hv
      rw [mapVars_tuple]
      exact (ih t ht hv).trans (size_lt_of_mem (List.mem_map_of_mem ht)).le

/-- What takes the place of a variable is smaller than the whole type. -/
theorem size_lt_of_occurs (θ : Nat → Ty) {v : Nat} (hv : Occurs (.var v) t) (ht : ∀ w, t ≠ .var w) :
    (θ v).size < (t.mapVars θ).size := by
  cases t with
  | var w => exact absurd rfl (ht w)
  | gen => cases occurs_gen.mp hv
  | con => exact absurd hv not_occurs_con
  | ap f a =>
      rw [mapVars_ap, size]
      rcases occurs_ap.mp hv with hv | hv
      · have := size_le_of_occurs θ hv
        omega
      · have := size_le_of_occurs θ hv
        omega
  | nat => exact absurd hv not_occurs_nat
  | tuple ts =>
      obtain ⟨t, ht, hv⟩ := occurs_tuple.mp hv
      rw [mapVars_tuple]
      exact (size_le_of_occurs θ hv).trans_lt (size_lt_of_mem (List.mem_map_of_mem ht))

/-- The variables of the type are among the first `n`. -/
def Over (n : Nat) (t : Ty) : Prop := ∀ v, Occurs (.var v) t → v < n

theorem over_iff : t.Over n ↔ ∀ v ∈ t.addVars [], v < n := by
  simp only [Over, mem_addVars, List.not_mem_nil, false_or]

instance : Decidable (t.Over n) := decidable_of_iff' _ over_iff

/-- The parts of a type in the family are in the family. -/
structure PartClosed (U : Ty → Prop) : Prop where
  fn : ∀ {f a}, U (.ap f a) → U f
  arg : ∀ {f a}, U (.ap f a) → U a
  elem : ∀ {t ts}, U (.tuple ts) → t ∈ ts → U t

theorem partClosed_over : PartClosed (Over n) where
  fn h v hv := h v (.fn hv)
  arg h v hv := h v (.arg hv)
  elem h ht v hv := h v (.elem ht hv)

mutual

/-- The type and its parts, once for every place where they stand. -/
def parts : Ty → List Ty
  | .ap f a => .ap f a :: (parts f ++ parts a)
  | .tuple ts => .tuple ts :: partsList ts
  | t => [t]

/-- The types of a list and their parts. -/
def partsList : List Ty → List Ty
  | [] => []
  | t :: ts => parts t ++ partsList ts

end

theorem partsList_eq_flatMap (ts : List Ty) : partsList ts = ts.flatMap parts := by
  induction ts with
  | nil => rfl
  | cons t ts ih => rw [partsList, ih, List.flatMap_cons]

theorem mem_parts_self (t : Ty) : t ∈ t.parts := by
  cases t <;> exact List.mem_cons_self

/-- A type has as many parts as symbols. -/
theorem length_parts (t : Ty) : t.parts.length = t.size := by
  induction t with
  | ap f a hf ha => rw [parts, List.length_cons, List.length_append, hf, ha, size]
  | tuple ts ih =>
      rw [parts, List.length_cons, partsList_eq_flatMap, List.length_flatMap, size, sizeList_eq_sum,
        List.map_congr_left ih]
  | _ => rfl

theorem parts_subset (hu : u ∈ t.parts) : u.parts ⊆ t.parts := by
  induction t with
  | ap f a hf ha =>
      rcases List.mem_cons.mp hu with rfl | hu
      · exact List.Subset.refl _
      · rcases List.mem_append.mp hu with hu | hu
        · exact fun x hx => .tail _ (List.mem_append_left _ (hf hu hx))
        · exact fun x hx => .tail _ (List.mem_append_right _ (ha hu hx))
  | tuple ts ih =>
      rcases List.mem_cons.mp hu with rfl | hu
      · exact List.Subset.refl _
      · rw [partsList_eq_flatMap] at hu
        obtain ⟨t, ht, hu⟩ := List.mem_flatMap.mp hu
        intro x hx
        rw [parts, partsList_eq_flatMap]
        exact .tail _ (List.mem_flatMap.mpr ⟨t, ht, ih t ht hu hx⟩)
  | _ =>
      obtain rfl := List.mem_singleton.mp hu
      exact List.Subset.refl _

theorem length_partsList (ts : List Ty) : (partsList ts).length = sizeList ts := by
  simp only [partsList_eq_flatMap, List.length_flatMap, length_parts, sizeList_eq_sum]

theorem mem_partsList_self (ht : t ∈ ts) : t ∈ partsList ts := by
  rw [partsList_eq_flatMap]
  exact List.mem_flatMap.mpr ⟨t, ht, mem_parts_self t⟩

theorem mem_partsList_of_mem_parts (ht : t ∈ partsList ts) (hu : u ∈ t.parts) : u ∈ partsList ts := by
  rw [partsList_eq_flatMap] at ht ⊢
  obtain ⟨x, hx, ht⟩ := List.mem_flatMap.mp ht
  exact List.mem_flatMap.mpr ⟨x, hx, parts_subset ht hu⟩

theorem partClosed_partsList (ts : List Ty) : PartClosed (· ∈ partsList ts) where
  fn {f _} h := mem_partsList_of_mem_parts h (.tail _ (List.mem_append_left _ (mem_parts_self f)))
  arg {_ a} h := mem_partsList_of_mem_parts h (.tail _ (List.mem_append_right _ (mem_parts_self a)))
  elem h hu := mem_partsList_of_mem_parts h (.tail _ (mem_partsList_self hu))

theorem over_of_mem_parts (ht : t.Over n) (hu : u ∈ t.parts) : u.Over n := by
  induction t with
  | ap f a hf ha =>
      rcases List.mem_cons.mp hu with rfl | hu
      · exact ht
      · rcases List.mem_append.mp hu with hu | hu
        · exact hf (partClosed_over.fn ht) hu
        · exact ha (partClosed_over.arg ht) hu
  | tuple ts ih =>
      rcases List.mem_cons.mp hu with rfl | hu
      · exact ht
      · rw [partsList_eq_flatMap] at hu
        obtain ⟨t, hmem, hu⟩ := List.mem_flatMap.mp hu
        exact ih t hmem (partClosed_over.elem ht hmem) hu
  | _ =>
      obtain rfl := List.mem_singleton.mp hu
      exact ht

theorem over_of_mem_partsList (hts : ∀ t ∈ ts, t.Over n) (hu : u ∈ partsList ts) : u.Over n := by
  rw [partsList_eq_flatMap] at hu
  obtain ⟨t, ht, hu⟩ := List.mem_flatMap.mp hu
  exact over_of_mem_parts (hts t ht) hu

/-- Neither type is a variable, and they begin with different kinds of symbols. -/
def Apart : Ty → Ty → Prop
  | .var _, _ | _, .var _ | .con _, .con _ | .ap _ _, .ap _ _ | .nat _, .nat _ | .tuple _, .tuple _
  | .gen _, .gen _ => False
  | _, _ => True

theorem Apart.ne (h : Apart t u) (θ : Nat → Ty) : t.mapVars θ ≠ u.mapVars θ := by
  cases t <;> cases u <;> first | exact h.elim | simp [mapVars]

end Ty

namespace Store

open Ty (Occurs PartClosed)

/-! ### The recursion of unification -/

/-- What is to be made equal: two types, two pruned types or two lists of one length. -/
inductive Task
  | types (a b : Ty)
  | heads (a b : Ty)
  | elems (as bs : List Ty)

/-- Unification without a bound on the depth of its recursion. -/
inductive Equates : Store → Task → Except Mismatch Unit → Store → Prop
  | types {s s' : Store} {a b : Ty} {r : Except Mismatch Unit}
    (h : Equates s (.heads (s.prune a) (s.prune b)) r s') : Equates s (.types a b) r s'
  | left {s : Store} {v : Nat} {b : Ty} :
    Equates s (.heads (.var v) b) (s.bindVar v b).1 (s.bindVar v b).2
  | right {s : Store} {v : Nat} {a : Ty} (ha : ∀ w, a ≠ .var w) :
    Equates s (.heads a (.var v)) (s.bindVar v a).1 (s.bindVar v a).2
  | con {s : Store} {c d : Tycon} :
    Equates s (.heads (.con c) (.con d)) (if c = d then .ok () else .error .plain) s
  | nat {s : Store} {m n : Nat} :
    Equates s (.heads (.nat m) (.nat n)) (if m = n then .ok () else .error .plain) s
  | gen {s : Store} {m n : Nat} :
    Equates s (.heads (.gen m) (.gen n)) (if m = n then .ok () else .error .plain) s
  | ap {s s₁ s' : Store} {f g x y : Ty} {r : Except Mismatch Unit}
    (hfn : Equates s (.types f g) (.ok ()) s₁) (harg : Equates s₁ (.types x y) r s') :
    Equates s (.heads (.ap f x) (.ap g y)) r s'
  | apStops {s s' : Store} {f g x y : Ty} {m : Mismatch}
    (hfn : Equates s (.types f g) (.error m) s') :
    Equates s (.heads (.ap f x) (.ap g y)) (.error m) s'
  | tuple {s s' : Store} {as bs : List Ty} {r : Except Mismatch Unit} (hlen : as.length = bs.length)
    (h : Equates s (.elems as bs) r s') : Equates s (.heads (.tuple as) (.tuple bs)) r s'
  | arity {s : Store} {as bs : List Ty} (hlen : as.length ≠ bs.length) :
    Equates s (.heads (.tuple as) (.tuple bs)) (.error .tupleArity) s
  | clash {s : Store} {a b : Ty} (h : a.Apart b) : Equates s (.heads a b) (.error .plain) s
  | nil {s : Store} : Equates s (.elems [] []) (.ok ()) s
  | cons {s s₁ s' : Store} {a b : Ty} {as bs : List Ty} {r : Except Mismatch Unit}
    (hhead : Equates s (.types a b) (.ok ()) s₁) (htail : Equates s₁ (.elems as bs) r s') :
    Equates s (.elems (a :: as) (b :: bs)) r s'
  | consStops {s s' : Store} {a b : Ty} {as bs : List Ty} {m : Mismatch}
    (hhead : Equates s (.types a b) (.error m) s') : Equates s (.elems (a :: as) (b :: bs)) (.error m) s'

variable {s s' s₁ : Store} {v w : Nat} {a b t : Ty} {as bs : List Ty} {U : Ty → Prop}
  {r : Except Mismatch Unit} {θ : Nat → Ty}

/-! ### Stores and families of types -/

/-- Bindings hold variables of the store only, and no variable can be reached from its own binding. -/
structure Proper (s : Store) : Prop where
  acyclic : s.Acyclic
  bounded : ∀ {v b}, s.binding? v = some b → b.Over s.cells.size

/-- The store has no cycles, its bindings are in the family, and the family is over the store. -/
structure Inside (U : Ty → Prop) (s : Store) : Prop where
  ranked : s.Ranked
  binding : ∀ {v b}, s.binding? v = some b → U b
  bounded : ∀ {t}, U t → t.Over s.cells.size

theorem Proper.inside (h : s.Proper) : s.Inside (Ty.Over s.cells.size) where
  ranked := h.acyclic.ranked
  binding := h.bounded
  bounded := id

theorem Inside.proper (h : s.Inside U) : s.Proper where
  acyclic := h.ranked.acyclic
  bounded hb := h.bounded (h.binding hb)

theorem Inside.pruneWith (h : s.Inside U) (fuel : Nat) (ht : U t) : U (s.pruneWith fuel t) := by
  induction fuel generalizing t with
  | zero => cases t <;> exact ht
  | succ fuel ih =>
      cases t with
      | var v =>
          rw [Store.pruneWith]
          cases hb : s.binding? v with
          | none => exact ht
          | some b => exact ih (h.binding hb)
      | _ => exact ht

theorem Inside.prune (h : s.Inside U) (ht : U t) : U (s.prune t) := h.pruneWith _ ht

theorem Inside.lt_size (h : s.Inside U) (hv : U (.var v)) : v < s.cells.size := h.bounded hv v .leaf

theorem Inside.bind (h : s.Inside U) (hv : s.binding? v = none) (hlt : v < s.cells.size) (ht : U t)
    (hocc : ¬ Occurs (.var v) (s.resolve t)) : (s.bind v t).Inside U where
  ranked := h.ranked.bind hv hlt hocc
  binding {w b} hb := by
    rw [binding?_bind hlt] at hb
    split at hb
    · cases hb
      exact ht
    · exact h.binding hb
  bounded ht := by
    rw [size_bind]
    exact h.bounded ht

/-- The stores differ only by bindings of variables that were unbound. -/
structure Binds (s s' : Store) : Prop where
  size : s'.cells.size = s.cells.size
  grows : s.Extends s'

theorem Binds.refl (s : Store) : s.Binds s := ⟨rfl, .refl s⟩

theorem Binds.trans (h : s.Binds s₁) (h' : s₁.Binds s') : s.Binds s' :=
  ⟨h'.size.trans h.size, h.grows.trans h'.grows⟩

/-! ### Outcomes of the recursion -/

/-- Both sides are in the family. -/
def Task.In (U : Ty → Prop) : Task → Prop
  | .types a b => U a ∧ U b
  | .heads a b => U a ∧ U b
  | .elems as bs => (∀ a ∈ as, U a) ∧ ∀ b ∈ bs, U b

/-- Bindings at the heads have been followed. -/
def Task.Pruned (s : Store) : Task → Prop
  | .heads a b => (∀ v, a = .var v → s.binding? v = none) ∧ ∀ v, b = .var v → s.binding? v = none
  | _ => True

/-- The assignment makes both sides equal. -/
def Task.Holds (θ : Nat → Ty) : Task → Prop
  | .types a b => a.mapVars θ = b.mapVars θ
  | .heads a b => a.mapVars θ = b.mapVars θ
  | .elems as bs => as.map (fun t => t.mapVars θ) = bs.map fun t => t.mapVars θ

/-- The outcome says which solutions of the store have a property: those of the store that is left if
it is a success, and none if it is a failure. -/
def Decides (s : Store) (holds : (Nat → Ty) → Prop) : Except Mismatch Unit → Store → Prop
  | .ok _, s' => ∀ θ, s'.Solves θ ↔ s.Solves θ ∧ holds θ
  | .error _, _ => ∀ θ, s.Solves θ → ¬ holds θ

theorem Decides.congr {p q : (Nat → Ty) → Prop} (h : s.Decides p r s')
    (hpq : ∀ θ, s.Solves θ → (p θ ↔ q θ)) : s.Decides q r s' := by
  cases r with
  | ok => exact fun θ => (h θ).trans (and_congr_right (hpq θ))
  | error => exact fun θ hθ hq => h θ hθ ((hpq θ hθ).mpr hq)

/-- One property after the other. -/
theorem Decides.and {p q : (Nat → Ty) → Prop} (h : s.Decides p (.ok ()) s₁) (h' : s₁.Decides q r s') :
    s.Decides (fun θ => p θ ∧ q θ) r s' := by
  cases r with
  | ok => exact fun θ => (h' θ).trans ((and_congr_left' (h θ)).trans and_assoc)
  | error => exact fun θ hθ hpq => h' θ ((h θ).mpr ⟨hθ, hpq.1⟩) hpq.2

theorem decides_if {p : Prop} [Decidable p] {q : (Nat → Ty) → Prop} {m : Mismatch}
    (h : ∀ θ, q θ ↔ p) : s.Decides q (if p then .ok () else .error m) s := by
  split
  · rename_i hp
    exact fun θ => (and_iff_left ((h θ).mpr hp)).symm
  · rename_i hp
    exact fun θ _ hq => hp ((h θ).mp hq)

/-- What a part of the recursion achieves. -/
structure Achieves (U : Ty → Prop) (s : Store) (task : Task) (r : Except Mismatch Unit) (s' : Store) :
    Prop where
  inside : s'.Inside U
  binds : s.Binds s'
  decides : s.Decides (fun θ => task.Holds θ) r s'

theorem Inside.achieves {task : Task} (h : s.Inside U)
    (hr : s.Decides (fun θ => task.Holds θ) r s) : Achieves U s task r s :=
  ⟨h, .refl s, hr⟩

theorem solves_bind (hv : s.binding? v = none) (hlt : v < s.cells.size) :
    (s.bind v t).Solves θ ↔ s.Solves θ ∧ θ v = t.mapVars θ := by
  constructor
  · exact fun h => ⟨h.of_extends (extends_bind hv hlt), h v t (by rw [binding?_bind hlt, if_pos rfl])⟩
  · rintro ⟨h, ht⟩ w b hb
    rw [binding?_bind hlt] at hb
    split at hb
    · rename_i hwv
      cases hb
      rw [hwv, ht]
    · exact h w b hb

/-- Binding a variable makes it equal to the type, or no assignment does. -/
theorem Inside.bindVar (h : s.Inside U) (hv : s.binding? v = none) (hlt : v < s.cells.size) (ht : U t)
    (hvar : ∀ w, t = .var w → s.binding? w = none) :
    Achieves U s (.heads (.var v) t) (s.bindVar v t).1 (s.bindVar v t).2 := by
  have hholds : ∀ θ, Task.Holds θ (.heads (.var v) t) ↔ θ v = t.mapVars θ := fun θ => by
    rw [Task.Holds, Ty.mapVars_var]
  have hbind (hocc : ¬ Occurs (.var v) (s.resolve t)) :
      Achieves U s (.heads (.var v) t) (.ok ()) (s.bind v t) := by
    refine ⟨h.bind hv hlt ht hocc, ⟨size_bind, extends_bind hv hlt⟩, fun θ => ?_⟩
    exact (solves_bind hv hlt).trans (and_congr_right' (hholds θ).symm)
  unfold Store.bindVar
  split
  · rename_i w
    have hw := resolve_var_of_none (hvar w rfl)
    split
    · rename_i hvw
      refine h.achieves fun θ => (and_iff_left ((hholds θ).mpr ?_)).symm
      rw [hvw, Ty.mapVars_var]
    · rename_i hvw
      refine hbind fun hocc => hvw ?_
      rw [hw, Ty.occurs_var] at hocc
      cases hocc
      rfl
  · rename_i hne
    split
    · rename_i hocc
      -- under a solution the variable would have the size of a type it stands inside of
      refine h.achieves fun θ hθ heq => ?_
      have hlt := Ty.size_lt_of_occurs θ (occurs_iff.mp hocc) fun w hw => by
        rcases h.ranked.resolve_shape t with ⟨f, a, -, hr⟩ | ⟨ts, -, hr⟩ | ⟨hp, -⟩
        · rw [hr] at hw
          cases hw
        · rw [hr] at hw
          cases hw
        · rw [prune_of_ne_var fun w hw => hne w hw] at hp
          exact hne w (hp.trans hw)
      rw [hθ.resolve, ← (hholds θ).mp heq] at hlt
      exact Nat.lt_irrefl _ hlt
    · rename_i hocc
      exact hbind fun h => hocc (occurs_iff.mpr h)

theorem Inside.pruned_heads (h : s.Inside U) (a b : Ty) :
    Task.Pruned s (.heads (s.prune a) (s.prune b)) :=
  ⟨fun _ => h.ranked.unbound_of_prune, fun _ => h.ranked.unbound_of_prune⟩

/-- The recursion keeps the store free of cycles and finds the solutions that make both sides equal. -/
theorem Equates.achieves {task : Task} (hU : PartClosed U) (h : Equates s task r s') (hs : s.Inside U)
    (hin : task.In U) (hp : task.Pruned s) : Achieves U s task r s' := by
  induction h with
  | @types s s' a b r _ ih =>
      obtain ⟨hin', hbinds, hdec⟩ := ih hs ⟨hs.prune hin.1, hs.prune hin.2⟩ (hs.pruned_heads a b)
      refine ⟨hin', hbinds, hdec.congr fun θ hθ => ?_⟩
      rw [Task.Holds, Task.Holds, hθ.prune, hθ.prune]
  | left => exact hs.bindVar (hp.1 _ rfl) (hs.lt_size hin.1) hin.2 hp.2
  | right _ =>
      obtain ⟨hin', hbinds, hdec⟩ := hs.bindVar (hp.2 _ rfl) (hs.lt_size hin.2) hin.1 hp.1
      exact ⟨hin', hbinds, hdec.congr fun θ _ => eq_comm⟩
  | con => exact hs.achieves (decides_if fun θ => by simp [Task.Holds])
  | nat => exact hs.achieves (decides_if fun θ => by simp [Task.Holds, Ty.mapVars])
  | gen => exact hs.achieves (decides_if fun θ => by simp [Task.Holds, Ty.mapVars])
  | ap _ _ ihf iha =>
      obtain ⟨hin₁, hbinds₁, hdec₁⟩ := ihf hs ⟨hU.fn hin.1, hU.fn hin.2⟩ trivial
      obtain ⟨hin', hbinds', hdec'⟩ := iha hin₁ ⟨hU.arg hin.1, hU.arg hin.2⟩ trivial
      exact ⟨hin', hbinds₁.trans hbinds', (hdec₁.and hdec').congr fun θ _ => by simp [Task.Holds]⟩
  | apStops _ ih =>
      obtain ⟨hin', hbinds, hdec⟩ := ih hs ⟨hU.fn hin.1, hU.fn hin.2⟩ trivial
      refine ⟨hin', hbinds, fun θ hθ heq => hdec θ hθ ?_⟩
      simp only [Task.Holds, Ty.mapVars_ap] at heq
      exact (Ty.ap.inj heq).1
  | tuple _ _ ih =>
      obtain ⟨hin', hbinds, hdec⟩ :=
        ih hs ⟨fun _ => hU.elem hin.1, fun _ => hU.elem hin.2⟩ trivial
      exact ⟨hin', hbinds, hdec.congr fun θ _ => by simp [Task.Holds]⟩
  | arity hlen =>
      refine hs.achieves fun θ _ heq => hlen ?_
      simp only [Task.Holds, Ty.mapVars_tuple] at heq
      simpa using congrArg List.length (Ty.tuple.inj heq)
  | clash h => exact hs.achieves fun θ _ => h.ne θ
  | nil => exact hs.achieves fun θ => (and_iff_left rfl).symm
  | cons _ _ ihhead ihtail =>
      obtain ⟨hin₁, hbinds₁, hdec₁⟩ := ihhead hs ⟨hin.1 _ (.head _), hin.2 _ (.head _)⟩ trivial
      obtain ⟨hin', hbinds', hdec'⟩ :=
        ihtail hin₁ ⟨fun a ha => hin.1 a (.tail _ ha), fun b hb => hin.2 b (.tail _ hb)⟩ trivial
      exact ⟨hin', hbinds₁.trans hbinds', (hdec₁.and hdec').congr fun θ _ => by simp [Task.Holds]⟩
  | consStops _ ih =>
      obtain ⟨hin', hbinds, hdec⟩ := ih hs ⟨hin.1 _ (.head _), hin.2 _ (.head _)⟩ trivial
      exact ⟨hin', hbinds, fun θ hθ heq => hdec θ hθ (List.cons.inj heq).1⟩

/-! ### The depth of the recursion -/

/-- The types on the way down to this one are different types of a list: under every solution of the
store they are larger. -/
structure Above (W P : List Ty) (s : Store) (t : Ty) : Prop where
  nodup : P.Nodup
  subset : P ⊆ W
  larger : ∀ p ∈ P, ∀ θ, s.Solves θ → (t.mapVars θ).size < (p.mapVars θ).size

variable {W P : List Ty}

theorem Above.mono (h : Above W P s t) (hs : s.Binds s') : Above W P s' t :=
  ⟨h.nodup, h.subset, fun p hp θ hθ => h.larger p hp θ (hθ.of_extends hs.grows)⟩

/-- The way goes on to a part of the pruned type. -/
theorem Above.push (h : Above W P s t) (hs : s.Ranked) (hmem : s.prune t ∈ W)
    (hlt : ∀ θ, (a.mapVars θ).size < ((s.prune t).mapVars θ).size) :
    Above W (s.prune t :: P) s a where
  nodup := by
    refine List.nodup_cons.mpr ⟨fun hp => ?_, h.nodup⟩
    have hlt := h.larger _ hp _ hs.solves_reading
    rw [hs.solves_reading.prune] at hlt
    exact Nat.lt_irrefl _ hlt
  subset := List.cons_subset.mpr ⟨hmem, h.subset⟩
  larger p hp θ hθ := by
    rcases List.mem_cons.mp hp with rfl | hp
    · exact hlt θ
    · exact (hlt θ).trans (hθ.prune t ▸ h.larger p hp θ hθ)

theorem Above.length_le (h : Above W P s t) : P.length ≤ W.length :=
  (List.subperm_of_subset h.nodup h.subset).length_le

theorem equates_unifyElems {unify : Store → Ty → Ty → Except Mismatch Unit × Store}
    (hW : PartClosed (· ∈ W))
    (hunify : ∀ {s a b}, s.Inside (· ∈ W) → a ∈ W → b ∈ W → Above W P s a →
      s.Equates (.types a b) (unify s a b).1 (unify s a b).2)
    (hlen : as.length = bs.length) (hs : s.Inside (· ∈ W)) (has : ∀ a ∈ as, a ∈ W)
    (hbs : ∀ b ∈ bs, b ∈ W) (habove : ∀ a ∈ as, Above W P s a) :
    s.Equates (.elems as bs) (unifyElems unify s as bs).1 (unifyElems unify s as bs).2 := by
  induction as generalizing s bs with
  | nil =>
      obtain rfl : bs = [] := List.eq_nil_of_length_eq_zero hlen.symm
      exact .nil
  | cons a as ih =>
      cases bs with
      | nil => cases hlen
      | cons b bs =>
          have hab := hunify hs (has a (.head _)) (hbs b (.head _)) (habove a (.head _))
          rw [unifyElems]
          generalize unify s a b = out at hab
          obtain ⟨r, s₁⟩ := out
          cases r with
          | error m => exact .consStops hab
          | ok =>
              obtain ⟨hin, hbinds, -⟩ := hab.achieves hW hs ⟨has a (.head _), hbs b (.head _)⟩ trivial
              exact .cons hab (ih (Nat.succ.inj hlen) hin (fun a ha => has a (.tail _ ha))
                (fun b hb => hbs b (.tail _ hb)) fun a ha => (habove a (.tail _ ha)).mono hbinds)

/-- No more steps are needed than there are types in reach. -/
theorem equates_unifyWith (hW : PartClosed (· ∈ W)) (fuel : Nat) (hs : s.Inside (· ∈ W)) (ha : a ∈ W)
    (hb : b ∈ W) (habove : Above W P s a) (hfuel : W.length < fuel + P.length) :
    s.Equates (.types a b) (unifyWith fuel s a b).1 (unifyWith fuel s a b).2 := by
  induction fuel generalizing s a b P with
  | zero =>
      have := habove.length_le
      omega
  | succ fuel ih =>
      refine .types ?_
      have ha' := hs.prune ha
      have hb' := hs.prune hb
      have hpush : ∀ {c : Ty}, (∀ θ, (c.mapVars θ).size < ((s.prune a).mapVars θ).size) →
          Above W (s.prune a :: P) s c := fun hlt => habove.push hs.ranked ha' hlt
      have hfuel' : W.length < fuel + (s.prune a :: P).length := by
        rw [List.length_cons]
        omega
      rw [unifyWith]
      generalize s.prune a = a' at *
      generalize s.prune b = b' at *
      split
      · exact .left
      · rename_i hvar
        exact .right hvar
      · exact .con
      · rename_i f x g y
        have hf := ih hs (hW.fn ha') (hW.fn hb') (hpush fun θ => by
          rw [Ty.mapVars_ap, Ty.size]
          omega) hfuel'
        generalize unifyWith fuel s f g = out at hf
        obtain ⟨r, s₁⟩ := out
        cases r with
        | error m => exact .apStops hf
        | ok =>
            obtain ⟨hin, hbinds, -⟩ := hf.achieves hW hs ⟨hW.fn ha', hW.fn hb'⟩ trivial
            refine .ap hf (ih hin (hW.arg ha') (hW.arg hb') (.mono (hpush fun θ => ?_) hbinds) hfuel')
            rw [Ty.mapVars_ap, Ty.size]
            omega
      · exact .nat
      · rename_i xs ys
        split
        · rename_i hlen
          exact .arity hlen
        · rename_i hlen
          refine .tuple (by omega) (equates_unifyElems hW (fun hs ha hb habove => ih hs ha hb habove hfuel')
            (by omega) hs (fun _ => hW.elem ha') (fun _ => hW.elem hb') fun t ht => hpush fun θ => ?_)
          rw [Ty.mapVars_tuple]
          exact Ty.size_lt_of_mem (List.mem_map_of_mem ht)
      · exact .gen
      · refine .clash ?_
        unfold Ty.Apart
        split <;> grind

/-- The bindings of a store. -/
def bindings (s : Store) : List Ty := s.cells.toList.filterMap VarCell.binding

theorem mem_bindings : b ∈ s.bindings ↔ ∃ v, s.binding? v = some b := by
  rw [bindings, List.mem_filterMap]
  constructor
  · rintro ⟨cell, hcell, hb⟩
    obtain ⟨v, hv⟩ := List.mem_iff_getElem?.mp hcell
    refine ⟨v, ?_⟩
    rw [Array.getElem?_toList] at hv
    rw [binding?, hv]
    exact hb
  · rintro ⟨v, hb⟩
    obtain ⟨cell, hcell, hb⟩ := Option.bind_eq_some_iff.mp hb
    exact ⟨cell, List.mem_iff_getElem?.mpr ⟨v, by rwa [Array.getElem?_toList]⟩, hb⟩

theorem bindingSize_eq (s : Store) : s.bindingSize = Ty.sizeList s.bindings := by
  have hsum : ∀ (cells : List VarCell) (n : Nat),
      cells.foldl (fun n cell => n + (cell.binding.map Ty.size).getD 0) n =
        n + Ty.sizeList (cells.filterMap VarCell.binding) := by
    intro cells
    induction cells with
    | nil => exact fun n => rfl
    | cons cell cells ih =>
        intro n
        rw [List.foldl_cons, ih, List.filterMap_cons]
        cases cell.binding with
        | none => rfl
        | some b =>
            show n + b.size + _ = n + (b.size + _)
            omega
  rw [bindingSize, ← Array.foldl_toList, hsum, bindings]
  omega

/-- Unification of two types over a store without cycles is a finite recursion. -/
theorem Proper.equates (hs : s.Proper) (ha : a.Over s.cells.size) (hb : b.Over s.cells.size) :
    ∃ r, s.Equates (.types a b) r (s.unify a b).2 ∧
      (s.unify a b).1 = r.mapError fun m => ⟨a, b, m⟩ := by
  let W := Ty.partsList (s.bindings ++ [a, b])
  have hover : ∀ t ∈ s.bindings ++ [a, b], t.Over s.cells.size := by
    intro t ht
    rcases List.mem_append.mp ht with ht | ht
    · obtain ⟨v, hv⟩ := mem_bindings.mp ht
      exact hs.bounded hv
    · rcases List.mem_pair.mp ht with rfl | rfl
      · exact ha
      · exact hb
  have hin : s.Inside (· ∈ W) := ⟨hs.acyclic.ranked,
    fun hb => Ty.mem_partsList_self (List.mem_append_left _ (mem_bindings.mpr ⟨_, hb⟩)),
    fun ht => Ty.over_of_mem_partsList hover ht⟩
  have hlen : W.length < s.unifyFuel a b := by
    rw [Ty.length_partsList, unifyFuel, bindingSize_eq, Ty.sizeList_eq_sum, Ty.sizeList_eq_sum]
    simp
    omega
  have hrun := equates_unifyWith (P := []) (Ty.partClosed_partsList _) (s.unifyFuel a b) hin
    (a := a) (b := b) (Ty.mem_partsList_self (by simp)) (Ty.mem_partsList_self (by simp))
    ⟨.nil, nofun, nofun⟩ hlen
  rw [unify]
  generalize unifyWith (s.unifyFuel a b) s a b = out at hrun
  obtain ⟨r, s'⟩ := out
  cases r <;> exact ⟨_, hrun, rfl⟩

/-! ### Most general unifiers -/

/-- Solutions of a store are given by the types of its unbound variables. -/
theorem Ranked.solves_mapVars (h : s.Ranked) (θ : Nat → Ty) :
    s.Solves fun v => (s.reading v).mapVars θ := by
  intro v b hb
  show (s.reading v).mapVars θ = _
  rw [h.reading_of_some hb, Ty.mapVars_mapVars]

theorem Ranked.resolve_mapVars (h : s.Ranked) (t : Ty) (θ : Nat → Ty) :
    (s.resolve t).mapVars θ = t.mapVars fun v => (s.reading v).mapVars θ := by
  rw [h.resolve_eq, Ty.mapVars_mapVars]

/-- The second store comes from the first one by binding unbound variables; it makes the types equal,
and every assignment that does so gives the variables the types that they are now read as. -/
structure MostGeneral (s : Store) (a b : Ty) (s' : Store) : Prop where
  proper : s'.Proper
  binds : s.Binds s'
  equal : s'.resolve a = s'.resolve b
  factors : ∀ θ, (s.resolve a).mapVars θ = (s.resolve b).mapVars θ →
    ∀ v, s.binding? v = none → θ v = (s'.resolve (.var v)).mapVars θ

theorem Achieves.mostGeneral (h : Achieves U s (.types a b) (.ok ()) s') (hs : s.Ranked) :
    MostGeneral s a b s' where
  proper := h.inside.proper
  binds := h.binds
  equal := by
    have hr := h.inside.ranked
    rw [hr.resolve_eq, hr.resolve_eq]
    exact ((h.decides _).mp hr.solves_reading).2
  factors θ hθ v hv := by
    rw [hs.resolve_mapVars, hs.resolve_mapVars] at hθ
    -- the assignment goes on to a solution, and so to one of the store that is left
    have hsol := (h.decides _).mpr ⟨hs.solves_mapVars θ, hθ⟩
    have hv' := hsol.resolve (.var v)
    rw [Ty.mapVars_var, reading_of_none hv, Ty.mapVars_var] at hv'
    rw [← hv']
    refine (Ty.mapVars_congr fun w hw => ?_).symm
    have hw' : s.binding? w = none := by
      by_contra hb
      obtain ⟨t, hb⟩ := Option.ne_none_iff_exists'.mp hb
      have := h.inside.ranked.unbound_of_occurs hw
      rw [h.binds.grows.binding hb] at this
      cases this
    rw [reading_of_none hw', Ty.mapVars_var]

/-- Unification keeps a store free of cycles, also if it fails. -/
theorem Proper.unify (hs : s.Proper) (ha : a.Over s.cells.size) (hb : b.Over s.cells.size) :
    (s.unify a b).2.Proper ∧ s.Binds (s.unify a b).2 := by
  obtain ⟨r, hrun, -⟩ := hs.equates ha hb
  obtain ⟨hin, hbinds, -⟩ := hrun.achieves Ty.partClosed_over hs.inside ⟨ha, hb⟩ trivial
  exact ⟨hin.proper, hbinds⟩

/-- Unification finds a most general unifier, or there is none. -/
theorem unify_mostGeneral (hs : s.Proper) (ha : a.Over s.cells.size) (hb : b.Over s.cells.size) :
    match s.unify a b with
    | (.ok _, s') => MostGeneral s a b s'
    | (.error _, _) => ∀ θ, (s.resolve a).mapVars θ ≠ (s.resolve b).mapVars θ := by
  obtain ⟨r, hrun, hr⟩ := hs.equates ha hb
  have hachieves := hrun.achieves Ty.partClosed_over hs.inside ⟨ha, hb⟩ trivial
  generalize s.unify a b = out at *
  obtain ⟨r', s'⟩ := out
  cases r with
  | ok =>
      obtain rfl : r' = .ok () := hr
      exact hachieves.mostGeneral hs.acyclic.ranked
  | error m =>
      obtain rfl : r' = .error ⟨a, b, m⟩ := hr
      intro θ hθ
      have hranked := hs.acyclic.ranked
      rw [hranked.resolve_mapVars, hranked.resolve_mapVars] at hθ
      exact hachieves.decides _ (hranked.solves_mapVars θ) hθ

/-- Three variables, of which the first is bound to the second. -/
def linked : Store := ⟨#[⟨.star, some (.var 1)⟩, ⟨.star, none⟩, ⟨.nat, none⟩]⟩

theorem linked_binding? (h : linked.binding? v = some b) : v = 0 ∧ b = .var 1 := by
  match v with
  | 0 =>
      cases h
      exact ⟨rfl, rfl⟩
  | 1 => cases h
  | 2 => cases h
  | v + 3 => cases h

theorem proper_linked : linked.Proper where
  acyclic := Ranked.acyclic ⟨fun v => if v = 0 then 1 else 0, fun v b hb w hw => by
    obtain ⟨rfl, rfl⟩ := linked_binding? hb
    cases Ty.occurs_var.mp hw
    decide⟩
  bounded hb w hw := by
    obtain ⟨rfl, rfl⟩ := linked_binding? hb
    cases Ty.occurs_var.mp hw
    decide

theorem unify_mostGeneral_linked :
    linked.Proper ∧ ∃ s', linked.unify (.tuple [.var 0, .var 2]) (.tuple [.ap (.con .bit) (.var 2), .nat 8])
        = (.ok (), s') ∧
      MostGeneral linked (.tuple [.var 0, .var 2]) (.tuple [.ap (.con .bit) (.var 2), .nat 8]) s' := by
  refine ⟨proper_linked, _, rfl, ?_⟩
  exact unify_mostGeneral proper_linked (a := .tuple [.var 0, .var 2])
    (b := .tuple [.ap (.con .bit) (.var 2), .nat 8])
    (by decide) (by decide)

end Store

end Mil

/-!
The store never becomes cyclic. Unification checks every binding before it makes it, so whatever types
are unified one after another, and whether this succeeds or not, no variable can be reached from its own
binding. The functions that go through the bindings then end on every type over the store.
-/

namespace Mil

namespace Store

variable {s s' : Store} {a b : Ty} {as bs : List Ty}

theorem Proper.unifyElems (hs : s.Proper) (has : ∀ a ∈ as, a.Over s.cells.size)
    (hbs : ∀ b ∈ bs, b.Over s.cells.size) :
    (Store.unifyElems Store.unify s as bs).2.Proper ∧
      s.Binds (Store.unifyElems Store.unify s as bs).2 := by
  induction as generalizing s bs with
  | nil => exact ⟨hs, .refl s⟩
  | cons a as ih =>
      cases bs with
      | nil => exact ⟨hs, .refl s⟩
      | cons b bs =>
          have hab := hs.unify (has a (.head _)) (hbs b (.head _))
          rw [Store.unifyElems]
          generalize s.unify a b = out at hab
          obtain ⟨r, s₁⟩ := out
          obtain ⟨hs₁, hbinds⟩ := hab
          cases r with
          | error => exact ⟨hs₁, hbinds⟩
          | ok =>
              obtain ⟨hs', hbinds'⟩ := ih hs₁ (fun a ha => hbinds.size ▸ has a (.tail _ ha))
                fun b hb => hbinds.size ▸ hbs b (.tail _ hb)
              exact ⟨hs', hbinds.trans hbinds'⟩

theorem Proper.unifyAll (hs : s.Proper) (has : ∀ a ∈ as, a.Over s.cells.size)
    (hbs : ∀ b ∈ bs, b.Over s.cells.size) :
    (s.unifyAll as bs).2.Proper ∧ s.Binds (s.unifyAll as bs).2 := by
  rw [Store.unifyAll]
  split
  · exact ⟨hs, .refl s⟩
  · exact hs.unifyElems has hbs

end Store

namespace BlockType

/-- The variables of domain and range are among the first `n`. -/
def Over (n : Nat) (b : BlockType) : Prop := b.dom.Over n ∧ b.rng.Over n

theorem proper_unify {s : Store} {a b : BlockType} (hs : s.Proper) (ha : a.Over s.cells.size)
    (hb : b.Over s.cells.size) : (unify s a b).2.Proper ∧ s.Binds (unify s a b).2 := by
  have hdom := hs.unify ha.1 hb.1
  rw [unify]
  generalize s.unify a.dom b.dom = out at hdom
  obtain ⟨r, s₁⟩ := out
  obtain ⟨hs₁, hbinds⟩ := hdom
  cases r with
  | error => exact ⟨hs₁, hbinds⟩
  | ok =>
      obtain ⟨hs', hbinds'⟩ := hs₁.unify (hbinds.size ▸ ha.2) (hbinds.size ▸ hb.2)
      exact ⟨hs', hbinds.trans hbinds'⟩

end BlockType

namespace Store

variable {s s' : Store}

/-- A call that binds variables. -/
inductive Call
  | types (a b : Ty)
  | lists (as bs : List Ty)
  | blocks (a b : BlockType)

/-- The variables of the call are among the first `n`. -/
def Call.Over (n : Nat) : Call → Prop
  | .types a b => a.Over n ∧ b.Over n
  | .lists as bs => (∀ a ∈ as, a.Over n) ∧ ∀ b ∈ bs, b.Over n
  | .blocks a b => a.Over n ∧ b.Over n

/-- The store that a call leaves, whether it succeeds or not. -/
def after (s : Store) : Call → Store
  | .types a b => (s.unify a b).2
  | .lists as bs => (s.unifyAll as bs).2
  | .blocks a b => (BlockType.unify s a b).2

theorem Proper.after (hs : s.Proper) {call : Call} (h : call.Over s.cells.size) :
    (s.after call).Proper ∧ s.Binds (s.after call) := by
  cases call with
  | types a b => exact hs.unify h.1 h.2
  | lists as bs => exact hs.unifyAll h.1 h.2
  | blocks a b => exact BlockType.proper_unify hs h.1 h.2

theorem Proper.afterAll (hs : s.Proper) {calls : List Call}
    (h : ∀ call ∈ calls, call.Over s.cells.size) :
    (calls.foldl Store.after s).Proper ∧ s.Binds (calls.foldl Store.after s) := by
  induction calls generalizing s with
  | nil => exact ⟨hs, .refl s⟩
  | cons call calls ih =>
      obtain ⟨hs₁, hbinds⟩ := hs.after (h call (.head _))
      obtain ⟨hs', hbinds'⟩ := ih hs₁ fun call hcall => hbinds.size ▸ h call (.tail _ hcall)
      exact ⟨hs', hbinds.trans hbinds'⟩

theorem proper_of_unbound (h : ∀ v, s.binding? v = none) : s.Proper where
  acyclic := Ranked.acyclic ⟨fun _ => 0, fun v b hb => by simp [h v] at hb⟩
  bounded {v b} hb := by simp [h v] at hb

/-- After any calls on a store of unbound variables no variable can be reached from its own binding, and
every recursion through the bindings is finite. -/
theorem acyclic_afterAll (h : ∀ v, s.binding? v = none) (calls : List Call)
    (hcalls : ∀ call ∈ calls, call.Over s.cells.size) :
    (calls.foldl after s).Acyclic ∧ (calls.foldl after s).Terminates ∧
      ∀ a b, a.Over s.cells.size → b.Over s.cells.size →
        ∃ r, (calls.foldl after s).Equates (.types a b) r ((calls.foldl after s).unify a b).2 ∧
          ((calls.foldl after s).unify a b).1 = r.mapError fun m => ⟨a, b, m⟩ := by
  obtain ⟨hs, hbinds⟩ := (proper_of_unbound h).afterAll hcalls
  exact ⟨hs.acyclic, hs.acyclic.ranked.terminates, fun a b ha hb =>
    hs.equates (hbinds.size ▸ ha) (hbinds.size ▸ hb)⟩

/-- Three unbound variables. -/
def unbound : Store := ⟨#[⟨.star, none⟩, ⟨.star, none⟩, ⟨.nat, none⟩]⟩

theorem binding?_unbound (v : Nat) : unbound.binding? v = none := by
  match v with
  | 0 => rfl
  | 1 => rfl
  | 2 => rfl
  | v + 3 => rfl

/-- The second call binds the third variable and then fails, since the first one would go round in a
circle. -/
def failing : List Call :=
  [.types (.var 0) (.tuple [.var 1]), .types (.tuple [.var 2, .var 1]) (.tuple [.nat 4, .var 0])]

theorem acyclic_afterAll_failing :
    ((failing.foldl after unbound).unify (.var 1) (.var 0)).1 = .error ⟨.var 1, .var 0, .infinite⟩ ∧
      (failing.foldl after unbound).binding? 2 = some (.nat 4) ∧
      (failing.foldl after unbound).Acyclic ∧ (failing.foldl after unbound).Terminates := by
  obtain ⟨hacyclic, hterminates, -⟩ := acyclic_afterAll binding?_unbound failing (by
    simp only [failing, List.forall_mem_cons, Call.Over]
    exact ⟨by decide, by decide, nofun⟩)
  exact ⟨rfl, rfl, hacyclic, hterminates⟩

end Store

end Mil
