import Mil.Ty.Scheme

/-!
Variables of types and what takes their place. A substitution of variables acts on a type only
through the variables that occur in it, two substitutions in a row are one, and reading a type
through an assignment of types to variables commutes with putting types in place of quantified
variables. A type is closed if it has no variables and quantifies only over a given number of them.
-/

namespace Mil

namespace Ty

/-- Induction on types, with one hypothesis for every element of a tuple. -/
@[elab_as_elim, induction_eliminator]
theorem induct {motive : Ty → Prop} (var : ∀ v, motive (.var v)) (gen : ∀ n, motive (.gen n))
    (con : ∀ c, motive (.con c)) (ap : ∀ f a, motive f → motive a → motive (.ap f a))
    (nat : ∀ n, motive (.nat n)) (tuple : ∀ ts, (∀ t ∈ ts, motive t) → motive (.tuple ts)) :
    ∀ t, motive t
  | .var v => var v
  | .gen n => gen n
  | .con c => con c
  | .ap f a => ap f a (induct var gen con ap nat tuple f) (induct var gen con ap nat tuple a)
  | .nat n => nat n
  | .tuple ts => tuple ts (elems ts)
where
  /-- The statement for the elements of a list. -/
  elems : (ts : List Ty) → ∀ t ∈ ts, motive t
    | [], _, h => absurd h List.not_mem_nil
    | u :: us, t, h => by
      rcases List.mem_cons.mp h with ht | ht
      · exact ht ▸ induct var gen con ap nat tuple u
      · exact elems us t ht

theorem substList_eq_map (onVar onGen : Nat → Ty) (ts : List Ty) :
    substList onVar onGen ts = ts.map (subst onVar onGen) := by
  induction ts with
  | nil => rfl
  | cons t ts ih => rw [substList, ih, List.map_cons]

theorem isGroundList_eq_all (ts : List Ty) : isGroundList ts = ts.all isGround := by
  induction ts with
  | nil => rfl
  | cons t ts ih => rw [isGroundList, ih, List.all_cons]

theorem addVarsList_eq_foldl (ts : List Ty) (acc : List Nat) :
    addVarsList ts acc = ts.foldl (fun acc t => t.addVars acc) acc := by
  induction ts generalizing acc with
  | nil => rfl
  | cons t ts ih => rw [addVarsList, ih, List.foldl_cons]

section Substitution

variable (onVar onGen : Nat → Ty)

@[simp] theorem subst_var (v : Nat) : subst onVar onGen (.var v) = onVar v := rfl
@[simp] theorem subst_gen (n : Nat) : subst onVar onGen (.gen n) = onGen n := rfl
@[simp] theorem subst_con (c : Tycon) : subst onVar onGen (.con c) = .con c := rfl
@[simp] theorem subst_nat (n : Nat) : subst onVar onGen (.nat n) = .nat n := rfl

@[simp] theorem subst_ap (f a : Ty) :
    subst onVar onGen (.ap f a) = .ap (subst onVar onGen f) (subst onVar onGen a) := rfl

@[simp] theorem subst_tuple (ts : List Ty) :
    subst onVar onGen (.tuple ts) = .tuple (ts.map (subst onVar onGen)) := by
  rw [subst, substList_eq_map]

@[simp] theorem subst_func (dom rng : Ty) :
    subst onVar onGen (.func dom rng) = .func (subst onVar onGen dom) (subst onVar onGen rng) := by
  simp [func]

end Substitution

theorem subst_apply (f g : Nat → Ty) (t : Ty) (args : List Ty) :
    (apply t args).subst f g = apply (t.subst f g) (args.map (subst f g)) := by
  induction args generalizing t with
  | nil => rfl
  | cons a args ih => exact (ih (.ap t a)).trans (by rw [subst_ap]; rfl)

theorem apply_concat (t a : Ty) (args : List Ty) : apply t (args ++ [a]) = .ap (apply t args) a := by
  induction args generalizing t with
  | nil => rfl
  | cons b args ih => exact ih (.ap t b)

/-- A substitution after another one is a substitution. -/
theorem subst_subst (f g f' g' : Nat → Ty) (t : Ty) :
    subst f' g' (subst f g t) = subst (fun v => subst f' g' (f v)) (fun n => subst f' g' (g n)) t := by
  induction t with
  | var v => simp
  | gen n => simp
  | con c => simp
  | ap f a hf ha => simp [hf, ha]
  | nat n => simp
  | tuple ts ih =>
      simp only [subst_tuple, List.map_map, tuple.injEq]
      exact List.map_congr_left ih

theorem subst_var_gen (t : Ty) : subst .var .gen t = t := by
  induction t with
  | var v => simp
  | gen n => simp
  | con c => simp
  | ap f a hf ha => simp [hf, ha]
  | nat n => simp
  | tuple ts ih =>
      rw [subst_tuple, List.map_congr_left ih, List.map_id']

/-! ### Variables that occur -/

/-- What a substitution replaces. -/
inductive Leaf
  | var (id : Nat)
  | gen (index : Nat)

/-- What takes the place of a leaf. -/
def Leaf.subst (onVar onGen : Nat → Ty) : Leaf → Ty
  | .var v => onVar v
  | .gen n => onGen n

/-- The leaf occurs in the type. -/
inductive Occurs (x : Leaf) : Ty → Prop
  | leaf : Occurs x (x.subst .var .gen)
  | fn {f a : Ty} (h : Occurs x f) : Occurs x (.ap f a)
  | arg {f a : Ty} (h : Occurs x a) : Occurs x (.ap f a)
  | elem {t : Ty} {ts : List Ty} (ht : t ∈ ts) (h : Occurs x t) : Occurs x (.tuple ts)

section Occurs

variable {x : Leaf} {v n : Nat} {f a : Ty} {ts : List Ty} {c : Tycon}

@[simp] theorem occurs_var : Occurs x (.var v) ↔ x = .var v := by
  constructor
  · generalize hu : Ty.var v = u
    rintro (_ | _ | _ | _) <;> cases x <;> simp_all [Leaf.subst]
  · rintro rfl
    exact .leaf

@[simp] theorem occurs_gen : Occurs x (.gen n) ↔ x = .gen n := by
  constructor
  · generalize hu : Ty.gen n = u
    rintro (_ | _ | _ | _) <;> cases x <;> simp_all [Leaf.subst]
  · rintro rfl
    exact .leaf

@[simp] theorem not_occurs_con : ¬ Occurs x (.con c) := by
  generalize hu : Ty.con c = u
  rintro (_ | _ | _ | _) <;> cases x <;> simp_all [Leaf.subst]

@[simp] theorem not_occurs_nat : ¬ Occurs x (.nat n) := by
  generalize hu : Ty.nat n = u
  rintro (_ | _ | _ | _) <;> cases x <;> simp_all [Leaf.subst]

@[simp] theorem occurs_ap : Occurs x (.ap f a) ↔ Occurs x f ∨ Occurs x a := by
  constructor
  · generalize hu : Ty.ap f a = u
    rintro (_ | _ | _ | _) <;> cases x <;> simp_all [Leaf.subst]
  · exact fun h => h.elim .fn .arg

@[simp] theorem occurs_tuple : Occurs x (.tuple ts) ↔ ∃ t ∈ ts, Occurs x t := by
  constructor
  · generalize hu : Ty.tuple ts = u
    rintro (_ | _ | _ | ⟨ht, h⟩) <;> cases x <;> simp_all [Leaf.subst]
    · exact ⟨_, ht, h⟩
    · exact ⟨_, ht, h⟩
  · rintro ⟨t, ht, h⟩
    exact .elem ht h

@[simp] theorem occurs_func {dom rng : Ty} :
    Occurs x (.func dom rng) ↔ Occurs x dom ∨ Occurs x rng := by
  simp [func]

end Occurs

/-- A substitution acts through the leaves that occur. -/
theorem subst_congr {f g f' g' : Nat → Ty} {t : Ty}
    (h : ∀ x, Occurs x t → x.subst f g = x.subst f' g') : subst f g t = subst f' g' t := by
  induction t with
  | var v => simpa [Leaf.subst] using h (.var v)
  | gen n => simpa [Leaf.subst] using h (.gen n)
  | con c => simp
  | ap a b ha hb => rw [subst_ap, subst_ap, ha fun x hx => h x (.fn hx), hb fun x hx => h x (.arg hx)]
  | nat n => simp
  | tuple ts ih =>
      rw [subst_tuple, subst_tuple]
      congr 1
      exact List.map_congr_left fun t ht => ih t ht fun x hx => h x (.elem ht hx)

/-- The leaves of a type after a substitution are those of what took the place of its leaves. -/
theorem occurs_subst {f g : Nat → Ty} {t : Ty} {x : Leaf} :
    Occurs x (subst f g t) ↔ ∃ y, Occurs y t ∧ Occurs x (y.subst f g) := by
  induction t with
  | var v => simp [Leaf.subst]
  | gen n => simp [Leaf.subst]
  | con c => simp
  | ap a b ha hb =>
      simp only [subst_ap, occurs_ap, ha, hb, or_and_right, exists_or]
  | nat n => simp
  | tuple ts ih =>
      simp only [subst_tuple, occurs_tuple, List.mem_map]
      constructor
      · rintro ⟨_, ⟨t, ht, rfl⟩, h⟩
        obtain ⟨y, hy, h⟩ := (ih t ht).mp h
        exact ⟨y, ⟨t, ht, hy⟩, h⟩
      · rintro ⟨y, ⟨t, ht, hy⟩, h⟩
        exact ⟨_, ⟨t, ht, rfl⟩, (ih t ht).mpr ⟨y, hy, h⟩⟩

/-- The collected variables are those collected before and those that occur. -/
theorem mem_addVars {v : Nat} {t : Ty} {acc : List Nat} :
    v ∈ t.addVars acc ↔ v ∈ acc ∨ Occurs (.var v) t := by
  induction t generalizing acc with
  | var w =>
      rw [addVars]
      split
      · rename_i hw
        refine ⟨.inl, fun h => h.elim id fun h => ?_⟩
        obtain rfl : v = w := by simpa using h
        exact hw
      · simp [List.mem_append]
  | gen n => simp [addVars]
  | con c => simp [addVars]
  | ap f a hf ha => rw [addVars, ha, hf, occurs_ap, or_assoc]
  | nat n => simp [addVars]
  | tuple ts ih =>
      rw [addVars, addVarsList_eq_foldl, occurs_tuple]
      induction ts generalizing acc with
      | nil => simp
      | cons t ts ihs =>
          rw [List.foldl_cons, ihs fun t ht => ih t (List.mem_cons_of_mem _ ht),
            ih t List.mem_cons_self]
          simp only [List.mem_cons, exists_eq_or_imp, or_assoc]

theorem nodup_addVars {t : Ty} {acc : List Nat} (h : acc.Nodup) : (t.addVars acc).Nodup := by
  induction t generalizing acc with
  | var w =>
      rw [addVars]
      split
      · exact h
      · rename_i hw
        rw [List.nodup_append]
        refine ⟨h, by simp, fun a ha b hb => ?_⟩
        rw [List.mem_singleton] at hb
        exact fun hab => hw (hb ▸ hab ▸ ha)
  | gen n => simpa [addVars] using h
  | con c => simpa [addVars] using h
  | ap f a hf ha =>
      rw [addVars]
      exact ha (hf h)
  | nat n => simpa [addVars] using h
  | tuple ts ih =>
      rw [addVars, addVarsList_eq_foldl]
      induction ts generalizing acc with
      | nil => exact h
      | cons t ts ihs =>
          rw [List.foldl_cons]
          exact ihs (fun t ht => ih t (List.mem_cons_of_mem _ ht)) (ih t List.mem_cons_self h)

/-! ### Reading through an assignment -/

section MapVars

variable (θ : Nat → Ty)

@[simp] theorem mapVars_var (v : Nat) : (var v).mapVars θ = θ v := subst_var ..
@[simp] theorem mapVars_con (c : Tycon) : (con c).mapVars θ = .con c := subst_con ..

@[simp] theorem mapVars_ap (f a : Ty) : (ap f a).mapVars θ = .ap (f.mapVars θ) (a.mapVars θ) :=
  subst_ap ..

@[simp] theorem mapVars_tuple (ts : List Ty) :
    (tuple ts).mapVars θ = .tuple (ts.map fun t => t.mapVars θ) := subst_tuple ..

@[simp] theorem mapVars_func (dom rng : Ty) :
    (func dom rng).mapVars θ = .func (dom.mapVars θ) (rng.mapVars θ) := subst_func ..

end MapVars

@[simp] theorem mapVars_self (t : Ty) : t.mapVars .var = t := subst_var_gen t

theorem mapVars_mapVars (θ θ' : Nat → Ty) (t : Ty) :
    (t.mapVars θ).mapVars θ' = t.mapVars fun v => (θ v).mapVars θ' := by
  rw [mapVars, mapVars, subst_subst]
  simp only [subst_gen]
  rfl

theorem mapVars_congr {θ θ' : Nat → Ty} {t : Ty} (h : ∀ v, Occurs (.var v) t → θ v = θ' v) :
    t.mapVars θ = t.mapVars θ' := by
  refine subst_congr fun x hx => ?_
  cases x with
  | var v => exact h v hx
  | gen n => rfl

theorem occurs_mapVars {θ : Nat → Ty} {t : Ty} {x : Leaf} :
    Occurs x (t.mapVars θ) ↔
      (∃ v, Occurs (.var v) t ∧ Occurs x (θ v)) ∨ ∃ n, Occurs (.gen n) t ∧ x = .gen n := by
  rw [mapVars, occurs_subst]
  constructor
  · rintro ⟨v | n, hy, hx⟩
    · exact .inl ⟨v, hy, hx⟩
    · exact .inr ⟨n, hy, occurs_gen.mp hx⟩
  · rintro (⟨v, hy, hx⟩ | ⟨n, hy, rfl⟩)
    · exact ⟨.var v, hy, hx⟩
    · exact ⟨.gen n, hy, .leaf⟩

/-! ### Closed types and types over a range of variables -/

/-- No variables, and quantified variables below a number only. -/
def Closed (n : Nat) (t : Ty) : Prop := ∀ x, Occurs x t → ∃ m, m < n ∧ x = .gen m

/-- No quantified variables, and variables from a range of numbers only. -/
def Within (lo hi : Nat) (t : Ty) : Prop := ∀ x, Occurs x t → ∃ v, x = .var v ∧ lo ≤ v ∧ v < hi

section Within

variable {lo hi lo' hi' n : Nat} {t f a : Ty} {ts : List Ty}

theorem Within.mono (h : t.Within lo hi) (hlo : lo' ≤ lo) (hhi : hi ≤ hi') : t.Within lo' hi' := by
  intro x hx
  obtain ⟨v, rfl, h₁, h₂⟩ := h x hx
  exact ⟨v, rfl, by omega, by omega⟩

theorem Within.var (h : t.Within lo hi) {v : Nat} (hv : Occurs (.var v) t) : lo ≤ v ∧ v < hi := by
  obtain ⟨w, hw, h⟩ := h _ hv
  cases hw
  exact h

theorem Within.not_gen (h : t.Within lo hi) (m : Nat) : ¬ Occurs (.gen m) t := by
  intro hm
  obtain ⟨w, hw, -⟩ := h _ hm
  cases hw

theorem within_var {v : Nat} : (Ty.var v).Within lo hi ↔ lo ≤ v ∧ v < hi := by
  constructor
  · exact fun h => h.var .leaf
  · rintro h x hx
    exact ⟨v, occurs_var.mp hx, h⟩

theorem within_con (c : Tycon) : (Ty.con c).Within lo hi := fun _ h => absurd h not_occurs_con

theorem within_ap : (Ty.ap f a).Within lo hi ↔ f.Within lo hi ∧ a.Within lo hi := by
  simp only [Within, occurs_ap, or_imp, forall_and]

theorem within_tuple : (Ty.tuple ts).Within lo hi ↔ ∀ t ∈ ts, t.Within lo hi := by
  constructor
  · exact fun h t ht x hx => h x (.elem ht hx)
  · rintro h x hx
    obtain ⟨t, ht, hx⟩ := occurs_tuple.mp hx
    exact h t ht x hx

theorem within_func {dom rng : Ty} :
    (Ty.func dom rng).Within lo hi ↔ dom.Within lo hi ∧ rng.Within lo hi := by
  rw [func, within_ap, within_ap]
  exact ⟨fun h => ⟨h.1.2, h.2⟩, fun h => ⟨⟨within_con _, h.1⟩, h.2⟩⟩

theorem Within.mapVars {θ : Nat → Ty} (h : t.Within lo hi)
    (hθ : ∀ v, Occurs (.var v) t → (θ v).Within lo' hi') : (t.mapVars θ).Within lo' hi' := by
  intro x hx
  rcases occurs_mapVars.mp hx with ⟨v, hv, hx⟩ | ⟨n, hn, -⟩
  · exact hθ v hv x hx
  · exact absurd hn (h.not_gen n)

theorem Closed.not_var (h : t.Closed n) (v : Nat) : ¬ Occurs (.var v) t := by
  intro hv
  obtain ⟨m, -, hm⟩ := h _ hv
  cases hm

theorem Closed.gen (h : t.Closed n) {m : Nat} (hm : Occurs (.gen m) t) : m < n := by
  obtain ⟨k, hk, e⟩ := h _ hm
  cases e
  exact hk

theorem Closed.mapVars (h : t.Closed n) (θ : Nat → Ty) : t.mapVars θ = t := by
  exact (mapVars_congr fun v hv => absurd hv (h.not_var v)).trans (mapVars_self t)

theorem closed_tuple : (Ty.tuple ts).Closed n ↔ ∀ t ∈ ts, t.Closed n := by
  constructor
  · exact fun h t ht x hx => h x (.elem ht hx)
  · rintro h x hx
    obtain ⟨t, ht, hx⟩ := occurs_tuple.mp hx
    exact h t ht x hx

theorem closed_ap : (Ty.ap f a).Closed n ↔ f.Closed n ∧ a.Closed n := by
  simp only [Closed, occurs_ap, or_imp, forall_and]

theorem isGround_iff_closed (t : Ty) : t.isGround = true ↔ t.Closed 0 := by
  induction t using Ty.induct with
  | var v =>
      refine ⟨fun h => (nomatch h), fun h => ?_⟩
      exact absurd (occurs_var.mpr rfl) (h.not_var v)
  | gen m =>
      refine ⟨fun h => (nomatch h), fun h => ?_⟩
      exact absurd (h.gen (occurs_gen.mpr rfl)) (Nat.not_lt_zero m)
  | con c => exact ⟨fun _ _ hx => absurd hx not_occurs_con, fun _ => rfl⟩
  | nat m => exact ⟨fun _ _ hx => absurd hx not_occurs_nat, fun _ => rfl⟩
  | ap f a hf ha => rw [isGround, Bool.and_eq_true, hf, ha, closed_ap]
  | tuple ts hts =>
      rw [isGround, isGroundList_eq_all, List.all_eq_true, closed_tuple]
      exact forall₂_congr fun t ht => hts t ht

theorem Closed.mono (h : t.Closed n) {m : Nat} (hm : n ≤ m) : t.Closed m := by
  intro x hx
  obtain ⟨k, hk, e⟩ := h x hx
  exact ⟨k, by omega, e⟩

end Within

end Ty

end Mil
