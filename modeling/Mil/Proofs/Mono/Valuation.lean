import Mil.Mono.Fill
import Mil.Proofs.Ty.Matching

/-!
The types at which a copy is made. Replacing the generic variables of a definition and taking all
other variables at their defaults reads every type through one valuation of the variables, and this
valuation solves the store: so a derivation of the definition can be read at the types of the copy.

The replacement comes from matching the declared type against an instance, and the declared type at
what was matched is the instance. So the valuation of a copy reads the working type of its source as
the instance that was asked for.
-/

namespace Mil

namespace Ty

variable {t u : Ty} {θ : Nat → Ty} {lo hi : Nat}

/-- What is read through closed types is closed. -/
theorem Within.closed_mapVars (h : t.Within lo hi) (hθ : ∀ v, (θ v).Closed 0) :
    (t.mapVars θ).Closed 0 := by
  intro x hx
  rcases occurs_mapVars.mp hx with ⟨v, -, hx⟩ | ⟨m, hm, -⟩
  · exact hθ v x hx
  · exact absurd hm (h.not_gen m)

theorem closed_defaultOf (k : Kind) : (defaultOf k).Closed 0 := by
  cases k with
  | star => exact fun _ hx => absurd hx not_occurs_con
  | nat => exact fun _ hx => absurd hx not_occurs_nat
  | tuple => exact closed_tuple.mpr fun _ ht => nomatch ht

end Ty

namespace Slots

/-- All slots that are filled hold closed types. -/
def AllClosed (slots : Slots) : Prop := ∀ u, some u ∈ slots → u.Closed 0

theorem allClosed_ofKinds (kinds : List Kind) : (ofKinds kinds).AllClosed := by
  intro u hu
  obtain ⟨_, -, hnone⟩ := List.mem_map.mp hu
  cases hnone

/-- The types of the slots; for an empty one the default of its variable. -/
def typesFor (s : Store) (vars : List Nat) (slots : Slots) : List Ty :=
  (vars.zip slots).map fun x => x.2.getD (Ty.defaultOf (s.kindOf x.1))

theorem agreesWith_typesFor (s : Store) {vars : List Nat} {slots : Slots}
    (h : vars.length = slots.length) : Ty.AgreesWith slots (slots.typesFor s vars) := by
  refine ⟨by simp [typesFor, h], fun m u hu => ?_⟩
  obtain ⟨hm, hget⟩ := List.getElem?_eq_some_iff.mp hu
  have hm' : m < vars.length := h ▸ hm
  have hzip : (vars.zip slots)[m]? = some (vars[m], some u) :=
    List.getElem?_zip_eq_some.mpr ⟨List.getElem?_eq_getElem hm', hu⟩
  rw [typesFor, List.getElem?_map, hzip]
  rfl

end Slots

namespace Ty

mutual

/-- Matching with a closed type fills slots with closed types. -/
theorem matchInto_closed : (p t : Ty) → {slots : Slots} → t.Closed 0 → slots.AllClosed →
    (matchInto p t slots).2.AllClosed
  | .gen n, t, slots, ht, h => by
    rw [matchInto]
    split
    · exact h
    · intro u hu
      rcases List.mem_or_eq_of_mem_set hu with hu | hu
      · exact h u hu
      · cases hu
        exact ht
    · exact h
  | .ap f a, t, slots, ht, h => by
    cases t with
    | ap g b =>
        obtain ⟨hg, hb⟩ := closed_ap.mp ht
        have hfun := matchInto_closed f g hg h
        rw [matchInto]
        split
        · rename_i slots₁ hf
          rw [hf] at hfun
          exact matchInto_closed a b hb hfun
        · exact hfun
    | _ => exact h
  | .tuple ps, t, slots, ht, h => by
    cases t with
    | tuple ts =>
        rw [matchInto]
        split
        · exact h
        · exact matchList_closed ps ts (closed_tuple.mp ht) h
    | _ => exact h
  | .var v, t, slots, ht, h => h
  | .con c, t, slots, ht, h => h
  | .nat n, t, slots, ht, h => h

theorem matchList_closed : (ps ts : List Ty) → {slots : Slots} → (∀ t ∈ ts, t.Closed 0) →
    slots.AllClosed → (matchList ps ts slots).2.AllClosed
  | [], ts, slots, _, h => h
  | p :: ps, [], slots, _, h => h
  | p :: ps, t :: ts, slots, hts, h => by
    have hhead := matchInto_closed p t (hts t (.head _)) h
    rw [matchList]
    split
    · rename_i slots₁ hp
      rw [hp] at hhead
      exact matchList_closed ps ts (fun t ht => hts t (.tail _ ht)) hhead
    · exact hhead

end

end Ty

/-! ### Valuations -/

namespace Mono

open Ty (Occurs)

/-- What a variable stands for in a copy: what takes its place, and defaults for the rest. -/
def valuation (s : Store) (sub : TySubst) (v : Nat) : Ty := s.ground (s.applySubst sub (.var v))

/-- All types that take the place of variables are closed. -/
def ClosedSubst (sub : TySubst) : Prop := ∀ x ∈ sub, x.2.Closed 0

section Valuation

variable {s : Store} {lo : Nat} {sub : TySubst}

theorem ground_applySubst (h : s.Regular lo) (sub : TySubst) (t : Ty) :
    s.ground (s.applySubst sub t) = t.mapVars (valuation s sub) := by
  unfold valuation
  simp only [Store.ground, Store.applySubst, h.resolve_eq, Ty.mapVars_mapVars, Ty.mapVars_var]

/-- A copy reads a bound variable as it reads what the variable is bound to. -/
theorem solves_valuation (h : s.Regular lo) (sub : TySubst) : s.Solves (valuation s sub) := by
  intro v b hb
  rw [← ground_applySubst h]
  unfold valuation Store.applySubst
  rw [h.resolve_eq, h.resolve_eq, Ty.mapVars_var, h.reading_of_some hb]

theorem ground_of_closed {t : Ty} (ht : t.Closed 0) : s.ground t = t := by
  rw [Store.ground, ht.resolve, ht.mapVars]

theorem valuation_of_none {v : Nat} (h : s.Regular lo) (hv : s.binding? v = none) :
    valuation s sub v = s.ground ((sub.lookup v).getD (.var v)) := by
  unfold valuation Store.applySubst
  rw [h.resolve_eq, Ty.mapVars_var, Store.reading_of_none hv, Ty.mapVars_var]

theorem not_occurs_gen_reading (h : s.Regular 0) (v m : Nat) : ¬ Occurs (.gen m) (s.reading v) := by
  by_cases hv : v < s.cells.size
  · exact (h.reading_within (Nat.zero_le v) hv).not_gen m
  · rw [Store.reading_of_none (Store.binding?_eq_none_of_size_le (Nat.not_lt.mp hv))]
    intro hm
    cases Ty.occurs_var.mp hm

theorem closed_ground (h : s.Regular 0) {t : Ty} (ht : ∀ m, ¬ Occurs (.gen m) t) :
    (s.ground t).Closed 0 := by
  rw [Store.ground, h.resolve_eq, Ty.mapVars_mapVars]
  intro x hx
  rcases Ty.occurs_mapVars.mp hx with ⟨v, -, hx⟩ | ⟨m, hm, -⟩
  · rcases Ty.occurs_mapVars.mp hx with ⟨w, -, hx⟩ | ⟨m, hm, -⟩
    · exact Ty.closed_defaultOf _ x hx
    · exact absurd hm (not_occurs_gen_reading h v m)
  · exact absurd hm (ht m)

theorem closed_valuation (h : s.Regular 0) (hsub : ClosedSubst sub) (v : Nat) :
    (valuation s sub v).Closed 0 := by
  refine closed_ground h fun m hm => ?_
  rw [Store.applySubst, h.resolve_eq, Ty.mapVars_var] at hm
  rcases Ty.occurs_mapVars.mp hm with ⟨w, -, hm⟩ | ⟨m', hm', -⟩
  · cases hw : sub.lookup w with
    | none =>
        rw [hw] at hm
        cases Ty.occurs_var.mp hm
    | some t =>
        rw [hw] at hm
        obtain ⟨before, after, heq, -⟩ := List.lookup_eq_some_iff.mp hw
        have hmem : (w, t) ∈ sub := by
          rw [heq]
          simp
        exact absurd ((hsub _ hmem).gen hm) (Nat.not_lt_zero m)
  · exact not_occurs_gen_reading h v m' hm'

end Valuation

/-! ### The valuation of an instance -/

section Instance

variable {s : Store} {lo : Nat} {vars : List Nat} {slots : Slots} {sub : TySubst}

theorem specialize?_eq (h : vars.length = slots.length) :
    slots.specialize? s vars = some (vars.zip (slots.typesFor s vars)) := by
  rw [Slots.specialize?, if_neg (not_not.mpr h), Slots.typesFor]
  refine congrArg some (List.ext_getElem (by simp [h]) fun n hn hn' => ?_)
  simp

theorem lookup_zip_of_nodup {types : List Ty} (hnodup : vars.Nodup) {n : Nat}
    (hn : n < vars.length) (hn' : n < types.length) (rest : TySubst) :
    (vars.zip types ++ rest).lookup vars[n] = some types[n] := by
  induction vars generalizing types n with
  | nil => cases hn
  | cons v vars ih =>
      cases types with
      | nil => cases hn'
      | cons t types =>
          obtain ⟨hv, hnodup⟩ := List.nodup_cons.mp hnodup
          rw [List.zip_cons_cons, List.cons_append, List.lookup_cons]
          cases n with
          | zero => simp
          | succ n =>
              have hn : n < vars.length := Nat.lt_of_succ_lt_succ hn
              have hne : (vars[n] == v) = false :=
                beq_eq_false_iff_ne.mpr fun heq => hv (heq ▸ List.getElem_mem hn)
              rw [List.getElem_cons_succ, hne]
              exact ih hnodup hn (Nat.lt_of_succ_lt_succ hn')

theorem closed_typesFor (h : slots.AllClosed) : ∀ t ∈ slots.typesFor s vars, t.Closed 0 := by
  intro t ht
  obtain ⟨⟨v, slot⟩, hmem, rfl⟩ := List.mem_map.mp ht
  cases slot with
  | none => exact Ty.closed_defaultOf _
  | some u => exact h u (List.of_mem_zip hmem).2

/-- The generic variables stand for the types of the slots. -/
theorem map_valuation (hreg : s.Regular lo) (hlen : vars.length = slots.length)
    (hnodup : vars.Nodup) (hfree : ∀ v ∈ vars, s.binding? v = none) (hclosed : slots.AllClosed)
    (rest : TySubst) :
    vars.map (valuation s (vars.zip (slots.typesFor s vars) ++ rest)) = slots.typesFor s vars := by
  have hlen' : (slots.typesFor s vars).length = vars.length := by simp [Slots.typesFor, hlen]
  refine List.ext_getElem (by rw [List.length_map, hlen']) fun n hn hn' => ?_
  rw [List.length_map] at hn
  rw [List.getElem_map, valuation_of_none hreg (hfree _ (List.getElem_mem hn)),
    lookup_zip_of_nodup hnodup hn hn', Option.getD_some,
    ground_of_closed (closed_typesFor hclosed _ (List.getElem_mem hn'))]

/-- If matching what types were generalised to has led to the slots, the types are read as what they
were matched with. -/
theorem map_mapVars_of_match {parts inst : List Ty} {θ : Nat → Ty} (hreg : s.Regular lo)
    (hfits : s.Fits lo parts) (hθ : s.Solves θ)
    (hvars : ∀ t ∈ parts, ∀ v, Occurs (.var v) (s.resolve t) → v ∈ vars)
    (hlen : vars.length = slots.length) (htypes : vars.map θ = slots.typesFor s vars)
    (hsound : ∀ types, Ty.AgreesWith slots types →
      (parts.map fun t => (s.resolve t).generalize vars).map (Ty.instantiate types) = inst) :
    parts.map (Ty.mapVars θ) = inst := by
  rw [← hsound _ (slots.agreesWith_typesFor s hlen), List.map_map]
  refine List.map_congr_left fun t ht => ?_
  rw [Function.comp_apply, ← htypes,
    Ty.instantiate_generalize (hreg.resolve_within (hfits t ht)).not_gen (hvars t ht) θ, hθ.resolve]

end Instance

end Mono

end Mil

/-!
The substitution that makes a definition into an instance. A definition is quantified over the
variables of its working type: the variable at a position becomes the quantified variable of that
position. Matching the quantified type with an instance finds the type of each position, and the
substitution puts it in place of the variable at the position. So it makes the working type into the
instance, and every type over the variables into one without variables.
-/

namespace Mil

open Ty (Occurs)

namespace Store

variable {s : Store} {vars : List Nat} {types parts inst : List Ty} {t : Ty}

theorem resolve_generalize (hnone : ∀ m, ¬ Occurs (.gen m) (s.resolve t))
    (hvars : ∀ v, Occurs (.var v) (s.resolve t) → v ∈ vars) :
    s.resolve ((s.resolve t).generalize vars) = (s.resolve t).generalize vars :=
  (Ty.closed_generalize hnone hvars).resolve s

/-- The quantified type with its own variables in place is the type. -/
theorem instantiate_generalize_vars (hnone : ∀ m, ¬ Occurs (.gen m) (s.resolve t))
    (hvars : ∀ v, Occurs (.var v) (s.resolve t) → v ∈ vars) :
    (s.resolve ((s.resolve t).generalize vars)).instantiate (vars.map .var) = s.resolve t := by
  rw [resolve_generalize hnone hvars, Ty.instantiate_generalize hnone hvars, Ty.mapVars_self]

/-- Pairing variables with types puts each type in place of the variable at its position. -/
theorem map_lookup_zip (hnodup : vars.Nodup) (hlen : types.length = vars.length) :
    (vars.map fun v => ((vars.zip types).lookup v).getD (.var v)) = types := by
  refine List.ext_getElem (by rw [List.length_map, hlen]) fun n hn hn' => ?_
  rw [List.length_map] at hn
  have hlookup := Mono.lookup_zip_of_nodup hnodup hn hn' []
  rw [List.append_nil] at hlookup
  rw [List.getElem_map, hlookup, Option.getD_some]

theorem applySubst_zip (hnodup : vars.Nodup) (hlen : types.length = vars.length)
    (hnone : ∀ m, ¬ Occurs (.gen m) (s.resolve t))
    (hvars : ∀ v, Occurs (.var v) (s.resolve t) → v ∈ vars) :
    s.applySubst (vars.zip types) t = ((s.resolve t).generalize vars).instantiate types := by
  conv_rhs => rw [← map_lookup_zip hnodup hlen, Ty.instantiate_generalize hnone hvars]
  rfl

theorem isGround_of_closed (ht : t.Closed 0) : s.isGround t = true := by
  rw [isGround, ht.resolve, Ty.isGround_iff_closed]
  exact ht

theorem isGround_applySubst_zip (hnodup : vars.Nodup) (hlen : types.length = vars.length)
    (htypes : ∀ u ∈ types, u.Closed 0) (hnone : ∀ m, ¬ Occurs (.gen m) (s.resolve t))
    (hvars : ∀ v, Occurs (.var v) (s.resolve t) → v ∈ vars) :
    s.isGround (s.applySubst (vars.zip types) t) = true := by
  refine isGround_of_closed fun x hx => ?_
  rcases Ty.occurs_mapVars.mp hx with ⟨v, hv, hx⟩ | ⟨m, hm, -⟩
  · have hmem := List.mem_map_of_mem
      (f := fun v => ((vars.zip types).lookup v).getD (.var v)) (hvars v hv)
    rw [map_lookup_zip hnodup hlen] at hmem
    exact htypes _ hmem x hx
  · exact absurd hm (hnone m)

/-- What it means that the outcome of matching, for types that are quantified over `vars`, leads from
the types to the instance: there is a substitution, it makes the types into those of the instance, and
every type over `vars` into one without variables. -/
def Specializes (s : Store) (vars : List Nat) (parts inst : List Ty) (r : Bool × Slots) : Prop :=
  (∀ t ∈ inst, s.isGround t = true) → r.1 = true →
    ∃ sub, r.2.specialize? s vars = some sub ∧ s.EqualAll (parts.map (s.applySubst sub)) inst ∧
      ∀ t, s.GensBelow 0 [t] → s.varsOf t ⊆ vars → s.isGround (s.applySubst sub t) = true

theorem GensBelow.not_occurs (h : s.GensBelow 0 parts) (ht : t ∈ parts) (m : Nat) :
    ¬ Occurs (.gen m) (s.resolve t) :=
  fun hm => Nat.not_lt_zero m (h t ht m hm)

/-- Matching the quantified types with as many types of an instance. -/
theorem specializes_matchList (hs : s.Ranked) (hnone : s.GensBelow 0 parts)
    (hvars : ∀ t ∈ parts, ∀ v, Occurs (.var v) (s.resolve t) → v ∈ vars) (hnodup : vars.Nodup)
    (hlen : parts.length = inst.length) :
    s.Specializes vars parts inst (Ty.matchList
      ((parts.map fun t => (s.resolve t).generalize vars).map s.resolve) (inst.map s.resolve)
      (Slots.ofKinds (s.kindsOf vars))) := by
  intro hground hmatch
  obtain ⟨slots, hslots⟩ : ∃ slots, Ty.matchList
      ((parts.map fun t => (s.resolve t).generalize vars).map s.resolve) (inst.map s.resolve)
      (Slots.ofKinds (s.kindsOf vars)) = (true, slots) := ⟨_, Prod.ext hmatch rfl⟩
  rw [hslots]
  obtain ⟨hle, hsound⟩ := Ty.matchList_sound _ _ (by simpa using hlen) hslots
  have hsize : vars.length = slots.length := by
    rw [hle.1, Slots.ofKinds, List.length_map, kindsOf, List.length_map]
  have hclosed : slots.AllClosed := by
    have hfound := Ty.matchList_closed
      ((parts.map fun t => (s.resolve t).generalize vars).map s.resolve) (inst.map s.resolve)
      (fun u hu => ?_) (Slots.allClosed_ofKinds (s.kindsOf vars))
    · rwa [hslots] at hfound
    · obtain ⟨t, ht, rfl⟩ := List.mem_map.mp hu
      exact (Ty.isGround_iff_closed _).mp (hground t ht)
  have hsize' : (slots.typesFor s vars).length = vars.length := by
    rw [← (slots.agreesWith_typesFor s hsize).1, hsize]
  refine ⟨_, Mono.specialize?_eq hsize, equalAll_iff.mpr ?_, fun t ht hsub => ?_⟩
  · have hinst := hsound _ (slots.agreesWith_typesFor s hsize)
    rw [List.map_map, List.map_map] at hinst
    have hparts : parts.map (s.applySubst (vars.zip (slots.typesFor s vars))) =
        inst.map s.resolve := by
      refine Eq.trans (List.map_congr_left fun t ht => ?_) hinst
      rw [applySubst_zip hnodup hsize' (hnone.not_occurs ht) (hvars t ht), Function.comp_apply,
        Function.comp_apply, resolve_generalize (hnone.not_occurs ht) (hvars t ht)]
    rw [hparts, List.map_map]
    exact List.map_congr_left fun t _ => hs.resolve_resolve t
  · exact isGround_applySubst_zip hnodup hsize' (Mono.closed_typesFor hclosed)
      (ht.not_occurs (.head _)) fun v hv => hsub (mem_varsOf.mpr hv)

/-- A type, a block type and an allocation type, each quantified over its own variables. With the
variables in place of the quantified ones it is what it was, and what matching finds for an instance
leads to the instance. -/
theorem specializes_matchInto_generalize (hs : s.Ranked) :
    (∀ t : Ty, s.GensBelow 0 [t] →
      (s.resolve (Scheme.generalize s t (s.varsOf t)).type).instantiate ((s.varsOf t).map .var) =
        s.resolve t ∧
      ∀ inst : Ty, s.Specializes (s.varsOf t) [t] [inst]
        (s.matchInto (Scheme.generalize s t (s.varsOf t)).type inst
          (Slots.ofKinds (Scheme.generalize s t (s.varsOf t)).kinds))) ∧
    (∀ b : BlockType, b.kinds = [] → s.GensBelow 0 b.parts →
      (b.generalize s (b.addVars s [])).instantiateWith s ((b.addVars s []).map .var) = b.resolve s ∧
      ∀ inst : BlockType, s.Specializes (b.addVars s []) b.parts inst.parts
        ((b.generalize s (b.addVars s [])).matchInto s inst
          (Slots.ofKinds (b.generalize s (b.addVars s [])).kinds))) ∧
    ∀ a : AllocType, a.kinds = [] → s.GensBelow 0 a.parts →
      (a.generalize s (a.addVars s [])).instantiateWith s ((a.addVars s []).map .var) = a.resolve s ∧
      ∀ inst : AllocType, s.Specializes (a.addVars s []) a.parts inst.parts
        ((a.generalize s (a.addVars s [])).matchInto s inst
          (Slots.ofKinds (a.generalize s (a.addVars s [])).kinds)) := by
  refine ⟨fun t hnone => ?_, fun b hkinds hnone => ?_, fun a hkinds hnone => ?_⟩
  · have hvars : ∀ u ∈ [t], ∀ v, Occurs (.var v) (s.resolve u) → v ∈ s.varsOf t := by
      simp [mem_varsOf]
    refine ⟨instantiate_generalize_vars (hnone.not_occurs (.head _)) (hvars t (.head _)),
      fun inst => ?_⟩
    rw [matchInto_eq]
    exact specializes_matchList hs hnone hvars (Ty.nodup_addVars .nil) rfl
  · have hvars : ∀ t ∈ b.parts, ∀ v, Occurs (.var v) (s.resolve t) → v ∈ b.addVars s [] :=
      fun t ht v hv => BlockType.mem_addVars.mpr (.inr ⟨t, ht, hv⟩)
    refine ⟨?_, fun inst => ?_⟩
    · rw [BlockType.resolve, hkinds]
      exact congrArg₂ (BlockType.mk [])
        (instantiate_generalize_vars (hnone.not_occurs (.head _)) (hvars _ (.head _)))
        (instantiate_generalize_vars (hnone.not_occurs (.tail _ (.head _)))
          (hvars _ (.tail _ (.head _))))
    · rw [BlockType.matchInto_eq]
      exact specializes_matchList hs hnone hvars (b.nodup_addVars .nil) rfl
  · have hvars : ∀ t ∈ a.parts, ∀ v, Occurs (.var v) (s.resolve t) → v ∈ a.addVars s [] :=
      fun t ht v hv => AllocType.mem_addVars.mpr (.inr ⟨t, ht, hv⟩)
    have hback : ∀ t ∈ a.parts,
        (s.resolve ((s.resolve t).generalize (a.addVars s []))).instantiate
          ((a.addVars s []).map .var) = s.resolve t :=
      fun t ht => instantiate_generalize_vars (hnone.not_occurs ht) (hvars t ht)
    refine ⟨?_, fun inst hground hmatch => ?_⟩
    · rw [AllocType.resolve, hkinds, AllocType.instantiateWith, AllocType.generalize]
      simp only [AllocType.mapTypes, List.map_map]
      rw [hback _ (List.mem_append_right _ (.head _))]
      refine congrArg (AllocType.mk [] · _) (List.map_congr_left fun t ht => ?_)
      exact hback t (List.mem_append_left _ ht)
    · have hfields : a.stored.length = inst.stored.length := by
        simpa [AllocType.generalize, AllocType.mapTypes] using
          AllocType.length_stored_of_matchInto hmatch
      rw [AllocType.matchInto_eq (by simpa [AllocType.generalize, AllocType.mapTypes] using hfields),
        AllocType.parts_generalize] at hmatch ⊢
      exact specializes_matchList hs hnone hvars (a.nodup_addVars .nil)
        (by simp [AllocType.parts, hfields]) hground hmatch

/-- One variable that is bound to a tuple of another one, and two that are unbound. -/
def chained : Store := ⟨#[⟨.star, some (.tuple [.var 2])⟩, ⟨.star, none⟩, ⟨.star, none⟩]⟩

theorem ranked_chained : chained.Ranked := by
  refine ⟨fun v => if v = 0 then 1 else 0, fun v b hb w hw => ?_⟩
  match v, hb with
  | 0, rfl =>
      obtain rfl : w = 2 := by simpa using hw
      decide
  | 1, hb => cases hb
  | 2, hb => cases hb
  | v + 3, hb => cases hb

/-- A working type with a variable that occurs twice and one that occurs through a binding. -/
def working : BlockType := ⟨[], .tuple [.var 1, .var 0, .var 1], .tuple [.var 2]⟩

theorem gensBelow_working : chained.GensBelow 0 working.parts := by
  refine List.forall_mem_cons.mpr ⟨fun m hm => ?_, List.forall_mem_cons.mpr ⟨fun m hm => ?_, nofun⟩⟩
  · change Occurs (.gen m) (.tuple [.var 1, .tuple [.var 2], .var 1]) at hm
    simp at hm
  · change Occurs (.gen m) (.tuple [.var 2]) at hm
    simp at hm

theorem specializes_matchInto_generalize_working :
    (working.generalize chained [1, 2]).instantiateWith chained [.var 1, .var 2] =
        working.resolve chained ∧
      ∃ sub, Slots.specialize? chained [1, 2] [some .flag, some .word] = some sub ∧
        chained.EqualAll (working.parts.map (chained.applySubst sub))
          [.tuple [.flag, .tuple [.word], .flag], .tuple [.word]] ∧
        chained.isGround (chained.applySubst sub (.tuple [.var 0, .var 1])) = true := by
  obtain ⟨-, hblock, -⟩ := specializes_matchInto_generalize ranked_chained
  obtain ⟨hback, hmatch⟩ := hblock working rfl gensBelow_working
  obtain ⟨sub, hsub, hequal, hground⟩ := hmatch
    ⟨[], .tuple [.flag, .tuple [.word], .flag], .tuple [.word]⟩
    (List.forall_mem_cons.mpr ⟨rfl, List.forall_mem_cons.mpr ⟨rfl, nofun⟩⟩) rfl
  refine ⟨hback, sub, hsub, hequal, hground _ ?_ (by decide)⟩
  refine List.forall_mem_cons.mpr ⟨fun m hm => ?_, nofun⟩
  change Occurs (.gen m) (.tuple [.tuple [.var 2], .var 1]) at hm
  simp at hm

end Store

end Mil
