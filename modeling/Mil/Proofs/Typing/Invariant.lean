import Mathlib.Logic.Function.Basic
import Mil.Proofs.Typing.Stage

/-!
The invariant of the check gives every definition a stage. A step of the check moves one definition to
its next stage: the step touches only what belongs to that definition, and all others see a store
that is refined and derivations that stay derivations.
-/

namespace Mil

/-- Whatever can be seen through one interface can be seen through the other. -/
def Interface.Le (s : Store) (i i' : Interface) : Prop := ∀ inst, i.SeenAs s inst → i'.SeenAs s inst

theorem Interface.Le.refl (s : Store) (i : Interface) : i.Le s i := fun _ h => h

theorem Interface.le_of_fresh {s : Store} {i i' : Interface} (hw : i.working = none)
    (hd : i'.declared = i.declared) : i.Le s i' := by
  intro inst h
  unfold Interface.SeenAs at h ⊢
  rw [hd]
  split at h
  · exact h
  · rw [hw] at h
    cases h

/-- The names of a definition can be seen at no fewer types after a change of its body. -/
inductive DefnBody.Opens (s : Store) : DefnBody → DefnBody → Prop
  | block {b b' : Block} (h : b.interface.Le s b'.interface) : Opens s (.block b) (.block b')
  | closure {k k' : Closure} (h : k.interface.Le s k'.interface) : Opens s (.closure k) (.closure k')
  | top {t t' : TopLevel} (h : ∀ (index : Nat) (l : TopName), t.lhs[index]? = some l →
      ∃ l' : TopName, t'.lhs[index]? = some l' ∧ l.interface.Le s l'.interface) :
      Opens s (.top t) (.top t')
  | external {e : External} : Opens s (.external e) (.external e)

theorem DefnBody.Opens.value {s : Store} {b b' : DefnBody} (h : b.Opens s b') {index : Nat}
    {i : Interface} {inst : List Ty} (hi : b.valueInterface? index = some i)
    (hseen : i.SeenAs s inst) :
    ∃ i', b'.valueInterface? index = some i' ∧ i'.SeenAs s inst := by
  cases h with
  | block h => cases hi
  | closure h => cases hi
  | top h =>
      obtain ⟨l, hl, rfl⟩ := Option.map_eq_some_iff.mp hi
      obtain ⟨l', hl', hle⟩ := h index l hl
      exact ⟨l'.interface, by rw [valueInterface?, hl']; rfl, hle _ hseen⟩
  | external => exact ⟨i, hi, hseen⟩

theorem Ty.eq_tuple_of_elems? {t : Ty} {ts : List Ty} (h : t.elems? = some ts) : t = .tuple ts := by
  cases t <;> cases h
  rfl

theorem Ty.eq_func_of_asFunc? {t dom rng : Ty} (h : t.asFunc? = some (dom, rng)) :
    t = .func dom rng := by
  unfold asFunc? at h
  split at h
  · cases h
    rfl
  · cases h

theorem DefnBody.SameShape.temps {b b' : DefnBody} (h : SameShape b b') : b'.temps = b.temps := by
  rw [DefnBody.temps, DefnBody.temps, h.inputs, h.binders, h.atoms]

namespace Typing

/-- A change of one body, of the store and of what is recorded keeps derivations. -/
theorem working_le {p p' : Program} {id : DefnId} {d : Defn} {body : DefnBody}
    (hd : p.defns[id]? = some d) (hdefns : p'.defns = (p.setBody id body).defns)
    (hopens : d.body.Opens p'.store body) (hstore : p.store.Extends p'.store)
    (hatoms : ∀ a t, p.atomType a = some t → p'.atomType a = some t) (θ : Nat → Ty) :
    (p.working θ).Le (p'.working θ) := by
  have hget (j : DefnId) : p'.defns[j]? =
      if id = j then (p.defns[j]?).map fun d => { d with body } else p.defns[j]? := by
    rw [hdefns, p.getElem?_setBody]
  have hself {j : DefnId} (hj : id = j) : p'.defns[j]? = some { d with body } := by
    rw [hget, if_pos hj, ← hj, hd]
    rfl
  have hother {j : DefnId} (hj : ¬ id = j) : p'.defns[j]? = p.defns[j]? := by rw [hget, if_neg hj]
  constructor
  · exact hatoms
  · rfl
  · rintro j inst ⟨d', b, hd', hb, hseen⟩
    have hseen := hseen.of_extends hstore
    by_cases hj : id = j
    · have hdd : d' = d := Option.some.inj (by rw [← hd', ← hj, hd])
      rw [← hdd, hb] at hopens
      cases hopens with
      | block hle => exact ⟨_, _, hself hj, rfl, hle _ hseen⟩
    · exact ⟨d', b, by rw [hother hj, hd'], hb, hseen⟩
  · exact fun q inst hq => ⟨hq.1, hq.2.of_extends hstore⟩
  · rintro j inst ⟨d', k, hd', hk, hseen⟩
    have hseen := hseen.of_extends hstore
    by_cases hj : id = j
    · have hdd : d' = d := Option.some.inj (by rw [← hd', ← hj, hd])
      rw [← hdd, hk] at hopens
      cases hopens with
      | closure hle => exact ⟨_, _, hself hj, rfl, hle _ hseen⟩
    · exact ⟨d', k, by rw [hother hj, hd'], hk, hseen⟩
  · exact fun k inst hk => ⟨hk.1, hk.2.of_extends hstore⟩
  · rintro j index t ⟨d', i, hd', hi, hseen⟩
    have hseen := hseen.of_extends hstore
    by_cases hj : id = j
    · have hdd : d' = d := Option.some.inj (by rw [← hd', ← hj, hd])
      obtain ⟨i', hi', hseen'⟩ := (hdd ▸ hopens).value hi hseen
      exact ⟨_, i', hself hj, hi', hseen'⟩
    · exact ⟨d', i, by rw [hother hj, hd'], hi, hseen⟩

/-! ### The invariant -/

/-- Definitions have temporaries and places of their own, their bodies are formed, and none has been
replaced. -/
structure Layout (p : Program) : Prop where
  temps_apart : ∀ {i j : DefnId} {d d' : Defn}, p.defns[i]? = some d → p.defns[j]? = some d' →
    ∀ t ∈ d.body.temps, t ∈ d'.body.temps → i = j
  sites_apart : ∀ {i j : DefnId} {d d' : Defn}, p.defns[i]? = some d → p.defns[j]? = some d' →
    ∀ x ∈ sitesOf d.body.atoms, x ∈ sitesOf d'.body.atoms → i = j
  room : ∀ {i : DefnId} {d : Defn}, p.defns[i]? = some d → ∀ t ∈ d.body.temps, t < p.temps.size
  inputs : ∀ {i : DefnId} {d : Defn}, p.defns[i]? = some d → d.body.inputs.Nodup
  env : p.env.Regular
  formed : ∀ {i : DefnId} {d : Defn}, p.defns[i]? = some d → d.body.Formed p.env p.prims
  whole : ∀ {i : DefnId} {d : Defn}, p.defns[i]? = some d → d.replacedBy = none

/-- There are `n` definitions, and each of them is at its stage. -/
structure Inv (n lo hi : Nat) (p : Program) (φ : DefnId → Phase) : Prop where
  size : p.defns.size = n
  regular : p.store.Regular lo
  layout : Layout p
  stage : ∀ {id : DefnId} {d : Defn}, p.defns[id]? = some d → StageHolds lo hi p (φ id) d.body

section Invariant

variable {n lo hi : Nat} {p p' : Program} {φ : DefnId → Phase} {id : DefnId} {d : Defn}

theorem Inv.scene (h : Inv n lo hi p φ) (hd : p.defns[id]? = some d)
    (hs : InitialisedStage lo p d.body) : Scene lo d.body.temps p where
  regular := h.regular
  temps := hs.temps
  room := h.layout.room hd
  visible _ _ hd' := (h.stage hd').visible

/-- A step on one definition that touches only what belongs to it. -/
structure StepOn (lo hi : Nat) (id : DefnId) (d : Defn) (body : DefnBody) (p p' : Program) :
    Prop where
  frame : Frame lo hi p p'
  shape : d.body.SameShape body
  env : p'.env = p.env
  prims : p'.prims = p.prims
  defns : p'.defns = (p.setBody id body).defns
  temps_size : p'.temps.size = p.temps.size
  temps : ∀ t, t ∉ d.body.temps → p'.temps.typeOf t = p.temps.typeOf t
  sites : ∀ x : SiteId, x ∉ sitesOf d.body.atoms → p'.sites[x]? = p.sites[x]?

/-- A step on one definition moves it to another stage and leaves all others where they are. -/
theorem Inv.step {body : DefnBody} {phase : Phase} (h : Inv n lo hi p φ)
    (hd : p.defns[id]? = some d) (hs : StepOn lo hi id d body p p')
    (hstage : StageHolds lo hi p' phase body) : Inv n lo hi p' (Function.update φ id phase) := by
  have hget (j : DefnId) : p'.defns[j]? =
      if id = j then (p.defns[j]?).map fun d => { d with body } else p.defns[j]? := by
    rw [hs.defns, p.getElem?_setBody]
  have hold {j : DefnId} {d' : Defn} (hd' : p'.defns[j]? = some d') :
      ∃ d₀, p.defns[j]? = some d₀ ∧ d₀.body.SameShape d'.body ∧ d'.replacedBy = d₀.replacedBy := by
    rw [hget] at hd'
    split at hd'
    · rename_i hj
      rw [← hj, hd] at hd'
      cases hd'
      exact ⟨d, hj ▸ hd, hs.shape, rfl⟩
    · exact ⟨d', hd', .refl _, rfl⟩
  refine ⟨?_, hs.frame.store.regular, ⟨?_, ?_, ?_, ?_, ?_, ?_, ?_⟩, ?_⟩
  · rw [hs.defns, Program.setBody, Array.size_modify]
    exact h.size
  · intro i j d₁ d₂ h₁ h₂ t ht₁ ht₂
    obtain ⟨e₁, he₁, hsh₁, -⟩ := hold h₁
    obtain ⟨e₂, he₂, hsh₂, -⟩ := hold h₂
    exact h.layout.temps_apart he₁ he₂ t (hsh₁.temps ▸ ht₁) (hsh₂.temps ▸ ht₂)
  · intro i j d₁ d₂ h₁ h₂ x hx₁ hx₂
    obtain ⟨e₁, he₁, hsh₁, -⟩ := hold h₁
    obtain ⟨e₂, he₂, hsh₂, -⟩ := hold h₂
    exact h.layout.sites_apart he₁ he₂ x (hsh₁.atoms ▸ hx₁) (hsh₂.atoms ▸ hx₂)
  · intro i d₁ h₁ t ht
    obtain ⟨e₁, he₁, hsh₁, -⟩ := hold h₁
    rw [hs.temps_size]
    exact h.layout.room he₁ t (hsh₁.temps ▸ ht)
  · intro i d₁ h₁
    obtain ⟨e₁, he₁, hsh₁, -⟩ := hold h₁
    rw [hsh₁.inputs]
    exact h.layout.inputs he₁
  · rw [hs.env]
    exact h.layout.env
  · intro i d₁ h₁
    obtain ⟨e₁, he₁, hsh₁, -⟩ := hold h₁
    rw [hs.env, hs.prims]
    exact hsh₁.formed (h.layout.formed he₁)
  · intro i d₁ h₁
    obtain ⟨e₁, he₁, -, hwhole⟩ := hold h₁
    rw [hwhole]
    exact h.layout.whole he₁
  · intro j d' hd'
    rw [hget] at hd'
    split at hd'
    · rename_i hj
      subst hj
      rw [hd] at hd'
      cases hd'
      rw [Function.update_self]
      exact hstage
    · rename_i hj
      rw [Function.update_of_ne (Ne.symm hj)]
      refine (h.stage hd').frame h.regular hs.frame (fun t ht => hs.temps t fun ht' => hj ?_)
        fun x hx => hs.sites x fun hx' => hj ?_
      · exact h.layout.temps_apart hd hd' t ht' ht
      · exact h.layout.sites_apart hd hd' x hx' hx

/-- A step that leaves a definition as it is. -/
theorem Inv.stay {phase : Phase} (h : Inv n lo hi p φ)
    (hstage : ∀ {d : Defn}, p.defns[id]? = some d → StageHolds lo hi p phase d.body) :
    Inv n lo hi p (Function.update φ id phase) := by
  refine ⟨h.size, h.regular, h.layout, fun {j d} hd => ?_⟩
  by_cases hj : j = id
  · subst hj
    rw [Function.update_self]
    exact hstage hd
  · rw [Function.update_of_ne hj]
    exact h.stage hd

end Invariant

/-! ### Steps of the check -/

section Steps

variable {α : Type} {c c' : Checker}

theorem yields_infer {x : StateM Program α} {a : α} :
    Yields (infer x) c a c' ↔ Leaves x c.program a c'.program ∧ c'.log = c.log := by
  unfold Yields Leaves
  constructor
  · intro h
    cases h
    exact ⟨rfl, rfl⟩
  · rintro ⟨hx, hlog⟩
    obtain ⟨p', log⟩ := c'
    cases hlog
    have hinfer : infer x c = (.ok (x c.program).1, { c with program := (x c.program).2 }) := rfl
    rw [hinfer, hx]

theorem yields_onStore {f : Store → α × Store} {a : α} :
    Yields (onStore f) c a c' ↔ a = (f c.program.store).1 ∧
      c' = { c with program := { c.program with store := (f c.program.store).2 } } := by
  unfold Yields
  constructor
  · intro h
    cases h
    exact ⟨rfl, rfl⟩
  · rintro ⟨rfl, rfl⟩
    rfl

theorem yields_setBody {id : DefnId} {body : DefnBody} :
    Yields (setBody id body) c () c' ↔ c' = { c with program := c.program.setBody id body } :=
  yields_modify

theorem yields_store {s : Store} : Yields store c s c' ↔ s = c.program.store ∧ c' = c := by
  unfold Yields
  constructor
  · intro h
    cases h
    exact ⟨rfl, rfl⟩
  · rintro ⟨rfl, rfl⟩
    rfl

theorem yields_definition {id : DefnId} {d : Defn} :
    Yields (definition id) c d c' ↔ c.program.defns[id]? = some d ∧ c' = c := by
  rw [definition, yields_bind]
  constructor
  · rintro ⟨q, c₁, hget, h⟩
    obtain ⟨rfl, rfl⟩ := yields_get.mp hget
    split at h
    · rename_i d' hd
      obtain ⟨rfl, rfl⟩ := yields_pure.mp h
      exact ⟨hd, rfl⟩
    · exact absurd h not_yields_throw
  · rintro ⟨hd, rfl⟩
    refine ⟨_, _, yields_get.mpr ⟨rfl, rfl⟩, ?_⟩
    rw [hd]
    exact yields_pure.mpr ⟨rfl, rfl⟩

end Steps

/-! ### Types for temporaries -/

/-- Gives types to temporaries, in turn. -/
def assign (temps : TempTypes) (ts : List Temp) (types : List Ty) : TempTypes :=
  (ts.zip types).foldl (fun temps (t, type) => temps.modify t fun _ => some type) temps

theorem yields_setTypes {c c' : Checker} {ts : List Temp} {types : List Ty} :
    Yields (setTypes ts types) c () c' ↔
      c' = { c with program := { c.program with temps := assign c.program.temps ts types } } :=
  yields_modify

section Assign

variable {temps : TempTypes} {ts : List Temp} {types : List Ty} {t : Temp} {τ : Ty}

theorem assign_cons (temps : TempTypes) (t : Temp) (ts : List Temp) (τ : Ty) (types : List Ty) :
    assign temps (t :: ts) (τ :: types) = assign (temps.modify t fun _ => some τ) ts types := rfl

theorem size_assign : (assign temps ts types).size = temps.size := by
  induction ts generalizing temps types with
  | nil => rfl
  | cons t ts ih =>
      cases types with
      | nil => rfl
      | cons τ types => rw [assign_cons, ih, Array.size_modify]

theorem typeOf_modify_of_ne {u : Temp} (h : t ≠ u) :
    TempTypes.typeOf (temps.modify t fun _ => some τ) u = temps.typeOf u := by
  rw [TempTypes.typeOf, Array.getElem?_modify, if_neg h]
  rfl

theorem typeOf_assign_of_not_mem (h : t ∉ ts) :
    (assign temps ts types).typeOf t = temps.typeOf t := by
  induction ts generalizing temps types with
  | nil => rfl
  | cons u ts ih =>
      cases types with
      | nil => rfl
      | cons τ types =>
          rw [List.mem_cons, not_or] at h
          rw [assign_cons, ih h.2, typeOf_modify_of_ne (Ne.symm h.1)]

/-- Different temporaries get the types that stand at their positions. -/
theorem typeOf_assign (hnodup : ts.Nodup) (hroom : ∀ t ∈ ts, t < temps.size)
    (hlen : ts.length = types.length) :
    List.Forall₂ (fun t τ => (assign temps ts types).typeOf t = some τ) ts types := by
  induction ts generalizing temps types with
  | nil =>
      obtain rfl : types = [] := List.eq_nil_of_length_eq_zero hlen.symm
      exact .nil
  | cons u ts ih =>
      cases types with
      | nil => cases hlen
      | cons τ types =>
          obtain ⟨hu, hnodup⟩ := List.nodup_cons.mp hnodup
          rw [assign_cons]
          refine .cons ?_ (ih hnodup (fun t ht => ?_) (Nat.succ.inj hlen))
          · rw [typeOf_assign_of_not_mem hu, TempTypes.typeOf, Array.getElem?_modify, if_pos rfl,
              Array.getElem?_eq_getElem (hroom u (.head _))]
            rfl
          · rw [Array.size_modify]
            exact hroom t (.tail _ ht)

/-- A temporary that has a type afterwards had it before, or it is one of the new types. -/
theorem typeOf_assign_cases (h : (assign temps ts types).typeOf t = some τ) :
    temps.typeOf t = some τ ∨ τ ∈ types := by
  induction ts generalizing temps types with
  | nil => exact .inl h
  | cons u ts ih =>
      cases types with
      | nil => exact .inl h
      | cons σ types =>
          rw [assign_cons] at h
          rcases ih h with h | h
          · by_cases hu : u = t
            · rw [TempTypes.typeOf, Array.getElem?_modify, if_pos hu] at h
              cases hget : temps[t]? with
              | none =>
                  rw [hget] at h
                  cases h
              | some o =>
                  rw [hget] at h
                  cases h
                  exact .inr (.head _)
            · rw [typeOf_modify_of_ne hu] at h
              exact .inl h
          · exact .inr (.tail _ h)

end Assign

/-- Typed temporaries are operands of their types. -/
theorem argsHave_of_typeOf {p : Program} {θ : Nat → Ty} {ts : List Temp} {types : List Ty}
    (h : List.Forall₂ (fun t τ => p.temps.typeOf t = some τ) ts types) :
    ArgsHave (p.working θ) (ts.map .temp) (types.map fun t => t.mapVars θ) := by
  induction h with
  | nil => exact .nil
  | cons ht _ ih => exact .cons ⟨_, ht, rfl, fun _ _ _ he => nomatch he⟩ ih

end Typing

end Mil
