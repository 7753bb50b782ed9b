import Mil.Proofs.Ty.Store

/-!
Unification is sound. When two types are unified, every solution of the store that is left makes
them equal; the store stays free of cycles and keeps its bindings, and variables before a lower
bound are not touched if the types are made of variables from that bound on.
-/

namespace Mil

namespace Store

open Ty (Occurs)

variable {s s' : Store} {v w lo : Nat} {a b t : Ty}

/-- The store grows, stays regular and leaves the variables before `lo` as they are. -/
structure Refines (lo : Nat) (s s' : Store) : Prop where
  regular : s'.Regular lo
  grows : s.Extends s'
  frozen : ∀ v, v < lo → s'.binding? v = s.binding? v

theorem Refines.refl (h : s.Regular lo) : s.Refines lo s := ⟨h, .refl s, fun _ _ => rfl⟩

theorem Refines.trans {s₁ s₂ s₃ : Store} (h : s₁.Refines lo s₂) (h' : s₂.Refines lo s₃) :
    s₁.Refines lo s₃ where
  regular := h'.regular
  grows := h.grows.trans h'.grows
  frozen v hv := (h'.frozen v hv).trans (h.frozen v hv)

theorem Refines.within (h : s.Refines lo s') (ht : t.Within lo s.cells.size) :
    t.Within lo s'.cells.size :=
  ht.mono (Nat.le_refl _) h.grows.size_le

theorem Refines.solves {θ : Nat → Ty} (h : s.Refines lo s') (hθ : s'.Solves θ) : s.Solves θ :=
  hθ.of_extends h.grows

theorem Refines.fresh (h : s.Regular lo) (k : Kind) : s.Refines lo (s.fresh k).2 :=
  ⟨h.fresh k, extends_fresh k, fun _ _ => binding?_fresh k⟩

/-! ### Pruning -/

theorem pruneWith_within (h : s.Regular lo) (fuel : Nat) (ht : t.Within lo s.cells.size) :
    (s.pruneWith fuel t).Within lo s.cells.size := by
  induction fuel generalizing t with
  | zero => cases t <;> exact ht
  | succ fuel ih =>
      cases t with
      | var v =>
          rw [pruneWith]
          cases hb : s.binding? v with
          | none => exact ht
          | some b => exact ih (h.above v b (ht.var .leaf).1 hb)
      | _ => exact ht

theorem Regular.prune_within (h : s.Regular lo) (ht : t.Within lo s.cells.size) :
    (s.prune t).Within lo s.cells.size :=
  pruneWith_within h _ ht

theorem Descends.pruneWith {rank : Nat → Nat} (h : s.Descends rank)
    (hpos : ∀ v b, s.binding? v = some b → 0 < rank v) (fuel : Nat)
    (ht : ∀ v, t = .var v → rank v ≤ fuel) (hw : s.pruneWith fuel t = .var w) :
    s.binding? w = none := by
  induction fuel generalizing t with
  | zero =>
      cases t with
      | var v =>
          cases hw
          by_contra hb
          obtain ⟨b, hb⟩ := Option.ne_none_iff_exists'.mp hb
          have := hpos w b hb
          have := ht w rfl
          omega
      | _ => cases hw
  | succ fuel ih =>
      cases t with
      | var v =>
          rw [Store.pruneWith] at hw
          cases hb : s.binding? v with
          | none =>
              rw [hb] at hw
              cases hw
              exact hb
          | some b =>
              rw [hb] at hw
              refine ih (fun u hu => ?_) hw
              have := h v b hb u (hu ▸ .leaf)
              have := ht v rfl
              omega
      | _ => cases hw

/-- A variable that is left after pruning is unbound. -/
theorem Ranked.unbound_of_prune (h : s.Ranked) (hv : s.prune t = .var v) : s.binding? v = none := by
  have ⟨rank, hrank⟩ := h
  exact hrank.height.pruneWith (fun v b hb => height_pos hb) s.cells.size
    (fun v _ => height_le_size rank v) hv

/-! ### Unification -/

/-- Binding a variable makes it equal to the type. -/
theorem bindVar_spec (h : s.Regular lo) (hv : s.binding? v = none) (hlo : lo ≤ v)
    (hlt : v < s.cells.size) (ht : t.Within lo s.cells.size)
    (hvar : ∀ w, t = .var w → s.binding? w = none) (hok : s.bindVar v t = (.ok (), s')) :
    s.Refines lo s' ∧ ∀ θ, s'.Solves θ → θ v = t.mapVars θ := by
  have hbind (hocc : ¬ Occurs (.var v) (s.resolve t)) :
      s.Refines lo (s.bind v t) ∧ ∀ θ, (s.bind v t).Solves θ → θ v = t.mapVars θ := by
    refine ⟨⟨h.bind hv hlt ht hocc, extends_bind hv hlt, fun w hw => ?_⟩, fun θ hθ => ?_⟩
    · rw [binding?_bind hlt, if_neg (by omega)]
    · exact hθ v t (by rw [binding?_bind hlt, if_pos rfl])
  unfold bindVar at hok
  split at hok
  · rename_i w
    split at hok
    · rename_i hvw
      cases hok
      exact ⟨.refl h, fun θ _ => by rw [Ty.mapVars_var, hvw]⟩
    · rename_i hvw
      cases hok
      refine hbind fun hocc => hvw ?_
      rw [h.resolve_eq, Ty.mapVars_var, reading_of_none (hvar w rfl), Ty.occurs_var] at hocc
      cases hocc
      rfl
  · split at hok
    · cases hok
    · rename_i hocc
      cases hok
      refine hbind fun h => hocc ?_
      rw [occurs, decide_eq_true_iff]
      exact mem_varsOf.mpr h

/-- What unification achieves, for a given way to unify parts. -/
def Unifies {ε : Type} (lo : Nat) (unify : Store → Ty → Ty → Except ε Unit × Store) : Prop :=
  ∀ {s s' : Store} {a b : Ty}, s.Regular lo → a.Within lo s.cells.size → b.Within lo s.cells.size →
    unify s a b = (.ok (), s') →
    s.Refines lo s' ∧ ∀ θ, s'.Solves θ → a.mapVars θ = b.mapVars θ

theorem unifyElems_spec {ε : Type} {unify : Store → Ty → Ty → Except ε Unit × Store}
    (hunify : Unifies lo unify) (as bs : List Ty) (hlen : as.length = bs.length) (h : s.Regular lo)
    (has : ∀ a ∈ as, a.Within lo s.cells.size) (hbs : ∀ b ∈ bs, b.Within lo s.cells.size)
    (hok : unifyElems unify s as bs = (.ok (), s')) :
    s.Refines lo s' ∧ ∀ θ, s'.Solves θ →
      as.map (fun t => t.mapVars θ) = bs.map fun t => t.mapVars θ := by
  induction as generalizing s bs with
  | nil =>
      obtain rfl : bs = [] := List.eq_nil_of_length_eq_zero hlen.symm
      cases hok
      exact ⟨.refl h, fun _ _ => rfl⟩
  | cons a as ih =>
      cases bs with
      | nil => cases hlen
      | cons b bs =>
          rw [unifyElems] at hok
          split at hok
          · rename_i s₁ hab
            obtain ⟨hs₁, heq⟩ := hunify h (has a (.head _)) (hbs b (.head _)) hab
            obtain ⟨hs', heqs⟩ := ih bs (Nat.succ.inj hlen) hs₁.regular
              (fun a ha => hs₁.within (has a (.tail _ ha)))
              (fun b hb => hs₁.within (hbs b (.tail _ hb))) hok
            refine ⟨hs₁.trans hs', fun θ hθ => ?_⟩
            rw [List.map_cons, List.map_cons, heq θ (hs'.solves hθ), heqs θ hθ]
          · rename_i hne
            exact absurd hok (hne s')

theorem unifyWith_spec (fuel : Nat) : Unifies lo (unifyWith fuel) := by
  induction fuel with
  | zero =>
      intro s s' a b _ _ _ hok
      cases hok
  | succ fuel ih =>
      intro s s' a b h ha hb hok
      -- the heads say the same as the types, for every solution of the store
      suffices hheads : s.Refines lo s' ∧
          ∀ θ, s'.Solves θ → (s.prune a).mapVars θ = (s.prune b).mapVars θ by
        refine ⟨hheads.1, fun θ hθ => ?_⟩
        have hs := hheads.1.solves hθ
        rw [← hs.prune a, ← hs.prune b]
        exact hheads.2 θ hθ
      have ha' := h.prune_within ha
      have hb' := h.prune_within hb
      have hua : ∀ v, s.prune a = .var v → s.binding? v = none := fun v => h.ranked.unbound_of_prune
      have hub : ∀ v, s.prune b = .var v → s.binding? v = none := fun v => h.ranked.unbound_of_prune
      rw [unifyWith] at hok
      generalize s.prune a = a' at *
      generalize s.prune b = b' at *
      split at hok
      · rename_i v
        have hv := ha'.var .leaf
        obtain ⟨hs', heq⟩ := bindVar_spec h (hua v rfl) hv.1 hv.2 hb' hub hok
        exact ⟨hs', fun θ hθ => (Ty.mapVars_var θ v).trans (heq θ hθ)⟩
      · rename_i w _
        have hw := hb'.var .leaf
        obtain ⟨hs', heq⟩ := bindVar_spec h (hub w rfl) hw.1 hw.2 ha' hua hok
        exact ⟨hs', fun θ hθ => ((Ty.mapVars_var θ w).trans (heq θ hθ)).symm⟩
      · split at hok
        · rename_i hc
          cases hok
          exact ⟨.refl h, fun θ _ => by rw [hc]⟩
        · cases hok
      · rename_i f x g y
        split at hok
        · rename_i s₁ hfg
          obtain ⟨hs₁, hf⟩ := ih h (Ty.within_ap.mp ha').1 (Ty.within_ap.mp hb').1 hfg
          obtain ⟨hs', hx⟩ := ih hs₁.regular (hs₁.within (Ty.within_ap.mp ha').2)
            (hs₁.within (Ty.within_ap.mp hb').2) hok
          refine ⟨hs₁.trans hs', fun θ hθ => ?_⟩
          rw [Ty.mapVars_ap, Ty.mapVars_ap, hf θ (hs'.solves hθ), hx θ hθ]
        · rename_i hne
          exact absurd hok (hne s')
      · split at hok
        · rename_i hc
          cases hok
          exact ⟨.refl h, fun θ _ => by rw [hc]⟩
        · cases hok
      · rename_i xs ys
        split at hok
        · cases hok
        · rename_i hlen
          obtain ⟨hs', heq⟩ := unifyElems_spec ih xs ys (by omega) h (Ty.within_tuple.mp ha')
            (Ty.within_tuple.mp hb') hok
          exact ⟨hs', fun θ hθ => by rw [Ty.mapVars_tuple, Ty.mapVars_tuple, heq θ hθ]⟩
      · rename_i m n
        exact absurd .leaf (ha'.not_gen m)
      · cases hok

/-- Unification makes two types equal. -/
theorem unify_spec : Unifies lo unify := by
  intro s s' a b h ha hb hok
  rw [unify] at hok
  split at hok
  · rename_i s₁ hab
    cases hok
    exact unifyWith_spec _ h ha hb hab
  · cases hok

/-- Unification of two lists makes them equal, position by position. -/
theorem unifyAll_spec {as bs : List Ty} (h : s.Regular lo)
    (has : ∀ a ∈ as, a.Within lo s.cells.size) (hbs : ∀ b ∈ bs, b.Within lo s.cells.size)
    (hok : s.unifyAll as bs = (.ok (), s')) :
    s.Refines lo s' ∧ ∀ θ, s'.Solves θ →
      as.map (fun t => t.mapVars θ) = bs.map fun t => t.mapVars θ := by
  rw [unifyAll] at hok
  split at hok
  · cases hok
  · rename_i hlen
    exact unifyElems_spec unify_spec as bs (by omega) h has hbs hok

end Store

end Mil
