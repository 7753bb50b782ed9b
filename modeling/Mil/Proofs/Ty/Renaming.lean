import Mathlib.Data.Set.Function
import Mil.Proofs.Program.Names
import Mil.Proofs.Ty.Subst
import Mil.Ty.Compare

/-!
Renaming of types. The search for a renaming goes over two lists of types and pairs their leaves. What
it finds is one to one and turns the first list into the second, and it finds one whenever there is
one. So to be equal up to renaming is to be turned into each other by functions that are injective on
the leaves that occur, which is reflexive, symmetric and transitive.
-/

namespace Mil

namespace Renaming

variable {pairs pairs' : List (Nat × Nat)} {a b : Nat} {f : Nat → Nat} {S : Set Nat}

/-- Each is paired with at most one, on both sides. -/
structure OneToOne (pairs : List (Nat × Nat)) : Prop where
  left : ∀ {x x' y : Nat}, (x, y) ∈ pairs → (x', y) ∈ pairs → x = x'
  right : ∀ {x y y' : Nat}, (x, y) ∈ pairs → (x, y') ∈ pairs → y = y'

theorem extend?_spec (h : extend? pairs a b = some pairs') :
    pairs ⊆ pairs' ∧ (a, b) ∈ pairs' ∧ (OneToOne pairs → OneToOne pairs') := by
  unfold extend? at h
  split at h
  · rename_i c hc
    split at h
    · rename_i hcb
      cases h
      exact ⟨fun _ h => h, hcb ▸ mem_of_lookup hc, id⟩
    · cases h
  · rename_i ha
    split at h
    · cases h
    · rename_i hany
      cases h
      have hb : ∀ x, (x, b) ∉ pairs := fun x hx => hany (List.any_eq_true.mpr ⟨(x, b), hx, by simp⟩)
      have ha : ∀ y, (a, y) ∉ pairs := fun y hy =>
        lookup_eq_none_iff_not_mem.mp ha (List.mem_map.mpr ⟨(a, y), hy, rfl⟩)
      refine ⟨List.subset_cons_self _ _, .head _, fun hone => ⟨fun hx hx' => ?_, fun hx hx' => ?_⟩⟩
      · rcases List.mem_cons.mp hx with hx | hx <;> rcases List.mem_cons.mp hx' with hx' | hx'
        · cases hx
          cases hx'
          rfl
        · cases hx
          exact absurd hx' (hb _)
        · cases hx'
          exact absurd hx (hb _)
        · exact hone.left hx hx'
      · rcases List.mem_cons.mp hx with hx | hx <;> rcases List.mem_cons.mp hx' with hx' | hx'
        · cases hx
          cases hx'
          rfl
        · cases hx
          exact absurd hx' (ha _)
        · cases hx'
          exact absurd hx (ha _)
        · exact hone.right hx hx'

/-- The pairs are taken from a function and a set. -/
def Along (f : Nat → Nat) (S : Set Nat) (pairs : List (Nat × Nat)) : Prop :=
  ∀ a b, (a, b) ∈ pairs → a ∈ S ∧ b = f a

/-- A function that is injective on a set extends pairs that were taken from it. -/
theorem exists_extend? (hf : Set.InjOn f S) (h : Along f S pairs) (ha : a ∈ S) :
    ∃ pairs', extend? pairs a (f a) = some pairs' ∧ Along f S pairs' := by
  unfold extend?
  cases hlookup : pairs.lookup a with
  | some c => exact ⟨pairs, if_pos (h a c (mem_of_lookup hlookup)).2, h⟩
  | none =>
      have hany : pairs.any (fun p => p.2 = f a) = false := by
        rw [← Bool.not_eq_true, List.any_eq_true]
        rintro ⟨⟨x, y⟩, hmem, hy⟩
        obtain ⟨hx, hxy⟩ := h x y hmem
        have heq : x = a := hf hx ha (hxy.symm.trans (of_decide_eq_true hy))
        exact lookup_eq_none_iff_not_mem.mp hlookup (List.mem_map.mpr ⟨(x, y), hmem, heq⟩)
      refine ⟨(a, f a) :: pairs, if_neg (by rw [hany]; decide), fun x y hmem => ?_⟩
      rcases List.mem_cons.mp hmem with heq | hmem
      · cases heq
        exact ⟨ha, rfl⟩
      · exact h x y hmem

/-- The function that pairs describe. -/
def apply (pairs : List (Nat × Nat)) (x : Nat) : Nat := (pairs.lookup x).getD x

theorem OneToOne.apply_eq (h : OneToOne pairs) (hab : (a, b) ∈ pairs) : apply pairs a = b := by
  obtain ⟨c, hc⟩ := Option.isSome_iff_exists.mp
    (lookup_isSome_iff_mem.mpr (List.mem_map.mpr ⟨(a, b), hab, rfl⟩))
  rw [apply, hc]
  exact h.right (mem_of_lookup hc) hab

/-- The leaf is renamed. -/
def Covers (m : Renaming) : Ty.Leaf → Prop
  | .var v => ∃ w, (v, w) ∈ m.vars
  | .gen n => ∃ k, (n, k) ∈ m.gens

/-- One renaming goes on where another one stopped. -/
structure Follows (m m' : Renaming) : Prop where
  gens : m.gens ⊆ m'.gens
  vars : m.vars ⊆ m'.vars
  oneToOne_gens : OneToOne m.gens → OneToOne m'.gens
  oneToOne_vars : OneToOne m.vars → OneToOne m'.vars

theorem Follows.refl (m : Renaming) : Follows m m := ⟨fun _ h => h, fun _ h => h, id, id⟩

theorem Follows.trans {m₁ m₂ m₃ : Renaming} (h : Follows m₁ m₂) (h' : Follows m₂ m₃) : Follows m₁ m₃ :=
  ⟨fun _ hx => h'.gens (h.gens hx), fun _ hx => h'.vars (h.vars hx),
    fun hx => h'.oneToOne_gens (h.oneToOne_gens hx), fun hx => h'.oneToOne_vars (h.oneToOne_vars hx)⟩

theorem Follows.covers {m m' : Renaming} {x : Ty.Leaf} (h : Follows m m') (hx : m.Covers x) :
    m'.Covers x := by
  cases x with
  | var v => exact hx.imp fun _ hw => h.vars hw
  | gen n => exact hx.imp fun _ hk => h.gens hk

end Renaming

namespace Ty

open Renaming (Follows)

/-! ### What is found -/

/-- Two substitutions that agree along a renaming. -/
def AgreeAlong (m : Renaming) (f g f' g' : Nat → Ty) : Prop :=
  (∀ x y, (x, y) ∈ m.vars → f x = f' y) ∧ ∀ x y, (x, y) ∈ m.gens → g x = g' y

theorem AgreeAlong.of_follows {m m' : Renaming} {f g f' g' : Nat → Ty}
    (h : AgreeAlong m' f g f' g') (hm : Follows m m') : AgreeAlong m f g f' g' :=
  ⟨fun x y hx => h.1 x y (hm.vars hx), fun x y hx => h.2 x y (hm.gens hx)⟩

mutual

/-- All leaves of a type that is renamed are, and the two types become equal under substitutions that
agree along the renaming. -/
theorem rename?_spec : (a b : Ty) → {m m' : Renaming} → rename? a b m = some m' →
    Follows m m' ∧ (∀ x, Occurs x a → m'.Covers x) ∧
      ∀ {f g f' g' : Nat → Ty}, AgreeAlong m' f g f' g' → a.subst f g = b.subst f' g'
  | .var v, b, m, m', h => by
    cases b with
    | var w =>
        rw [rename?, Option.map_eq_some_iff] at h
        obtain ⟨vars, hvars, rfl⟩ := h
        obtain ⟨hsub, hmem, hone⟩ := Renaming.extend?_spec hvars
        refine ⟨⟨fun _ h => h, hsub, id, hone⟩, fun x hx => ?_, fun {f g f' g'} hagree => ?_⟩
        · cases occurs_var.mp hx
          exact ⟨w, hmem⟩
        · rw [subst_var, subst_var]
          exact hagree.1 v w hmem
    | _ => simp [rename?] at h
  | .gen v, b, m, m', h => by
    cases b with
    | gen w =>
        rw [rename?, Option.map_eq_some_iff] at h
        obtain ⟨gens, hgens, rfl⟩ := h
        obtain ⟨hsub, hmem, hone⟩ := Renaming.extend?_spec hgens
        refine ⟨⟨hsub, fun _ h => h, hone, id⟩, fun x hx => ?_, fun {f g f' g'} hagree => ?_⟩
        · cases occurs_gen.mp hx
          exact ⟨w, hmem⟩
        · rw [subst_gen, subst_gen]
          exact hagree.2 v w hmem
    | _ => simp [rename?] at h
  | .con c, b, m, m', h => by
    cases b with
    | con d =>
        rw [rename?] at h
        split at h
        · rename_i hcd
          cases h
          exact ⟨.refl m, fun x hx => absurd hx not_occurs_con, fun _ => by rw [subst_con, subst_con, hcd]⟩
        · cases h
    | _ => simp [rename?] at h
  | .nat c, b, m, m', h => by
    cases b with
    | nat d =>
        rw [rename?] at h
        split at h
        · rename_i hcd
          cases h
          exact ⟨.refl m, fun x hx => absurd hx not_occurs_nat, fun _ => by rw [subst_nat, subst_nat, hcd]⟩
        · cases h
    | _ => simp [rename?] at h
  | .ap f x, b, m, m', h => by
    cases b with
    | ap g y =>
        rw [rename?, Option.bind_eq_some_iff] at h
        obtain ⟨m₁, h₁, h₂⟩ := h
        obtain ⟨hf₁, hc₁, hs₁⟩ := rename?_spec f g h₁
        obtain ⟨hf₂, hc₂, hs₂⟩ := rename?_spec x y h₂
        refine ⟨hf₁.trans hf₂, fun z hz => ?_, fun hagree => ?_⟩
        · rcases occurs_ap.mp hz with hz | hz
          · exact hf₂.covers (hc₁ z hz)
          · exact hc₂ z hz
        · rw [subst_ap, subst_ap, hs₁ (hagree.of_follows hf₂), hs₂ hagree]
    | _ => simp [rename?] at h
  | .tuple ts, b, m, m', h => by
    cases b with
    | tuple us =>
        rw [rename?] at h
        obtain ⟨hf, hc, hs⟩ := renameList?_spec ts us h
        refine ⟨hf, fun x hx => ?_, fun hagree => ?_⟩
        · obtain ⟨t, ht, hx⟩ := occurs_tuple.mp hx
          exact hc t ht x hx
        · rw [subst_tuple, subst_tuple, hs hagree]
    | _ => simp [rename?] at h

/-- The same for lists of types. -/
theorem renameList?_spec : (as bs : List Ty) → {m m' : Renaming} → renameList? as bs m = some m' →
    Follows m m' ∧ (∀ a ∈ as, ∀ x, Occurs x a → m'.Covers x) ∧
      ∀ {f g f' g' : Nat → Ty}, AgreeAlong m' f g f' g' → as.map (subst f g) = bs.map (subst f' g')
  | [], bs, m, m', h => by
    cases bs with
    | nil =>
        cases h
        exact ⟨.refl _, fun _ ha => absurd ha List.not_mem_nil, fun _ => rfl⟩
    | cons b bs => cases h
  | a :: as, bs, m, m', h => by
    cases bs with
    | nil => cases h
    | cons b bs =>
        rw [renameList?, Option.bind_eq_some_iff] at h
        obtain ⟨m₁, h₁, h₂⟩ := h
        obtain ⟨hf₁, hc₁, hs₁⟩ := rename?_spec a b h₁
        obtain ⟨hf₂, hc₂, hs₂⟩ := renameList?_spec as bs h₂
        refine ⟨hf₁.trans hf₂, fun c hc x hx => ?_, fun hagree => ?_⟩
        · rcases List.mem_cons.mp hc with rfl | hc
          · exact hf₂.covers (hc₁ x hx)
          · exact hc₂ c hc x hx
        · rw [List.map_cons, List.map_cons, hs₁ (hagree.of_follows hf₂), hs₂ hagree]

end

theorem renameList?_eq_none {as bs : List Ty} (h : as.length ≠ bs.length) (m : Renaming) :
    renameList? as bs m = none := by
  refine Option.eq_none_iff_forall_ne_some.mpr fun m' hm => h ?_
  obtain ⟨-, -, hsame⟩ := renameList?_spec as bs hm
  simpa using congrArg List.length
    (hsame (f := fun _ => .unit) (g := fun _ => .unit) ⟨fun _ _ _ => rfl, fun _ _ _ => rfl⟩)

theorem renameList?_singleton (a b : Ty) (m : Renaming) : renameList? [a] [b] m = rename? a b m := by
  rw [renameList?]
  cases rename? a b m <;> rfl

/-- The last elements of lists are renamed after the others. -/
theorem renameList?_concat {as bs : List Ty} (a b : Ty) {m : Renaming} :
    renameList? (as ++ [a]) (bs ++ [b]) m = (renameList? as bs m).bind (rename? a b) := by
  induction as generalizing bs m with
  | nil =>
      cases bs with
      | nil => exact renameList?_singleton a b m
      | cons b bs => exact renameList?_eq_none (by simp) m
  | cons c as ih =>
      cases bs with
      | nil => exact renameList?_eq_none (by simp) m
      | cons d bs =>
          rw [List.cons_append, List.cons_append, renameList?, renameList?, Option.bind_assoc]
          exact congrArg _ (funext fun m₁ => ih)

/-! ### What there is to find -/

/-- Renames the unbound variables of a type by one function and the quantified ones by another. -/
def relabel (f g : Nat → Nat) : Ty → Ty := subst (fun v => .var (f v)) fun n => .gen (g n)

/-- The variables that occur in some types. -/
def varsIn (ts : List Ty) : Set Nat := {v | ∃ t ∈ ts, Occurs (.var v) t}

/-- The quantified variables that occur in some types. -/
def gensIn (ts : List Ty) : Set Nat := {n | ∃ t ∈ ts, Occurs (.gen n) t}

/-- Functions that are injective on the leaves of some types turn them into others. -/
structure Relabels (f g : Nat → Nat) (as bs : List Ty) : Prop where
  vars : Set.InjOn f (varsIn as)
  gens : Set.InjOn g (gensIn as)
  turns : as.map (relabel f g) = bs

section Complete

variable {f g : Nat → Nat} {S T : Set Nat} {m : Renaming} {t : Ty} {ts as bs : List Ty}

/-- Lists are renamed if their elements are. -/
theorem exists_renameList? {Q : Renaming → Prop} {h : Ty → Ty}
    (hts : ∀ t ∈ ts, ∀ m, Q m → ∃ m', rename? t (h t) m = some m' ∧ Q m') (hm : Q m) :
    ∃ m', renameList? ts (ts.map h) m = some m' ∧ Q m' := by
  induction ts generalizing m with
  | nil => exact ⟨m, rfl, hm⟩
  | cons t ts ih =>
      obtain ⟨m₁, ht, hm₁⟩ := hts t (.head _) m hm
      obtain ⟨m₂, hts', hm₂⟩ := ih (fun u hu => hts u (.tail _ hu)) hm₁
      exact ⟨m₂, by rw [List.map_cons, renameList?, ht]; exact hts', hm₂⟩

/-- Both kinds of pairs are taken from functions. -/
def Along (f g : Nat → Nat) (S T : Set Nat) (m : Renaming) : Prop :=
  Renaming.Along f S m.vars ∧ Renaming.Along g T m.gens

theorem along_empty : Along f g S T .empty :=
  ⟨fun _ _ h => absurd h List.not_mem_nil, fun _ _ h => absurd h List.not_mem_nil⟩

/-- A type is renamed by functions that are injective on its leaves. -/
theorem exists_rename? (hf : Set.InjOn f S) (hg : Set.InjOn g T)
    (hS : ∀ v, Occurs (.var v) t → v ∈ S) (hT : ∀ n, Occurs (.gen n) t → n ∈ T)
    (hm : Along f g S T m) : ∃ m', rename? t (t.relabel f g) m = some m' ∧ Along f g S T m' := by
  unfold relabel
  induction t generalizing m with
  | var v =>
      obtain ⟨vars, hvars, halong⟩ := Renaming.exists_extend? hf hm.1 (hS v (occurs_var.mpr rfl))
      exact ⟨{ m with vars }, by rw [subst_var, rename?, hvars]; rfl, halong, hm.2⟩
  | gen n =>
      obtain ⟨gens, hgens, halong⟩ := Renaming.exists_extend? hg hm.2 (hT n (occurs_gen.mpr rfl))
      exact ⟨{ m with gens }, by rw [subst_gen, rename?, hgens]; rfl, hm.1, halong⟩
  | con c => exact ⟨m, by rw [subst_con, rename?, if_pos rfl], hm⟩
  | nat n => exact ⟨m, by rw [subst_nat, rename?, if_pos rfl], hm⟩
  | ap h a hh ha =>
      obtain ⟨m₁, h₁, hm₁⟩ := hh (fun v hv => hS v (.fn hv)) (fun n hn => hT n (.fn hn)) hm
      obtain ⟨m₂, h₂, hm₂⟩ := ha (fun v hv => hS v (.arg hv)) (fun n hn => hT n (.arg hn)) hm₁
      exact ⟨m₂, by rw [subst_ap, rename?, h₁]; exact h₂, hm₂⟩
  | tuple ts ih =>
      rw [subst_tuple, rename?]
      exact exists_renameList? (fun t hmem m hm => ih t hmem (fun v hv => hS v (.elem hmem hv))
        (fun n hn => hT n (.elem hmem hn)) hm) hm

/-- A renaming is found exactly if there is one. -/
theorem isSome_renameList?_iff :
    (renameList? as bs .empty).isSome = true ↔ ∃ f g, Relabels f g as bs := by
  constructor
  · intro h
    obtain ⟨m, hm⟩ := Option.isSome_iff_exists.mp h
    obtain ⟨hf, hcovers, hsame⟩ := renameList?_spec as bs hm
    have hnone : Renaming.OneToOne [] :=
      ⟨fun h => absurd h List.not_mem_nil, fun h => absurd h List.not_mem_nil⟩
    have hvars := hf.oneToOne_vars hnone
    have hgens := hf.oneToOne_gens hnone
    refine ⟨Renaming.apply m.vars, Renaming.apply m.gens, ?_, ?_, ?_⟩
    · rintro v ⟨a, ha, hv⟩ v' ⟨a', ha', hv'⟩ heq
      obtain ⟨w, hw⟩ := hcovers a ha _ hv
      obtain ⟨w', hw'⟩ := hcovers a' ha' _ hv'
      rw [hvars.apply_eq hw, hvars.apply_eq hw'] at heq
      exact hvars.left hw (heq ▸ hw')
    · rintro n ⟨a, ha, hn⟩ n' ⟨a', ha', hn'⟩ heq
      obtain ⟨k, hk⟩ := hcovers a ha _ hn
      obtain ⟨k', hk'⟩ := hcovers a' ha' _ hn'
      rw [hgens.apply_eq hk, hgens.apply_eq hk'] at heq
      exact hgens.left hk (heq ▸ hk')
    · have hself : bs.map (subst .var .gen) = bs :=
        (List.map_congr_left fun b _ => subst_var_gen b).trans (List.map_id' bs)
      exact (hsame ⟨fun _ _ hx => congrArg Ty.var (hvars.apply_eq hx),
        fun _ _ hx => congrArg Ty.gen (hgens.apply_eq hx)⟩).trans hself
  · rintro ⟨f, g, h⟩
    obtain ⟨m, hm, -⟩ := exists_renameList? (Q := Along f g (varsIn as) (gensIn as)) (h := relabel f g)
      (fun a ha m hm => exists_rename? h.vars h.gens (fun v hv => ⟨a, ha, hv⟩)
        (fun n hn => ⟨a, ha, hn⟩) hm) along_empty
    rw [h.turns] at hm
    rw [hm]
    rfl

end Complete

/-! ### Renaming is an equivalence -/

section Equivalence

variable {f g f' g' : Nat → Nat} {t : Ty} {as bs cs : List Ty}

theorem occurs_var_relabel {w : Nat} :
    Occurs (.var w) (t.relabel f g) ↔ ∃ v, Occurs (.var v) t ∧ f v = w := by
  rw [relabel, occurs_subst]
  constructor
  · rintro ⟨y, hy, hw⟩
    cases y with
    | var v =>
        cases occurs_var.mp hw
        exact ⟨v, hy, rfl⟩
    | gen n => cases occurs_gen.mp hw
  · rintro ⟨v, hv, rfl⟩
    exact ⟨.var v, hv, occurs_var.mpr rfl⟩

theorem occurs_gen_relabel {k : Nat} :
    Occurs (.gen k) (t.relabel f g) ↔ ∃ n, Occurs (.gen n) t ∧ g n = k := by
  rw [relabel, occurs_subst]
  constructor
  · rintro ⟨y, hy, hk⟩
    cases y with
    | var v => cases occurs_var.mp hk
    | gen n =>
        cases occurs_gen.mp hk
        exact ⟨n, hy, rfl⟩
  · rintro ⟨n, hn, rfl⟩
    exact ⟨.gen n, hn, occurs_gen.mpr rfl⟩

/-- The variables that occur are renamed to those that occur afterwards. -/
theorem Relabels.image_vars (h : Relabels f g as bs) : f '' varsIn as = varsIn bs := by
  rw [← h.turns]
  ext w
  simp only [varsIn, Set.mem_image, Set.mem_ofPred_eq, List.mem_map, exists_exists_and_eq_and,
    occurs_var_relabel]
  tauto

theorem Relabels.image_gens (h : Relabels f g as bs) : g '' gensIn as = gensIn bs := by
  rw [← h.turns]
  ext k
  simp only [gensIn, Set.mem_image, Set.mem_ofPred_eq, List.mem_map, exists_exists_and_eq_and,
    occurs_gen_relabel]
  tauto

theorem relabel_relabel (f g f' g' : Nat → Nat) (t : Ty) :
    (t.relabel f g).relabel f' g' = t.relabel (f' ∘ f) (g' ∘ g) := by
  simp only [relabel, subst_subst, subst_var, subst_gen]
  rfl

theorem relabels_refl (as : List Ty) : Relabels id id as as where
  vars := Set.injOn_id _
  gens := Set.injOn_id _
  turns := (List.map_congr_left fun a _ => subst_var_gen a).trans (List.map_id' as)

/-- Inverse functions turn the types back. -/
theorem Relabels.symm (h : Relabels f g as bs) :
    Relabels (Function.invFunOn f (varsIn as)) (Function.invFunOn g (gensIn as)) bs as where
  vars := h.image_vars ▸ Function.invFunOn_injOn_image f _
  gens := h.image_gens ▸ Function.invFunOn_injOn_image g _
  turns := by
    rw [← h.turns, List.map_map]
    refine (List.map_congr_left fun a ha => ?_).trans (List.map_id' as)
    rw [Function.comp_apply, relabel_relabel]
    refine (subst_congr fun x hx => ?_).trans (subst_var_gen a)
    cases x with
    | var v => exact congrArg Ty.var (h.vars.leftInvOn_invFunOn ⟨a, ha, hx⟩)
    | gen n => exact congrArg Ty.gen (h.gens.leftInvOn_invFunOn ⟨a, ha, hx⟩)

theorem Relabels.trans (h : Relabels f g as bs) (h' : Relabels f' g' bs cs) :
    Relabels (f' ∘ f) (g' ∘ g) as cs where
  vars := h'.vars.comp h.vars (Set.mapsTo_iff_image_subset.mpr h.image_vars.subset)
  gens := h'.gens.comp h.gens (Set.mapsTo_iff_image_subset.mpr h.image_gens.subset)
  turns := by
    rw [← h'.turns, ← h.turns, List.map_map]
    exact List.map_congr_left fun a _ => (relabel_relabel f g f' g' a).symm

end Equivalence

end Ty

end Mil
