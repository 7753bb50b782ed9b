import Mathlib.Logic.Relation
import Mathlib.Data.Finset.Filter
import Mil.Proofs.Ty.Unify

/-!
Recursion through the bindings of a store. Everything that reads a type goes from it to its parts, and
from a bound variable to its binding. If no variable can be reached from its own binding, this descent
comes to an end from every type; the functions that read types, which are given a number of steps that
no type needs, are then the ones that their equations without such a number describe.
-/

namespace Mil

namespace Ty

/-! ### The text of an application -/

/-- The text of an application from its head and its arguments. -/
def renderSpine : Ty → List Ty → String
  | .con .func, [dom, rng] => dom.render ++ " ->> " ++ rng.render
  | head, args => args.foldl (fun out arg => out ++ renderAt.renderArg arg.isAp arg.render) head.render

theorem renderList_eq_map (ts : List Ty) : renderList ts = ts.map render := by
  induction ts with
  | nil => rfl
  | cons t ts ih =>
      rw [renderList, ih]
      rfl

/-- A type is its head applied to its arguments. -/
theorem apply_spine (t : Ty) : apply t.spine.1 t.spine.2 = t := by
  induction t with
  | ap f a hf _ =>
      unfold apply at hf ⊢
      rw [spine, List.foldl_append, hf]
      rfl
  | _ => rfl

/-- Inside a function part the text of a type is put together along its spine. -/
theorem renderAt_spine (t : Ty) : t.renderAt true = t.spine.2.foldl
    (fun out arg => out ++ renderAt.renderArg arg.isAp arg.render) t.spine.1.render := by
  induction t with
  | ap f a hf _ =>
      by_cases hfunc : ∃ dom, f = .ap (.con .func) dom
      · obtain ⟨dom, rfl⟩ := hfunc
        rfl
      · rw [renderAt.eq_7 true f a fun dom hdom => hfunc ⟨dom, hdom⟩, hf, spine, List.foldl_append]
        rfl
  | _ => rfl

theorem render_ap (f a : Ty) : (ap f a).render = renderSpine (ap f a).spine.1 (ap f a).spine.2 := by
  by_cases hfunc : ∃ dom, f = .ap (.con .func) dom
  · obtain ⟨dom, rfl⟩ := hfunc
    rfl
  · have hne : ∀ dom, f = .ap (.con .func) dom → False := fun dom hdom => hfunc ⟨dom, hdom⟩
    have hrender : (ap f a).render = (ap f a).renderAt true := by
      rw [render, renderAt.eq_7 false f a hne, renderAt.eq_7 true f a hne]
    rw [hrender, renderAt_spine]
    have happly := apply_spine (ap f a)
    unfold renderSpine
    split
    · rename_i dom rng hhead hargs
      rw [hhead, hargs] at happly
      cases happly
      exact absurd rfl (hne dom)
    · rfl

end Ty

namespace Store

open Ty (Occurs)
open Relation (TransGen ReflTransGen)

variable {s : Store} {v w : Nat} {t b f a : Ty} {ts : List Ty}

/-- The binding of the first variable holds the second one. -/
def Leads (s : Store) (v w : Nat) : Prop := ∃ b, s.binding? v = some b ∧ Occurs (.var w) b

/-- No variable can be reached from its own binding. -/
def Acyclic (s : Store) : Prop := ∀ v, ¬ TransGen s.Leads v v

theorem Descends.lt_of_leads {rank : Nat → Nat} (h : s.Descends rank) (hvw : TransGen s.Leads v w) :
    rank w < rank v := by
  induction hvw with
  | single hstep =>
      obtain ⟨b, hb, hw⟩ := hstep
      exact h v b hb _ hw
  | tail _ hstep ih =>
      obtain ⟨b, hb, hw⟩ := hstep
      exact (h _ b hb _ hw).trans ih

theorem Ranked.acyclic (h : s.Ranked) : s.Acyclic := by
  obtain ⟨rank, hrank⟩ := h
  exact fun v hv => Nat.lt_irrefl _ (hrank.lt_of_leads hv)

/-- The number of bound variables that can be reached is a rank. -/
theorem Acyclic.ranked (h : s.Acyclic) : s.Ranked := by
  classical
  refine ⟨fun v => ((Finset.range s.cells.size).filter fun u =>
    (s.binding? u).isSome ∧ ReflTransGen s.Leads v u).card, fun v b hb w hw => ?_⟩
  have hvw : s.Leads v w := ⟨b, hb, hw⟩
  refine Finset.card_lt_card (Finset.ssubset_iff_of_subset ?_ |>.mpr ⟨v, ?_, ?_⟩)
  · intro u hu
    obtain ⟨hlt, hbound, hreach⟩ := Finset.mem_filter.mp hu
    exact Finset.mem_filter.mpr ⟨hlt, hbound, .head hvw hreach⟩
  · refine Finset.mem_filter.mpr ⟨Finset.mem_range.mpr (lt_size_of_binding? hb), ?_, .refl⟩
    rw [hb]
    rfl
  · intro hv
    exact h v (.head' hvw (Finset.mem_filter.mp hv).2.2)

/-! ### The descent -/

/-- The first type is a part of the second or its binding. -/
inductive Below (s : Store) : Ty → Ty → Prop
  | binding {v : Nat} {b : Ty} (hb : s.binding? v = some b) : Below s b (.var v)
  | fn {f a : Ty} : Below s f (.ap f a)
  | arg {f a : Ty} : Below s a (.ap f a)
  | elem {t : Ty} {ts : List Ty} (ht : t ∈ ts) : Below s t (.tuple ts)

/-- The descent from a type ends if those from its variables do. -/
theorem acc_below_of_vars (h : ∀ v, Occurs (.var v) t → Acc s.Below (.var v)) : Acc s.Below t := by
  induction t with
  | var v => exact h v .leaf
  | gen n => exact ⟨_, fun u hu => nomatch hu⟩
  | con c => exact ⟨_, fun u hu => nomatch hu⟩
  | ap f a hf ha =>
      refine ⟨_, fun u hu => ?_⟩
      cases hu with
      | fn => exact hf fun v hv => h v (.fn hv)
      | arg => exact ha fun v hv => h v (.arg hv)
  | nat n => exact ⟨_, fun u hu => nomatch hu⟩
  | tuple ts ih =>
      refine ⟨_, fun u hu => ?_⟩
      cases hu with
      | elem ht => exact ih u ht fun v hv => h v (.elem ht hv)

theorem Ranked.acc_below (h : s.Ranked) (t : Ty) : Acc s.Below t := by
  obtain ⟨rank, hrank⟩ := h
  have hvar : ∀ n v, rank v = n → Acc s.Below (.var v) := by
    intro n
    induction n using Nat.strong_induction_on with
    | _ n ih =>
        refine fun v hn => ⟨_, fun b hb => ?_⟩
        cases hb with
        | binding hb =>
            exact acc_below_of_vars fun w hw => ih (rank w) (hn ▸ hrank v _ hb w hw) w rfl
  exact acc_below_of_vars fun v _ => hvar _ v rfl

/-! ### Pruning -/

theorem pruneWith_var_of_none (hv : s.binding? v = none) (fuel : Nat) :
    s.pruneWith fuel (.var v) = .var v := by
  cases fuel with
  | zero => rfl
  | succ fuel => rw [pruneWith, hv]

theorem pruneWith_of_ne_var (ht : ∀ v, t ≠ .var v) (fuel : Nat) : s.pruneWith fuel t = t := by
  cases t with
  | var v => exact absurd rfl (ht v)
  | _ => cases fuel <;> rfl

/-- All numbers of steps that are enough for the variable at the head lead to one type. -/
theorem Descends.pruneWith_eq {rank : Nat → Nat} (h : s.Descends rank)
    (hpos : ∀ v b, s.binding? v = some b → 0 < rank v) (fuel fuel' : Nat)
    (ht : ∀ v, t = .var v → rank v ≤ fuel ∧ rank v ≤ fuel') :
    s.pruneWith fuel t = s.pruneWith fuel' t := by
  induction fuel generalizing fuel' t with
  | zero =>
      cases t with
      | var v =>
          have hv : s.binding? v = none := by
            by_contra hb
            obtain ⟨b, hb⟩ := Option.ne_none_iff_exists'.mp hb
            have := hpos v b hb
            have := (ht v rfl).1
            omega
          rw [pruneWith_var_of_none hv, pruneWith_var_of_none hv]
      | _ => exact (pruneWith_of_ne_var (by nofun) _).trans (pruneWith_of_ne_var (by nofun) _).symm
  | succ fuel ih =>
      cases t with
      | var v =>
          cases hv : s.binding? v with
          | none => rw [pruneWith_var_of_none hv, pruneWith_var_of_none hv]
          | some b =>
              obtain ⟨hle, hle'⟩ := ht v rfl
              obtain ⟨fuel', rfl⟩ : ∃ k, fuel' = k + 1 := ⟨fuel' - 1, by have := hpos v b hv; omega⟩
              rw [Store.pruneWith, Store.pruneWith, hv]
              refine ih fuel' fun w hw => ?_
              have := h v b hv w (hw ▸ .leaf)
              omega
      | _ => exact (pruneWith_of_ne_var (by nofun) _).trans (pruneWith_of_ne_var (by nofun) _).symm

theorem prune_of_ne_var (ht : ∀ v, t ≠ .var v) : s.prune t = t := pruneWith_of_ne_var ht _

theorem prune_var_of_none (hv : s.binding? v = none) : s.prune (.var v) = .var v :=
  pruneWith_var_of_none hv _

theorem Ranked.prune_var (h : s.Ranked) (hb : s.binding? v = some b) :
    s.prune (.var v) = s.prune b := by
  obtain ⟨rank, hrank⟩ := h
  obtain ⟨n, hn⟩ : ∃ n, s.cells.size = n + 1 :=
    ⟨s.cells.size - 1, by have := lt_size_of_binding? hb; omega⟩
  have hstep : s.prune (.var v) = s.pruneWith n b := by
    rw [prune, hn, pruneWith, hb]
  rw [hstep]
  refine hrank.height.pruneWith_eq (fun v b hb => height_pos hb) _ _ fun w hw => ?_
  have hlt := hrank.height v b hb w (hw ▸ .leaf)
  have hle := height_le_size (s := s) rank v
  omega

/-! ### What is read -/

theorem resolve_var_of_none (hv : s.binding? v = none) : s.resolve (.var v) = .var v :=
  reading_of_none hv

section Ranked

variable (h : s.Ranked)
include h

theorem Ranked.resolve_gen (n : Nat) : s.resolve (.gen n) = .gen n :=
  (h.resolve_eq _).trans (Ty.subst_gen ..)

theorem Ranked.resolve_con (c : Tycon) : s.resolve (.con c) = .con c :=
  (h.resolve_eq _).trans (Ty.subst_con ..)

theorem Ranked.resolve_nat (n : Nat) : s.resolve (.nat n) = .nat n :=
  (h.resolve_eq _).trans (Ty.subst_nat ..)

theorem Ranked.resolve_var (hb : s.binding? v = some b) : s.resolve (.var v) = s.resolve b :=
  (h.reading_of_some hb).trans (h.resolve_eq b).symm

theorem Ranked.resolve_ap (f a : Ty) : s.resolve (.ap f a) = .ap (s.resolve f) (s.resolve a) := by
  rw [h.resolve_eq, h.resolve_eq f, h.resolve_eq a, Ty.mapVars_ap]

theorem Ranked.resolve_tuple (ts : List Ty) :
    s.resolve (.tuple ts) = .tuple (ts.map s.resolve) := by
  rw [h.resolve_eq, Ty.mapVars_tuple]
  exact congrArg Ty.tuple (List.map_congr_left fun t _ => (h.resolve_eq t).symm)

/-- A type and its pruned form are read alike. -/
theorem Ranked.resolve_prune (t : Ty) : s.resolve (s.prune t) = s.resolve t := by
  rw [h.resolve_eq, h.resolve_eq t]
  exact h.solves_reading.prune t

/-- What has been read holds nothing to be read again. -/
theorem Ranked.resolve_resolve (t : Ty) : s.resolve (s.resolve t) = s.resolve t := by
  conv_lhs => rw [h.resolve_eq]
  exact (Ty.mapVars_congr fun v hv => reading_of_none (h.unbound_of_occurs hv)).trans
    (Ty.mapVars_self _)

end Ranked

theorem occurs_iff : s.occurs v t = true ↔ Occurs (.var v) (s.resolve t) := by
  rw [occurs, decide_eq_true_iff]
  exact mem_varsOf

/-! ### The text of a type -/

/-- The head of an application and its arguments, with heads of function parts pruned. -/
inductive Spine (s : Store) : Ty → Ty → List Ty → Prop
  | head {t : Ty} (ht : ∀ f a, s.prune t ≠ .ap f a) : Spine s t (s.prune t) []
  | ap {t f a head : Ty} {args : List Ty} (ht : s.prune t = .ap f a) (hf : Spine s f head args) :
      Spine s t head (args ++ [a])

/-- The text of an application from the texts of its head and its arguments. -/
def spineText (s : Store) : Ty → List Ty → String
  | .con .func, [dom, rng] => s.text dom ++ " ->> " ++ s.text rng
  | head, args =>
    args.foldl (fun out arg => out ++ Ty.renderAt.renderArg (s.prune arg).isAp (s.text arg)) (s.text head)

theorem Ranked.exists_spine (h : s.Ranked) (t : Ty) : ∃ head args, s.Spine t head args := by
  have hacc := h.acc_below t
  induction hacc with
  | intro t _ ih =>
      cases t with
      | var v =>
          cases hv : s.binding? v with
          | none =>
              refine ⟨_, _, .head fun f a => ?_⟩
              rw [prune_var_of_none hv]
              exact nofun
          | some b =>
              -- the binding has the same pruned form
              obtain ⟨head, args, hspine⟩ := ih b (.binding hv)
              refine ⟨head, args, ?_⟩
              cases hspine with
              | head hb => exact h.prune_var hv ▸ .head (h.prune_var hv ▸ hb)
              | ap hb hf => exact .ap ((h.prune_var hv).trans hb) hf
      | ap f a =>
          obtain ⟨head, args, hspine⟩ := ih f .fn
          exact ⟨head, _, .ap (prune_of_ne_var (by nofun)) hspine⟩
      | gen | con | nat | tuple =>
          refine ⟨_, _, .head fun f a => ?_⟩
          rw [prune_of_ne_var (by nofun)]
          exact nofun

/-- A type that is read begins with the symbol of its pruned form. -/
theorem Ranked.resolve_shape (h : s.Ranked) (t : Ty) :
    (∃ f a, s.prune t = .ap f a ∧ s.resolve t = .ap (s.resolve f) (s.resolve a)) ∨
    (∃ ts, s.prune t = .tuple ts ∧ s.resolve t = .tuple (ts.map s.resolve)) ∨
    s.prune t = s.resolve t ∧ ∀ f a, s.resolve t ≠ .ap f a := by
  rw [← h.resolve_prune t]
  cases hu : s.prune t with
  | var v =>
      rw [resolve_var_of_none (h.unbound_of_prune hu)]
      exact .inr (.inr ⟨rfl, nofun⟩)
  | gen n =>
      rw [h.resolve_gen]
      exact .inr (.inr ⟨rfl, nofun⟩)
  | con c =>
      rw [h.resolve_con]
      exact .inr (.inr ⟨rfl, nofun⟩)
  | ap f a => exact .inl ⟨f, a, rfl, h.resolve_ap f a⟩
  | nat n =>
      rw [h.resolve_nat]
      exact .inr (.inr ⟨rfl, nofun⟩)
  | tuple ts => exact .inr (.inl ⟨ts, rfl, h.resolve_tuple ts⟩)

theorem Ranked.isAp_prune (h : s.Ranked) (t : Ty) : (s.prune t).isAp = (s.resolve t).isAp := by
  rcases h.resolve_shape t with ⟨f, a, hp, hr⟩ | ⟨ts, hp, hr⟩ | ⟨hp, -⟩
  · rw [hp, hr]
    rfl
  · rw [hp, hr]
    rfl
  · rw [hp]

/-- The spine of a type is that of the type as it is read. -/
theorem Spine.resolve {head : Ty} {args : List Ty} (h : s.Ranked) (ht : s.Spine t head args) :
    (s.resolve t).spine = (s.resolve head, args.map s.resolve) ∧
      (∀ c, s.resolve head = .con c → head = .con c) := by
  induction ht with
  | @head t ht =>
      rw [h.resolve_prune]
      rcases h.resolve_shape t with ⟨f, a, hp, -⟩ | ⟨ts, hp, hr⟩ | ⟨hp, hr⟩
      · exact absurd hp (ht f a)
      · rw [hr]
        exact ⟨rfl, nofun⟩
      · refine ⟨?_, fun c hc => hp.trans hc⟩
        cases hu : s.resolve t with
        | ap f a => exact absurd hu (hr f a)
        | _ => rfl
  | @ap t f a head args ht _ ih =>
      refine ⟨?_, ih.2⟩
      rw [← h.resolve_prune t, ht, h.resolve_ap, Ty.spine, ih.1, List.map_append]
      rfl

/-- The text of an application is put together from the texts of its head and its arguments. -/
theorem Ranked.text_ap (h : s.Ranked) {head : Ty} {args : List Ty} (ht : s.Spine (.ap f a) head args) :
    s.text (.ap f a) = s.spineText head args := by
  obtain ⟨hspine, hhead⟩ := ht.resolve h
  have hrender : s.text (.ap f a) = Ty.renderSpine (s.resolve head) (args.map s.resolve) := by
    rw [h.resolve_ap] at hspine
    rw [text, h.resolve_ap, Ty.render_ap, hspine]
  have hfold : ∀ out : String, (args.map s.resolve).foldl
      (fun out arg => out ++ Ty.renderAt.renderArg arg.isAp arg.render) out =
        args.foldl (fun out arg => out ++ Ty.renderAt.renderArg (s.prune arg).isAp (s.text arg)) out := by
    intro out
    rw [List.foldl_map]
    simp only [h.isAp_prune]
    rfl
  rw [hrender]
  unfold Ty.renderSpine
  split
  · rename_i dom rng hfunc hargs
    obtain rfl := hhead _ hfunc
    obtain ⟨dom, rng, rfl⟩ : ∃ x y, args = [x, y] :=
      List.length_eq_two.mp ((List.length_map ..).symm.trans (congrArg List.length hargs))
    cases hargs
    rfl
  · rename_i hne
    rw [hfold]
    unfold spineText
    split
    · exact (hne _ _ (h.resolve_con _) rfl).elim
    · rfl

/-! ### The recursion without a number of steps -/

/-- The descent through a store ends, and what reads types is given by the equations of a recursion
along it. -/
structure Terminates (s : Store) : Prop where
  descends : WellFounded s.Below
  prune : ∀ t, s.prune t = match t with
    | .var v => match s.binding? v with
      | some b => s.prune b
      | none => .var v
    | t => t
  resolve : ∀ t, s.resolve t = match t with
    | .var v => match s.binding? v with
      | some b => s.resolve b
      | none => .var v
    | .ap f a => .ap (s.resolve f) (s.resolve a)
    | .tuple ts => .tuple (ts.map s.resolve)
    | t => t
  occurs : ∀ v t, s.occurs v t = match t with
    | .var w => match s.binding? w with
      | some b => s.occurs v b
      | none => v = w
    | .ap f a => s.occurs v f || s.occurs v a
    | .tuple ts => ts.any (s.occurs v)
    | _ => false
  addVars : ∀ t acc, s.addVars t acc = match t with
    | .var v => match s.binding? v with
      | some b => s.addVars b acc
      | none => if v ∈ acc then acc else acc ++ [v]
    | .ap f a => s.addVars a (s.addVars f acc)
    | .tuple ts => ts.foldl (fun acc t => s.addVars t acc) acc
    | _ => acc
  spine : ∀ t, ∃ head args, s.Spine t head args
  text_ap : ∀ {f a head args}, s.Spine (.ap f a) head args → s.text (.ap f a) = s.spineText head args
  text : ∀ t, (∀ f a, t ≠ .ap f a) → s.text t = match t with
    | .var v => match s.binding? v with
      | some b => s.text b
      | none => "_" ++ toString v
    | .gen n => Ty.genName n
    | .con c => c.name
    | .nat n => toString n
    | .tuple ts => "[" ++ ", ".intercalate (ts.map s.text) ++ "]"
    | .ap _ _ => ""
  key : ∀ t, s.text (s.resolve t) = s.text t

theorem Ranked.terminates (h : s.Ranked) : s.Terminates where
  descends := ⟨h.acc_below⟩
  prune t := by
    cases t with
    | var v =>
        cases hv : s.binding? v with
        | none => simp only [prune_var_of_none hv, hv]
        | some b => simp only [h.prune_var hv, hv]
    | _ => exact prune_of_ne_var (by nofun)
  resolve t := by
    cases t with
    | var v =>
        cases hv : s.binding? v with
        | none => simp only [resolve_var_of_none hv, hv]
        | some b => simp only [h.resolve_var hv, hv]
    | gen n => exact h.resolve_gen n
    | con c => exact h.resolve_con c
    | ap f a => exact h.resolve_ap f a
    | nat n => exact h.resolve_nat n
    | tuple ts => exact h.resolve_tuple ts
  occurs v t := by
    rw [Bool.eq_iff_iff, occurs_iff]
    cases t with
    | var w =>
        cases hw : s.binding? w with
        | none => simp [hw, resolve_var_of_none hw]
        | some b => simp only [hw, h.resolve_var hw, occurs_iff]
    | gen n => simp [h.resolve_gen]
    | con c => simp [h.resolve_con]
    | ap f a => simp [h.resolve_ap, occurs_iff]
    | nat n => simp [h.resolve_nat]
    | tuple ts => simp [h.resolve_tuple, occurs_iff]
  addVars t acc := by
    cases t with
    | var v =>
        cases hv : s.binding? v with
        | none => simp only [hv, Store.addVars, resolve_var_of_none hv, Ty.addVars]
        | some b => simp only [hv, Store.addVars, h.resolve_var hv]
    | gen n =>
        rw [Store.addVars, h.resolve_gen]
        rfl
    | con c =>
        rw [Store.addVars, h.resolve_con]
        rfl
    | ap f a => simp only [Store.addVars, h.resolve_ap, Ty.addVars]
    | nat n =>
        rw [Store.addVars, h.resolve_nat]
        rfl
    | tuple ts =>
        simp only [Store.addVars, h.resolve_tuple, Ty.addVars, Ty.addVarsList_eq_foldl, List.foldl_map]
  spine := h.exists_spine
  text_ap ht := h.text_ap ht
  text t ht := by
    cases t with
    | var v =>
        cases hv : s.binding? v with
        | none =>
            simp only [hv, Store.text, resolve_var_of_none hv]
            rfl
        | some b => simp only [hv, Store.text, h.resolve_var hv]
    | gen n =>
        rw [Store.text, h.resolve_gen]
        rfl
    | con c =>
        rw [Store.text, h.resolve_con]
        rfl
    | ap f a => exact absurd rfl (ht f a)
    | nat n =>
        rw [Store.text, h.resolve_nat]
        rfl
    | tuple ts =>
        rw [Store.text, h.resolve_tuple, Ty.render, Ty.renderAt, Ty.renderList_eq_map, List.map_map]
        rfl
  key t := by
    rw [Store.text, Store.text, h.resolve_resolve]

end Store

end Mil
