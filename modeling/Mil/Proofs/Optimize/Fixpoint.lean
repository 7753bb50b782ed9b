import Mathlib.Logic.Function.Iterate
import Mil.Proofs.Optimize.Shrink
import Mil.Proofs.Rep.Carry

/-!
One removal of parameters is enough. The needs of what is left, put back to the places that their
parameters had, satisfy all that the needs before had to satisfy. Those were the least, so nothing that was
kept is unneeded now: each round of marks before the removal stays within the marks after it.
-/

namespace Mil

/-- What a body branches on. -/
def Code.scrutinees : Code → List Atom
  | .bind _ _ next => next.scrutinees
  | .done _ => []
  | .branch cond _ _ => [cond]
  | .case scrut _ _ => [scrut]

/-- What the code of a definition branches on. -/
def DefnBody.scrutinees : DefnBody → List Atom
  | .block b => (b.body.map Code.scrutinees).getD []
  | .closure _ => []
  | .top _ => []
  | .external _ => []

namespace Optimize

open Needs (keep)

/-! ### The rounds -/

namespace Needs

variable {p : Program} {needs : Needs}

/-- What the rounds come to is what some number of them comes to. -/
theorem exists_iterate_close (p : Program) (fuel : Nat) (needs : Needs) :
    ∃ n, (round p)^[n] needs = close p fuel needs := by
  induction fuel generalizing needs with
  | zero => exact ⟨0, rfl⟩
  | succ fuel ih =>
      unfold close
      dsimp only
      split
      · exact ⟨0, rfl⟩
      · obtain ⟨n, hn⟩ := ih (round p needs)
        exact ⟨n + 1, hn⟩

/-- What each round keeps holds in the end. -/
theorem close_induction {P : Needs → Prop} (hP : ∀ needs, P needs → P (round p needs)) (h : P needs)
    (fuel : Nat) : P (close p fuel needs) := by
  obtain ⟨n, hn⟩ := exists_iterate_close p fuel needs
  exact hn ▸ Function.Iterate.rec P h hP n

end Needs

/-! ### Marks before and after -/

section Within

variable {α : Type} {ks bs bs' : List Bool} {xs : List α} {vs : List Temp} {before before' : List Temp}
  {as as' bound : List Atom}

/-- The first marks are among the second, and those that the second keep are among the third. -/
inductive Within : List Bool → List Bool → List Bool → Prop
  | nil : Within [] [] []
  | gone {ks bs bs' : List Bool} (h : Within ks bs bs') : Within (false :: ks) (false :: bs) bs'
  | kept {ks bs bs' : List Bool} {k b' : Bool} (hk : k = true → b' = true) (h : Within ks bs bs') :
      Within (k :: ks) (true :: bs) (b' :: bs')

theorem Within.length_left (h : Within ks bs bs') : ks.length = bs.length := by
  induction h with
  | nil => rfl
  | gone _ ih => exact congrArg (· + 1) ih
  | kept _ _ ih => exact congrArg (· + 1) ih

theorem Within.length_right (h : Within ks bs bs') : bs'.length = bs.count true := by
  induction h with
  | nil => rfl
  | gone _ ih => rw [ih, List.count_cons_of_ne (by decide)]
  | kept _ _ ih => rw [List.length_cons, ih, List.count_cons_self]

/-- The marks to start from, all or none, are within any if they are none, and within all marks. -/
theorem within_start (e : Bool) (hlen : xs.length = bs.length) (hcount : bs'.length = bs.count true)
    (he : e = true → (∀ b ∈ bs, b = true) ∧ ∀ b ∈ bs', b = true) : Within (xs.map fun _ => e) bs bs' := by
  induction bs generalizing xs bs' with
  | nil =>
      rw [List.eq_nil_of_length_eq_zero hlen, List.eq_nil_of_length_eq_zero hcount]
      exact .nil
  | cons b bs ih =>
      obtain ⟨x, xs, rfl⟩ := List.exists_cons_of_length_eq_add_one hlen
      cases b with
      | false =>
          have hfalse : e = false := by
            by_contra htrue
            cases (he (Bool.eq_true_of_not_eq_false htrue)).1 false (.head _)
          subst hfalse
          rw [List.count_cons_of_ne (by decide)] at hcount
          exact .gone (ih (Nat.succ.inj hlen) hcount nofun)
      | true =>
          rw [List.count_cons_self] at hcount
          obtain ⟨b', bs', rfl⟩ := List.exists_cons_of_length_eq_add_one hcount
          refine .kept (fun htrue => (he htrue).2 b' (.head _)) ?_
          refine ih (Nat.succ.inj hlen) (Nat.succ.inj hcount) fun htrue => ?_
          exact ⟨fun b hb => (he htrue).1 b (.tail _ hb), fun b hb => (he htrue).2 b (.tail _ hb)⟩

/-- If all that is kept is within marks, these are all. -/
theorem Within.all (h : Within bs bs bs') : ∀ b ∈ bs', b = true := by
  induction bs generalizing bs' with
  | nil =>
      cases h
      exact List.forall_mem_nil _
  | cons b bs ih =>
      cases h with
      | gone h => exact ih h
      | kept hk h => exact List.forall_mem_cons.mpr ⟨hk rfl, ih h⟩

theorem Within.keep_subset (h : Within ks bs bs') (hlen : xs.length = bs.length) :
    keep xs ks ⊆ keep (keep xs bs) bs' := by
  induction h generalizing xs with
  | nil =>
      rw [List.eq_nil_of_length_eq_zero hlen]
      exact List.Subset.refl _
  | gone _ ih =>
      obtain ⟨x, xs, rfl⟩ := List.exists_cons_of_length_eq_add_one hlen
      exact ih (Nat.succ.inj hlen)
  | @kept ks bs bs' k b' hk _ ih =>
      obtain ⟨x, xs, rfl⟩ := List.exists_cons_of_length_eq_add_one hlen
      have hrest := ih (Nat.succ.inj hlen)
      rw [Needs.keep_cons, Needs.keep_cons x xs true, if_pos rfl, Needs.keep_cons]
      cases k with
      | true =>
          rw [hk rfl]
          exact List.cons_subset_cons x hrest
      | false =>
          rw [if_neg (by decide)]
          split
          · exact List.subset_cons_of_subset _ hrest
          · exact hrest

/-- A parameter that is marked next is within the marks of the removal and within the marks after it, if
these are closed and what is needed is among what they need. -/
theorem Within.mark (h : Within ks bs bs') (hlen : vs.length = bs.length)
    (hbound : ∀ v ∈ vs, .temp v ∈ as → .temp v ∈ bound) (has : ∀ v ∈ vs, .temp v ∈ as → .temp v ∈ as')
    (hclosed : Needs.mark bound before vs bs = bs)
    (hclosed' : Needs.mark as' before' (keep vs bs) bs' = bs') (hbefore : before' ⊆ before) :
    Within (Needs.mark as before vs ks) bs bs' := by
  induction h generalizing vs before before' with
  | nil =>
      rw [List.eq_nil_of_length_eq_zero hlen]
      exact .nil
  | gone _ ih =>
      -- The parameter was removed. A mark here would be one that the removal missed.
      obtain ⟨v, vs, rfl⟩ := List.exists_cons_of_length_eq_add_one hlen
      obtain ⟨hhead, hclosed⟩ := List.cons.inj hclosed
      have hfirst : (as.contains (.temp v) && decide (v ∉ before)) = false := by
        by_contra hmark
        obtain ⟨hmem, hnew⟩ : .temp v ∈ as ∧ v ∉ before := by simpa using hmark
        have hneeded := hbound v (.head _) hmem
        simp [hneeded, hnew] at hhead
      rw [Needs.mark, hfirst]
      refine .gone (ih (Nat.succ.inj hlen) ?_ ?_ hclosed hclosed' ?_)
      · exact fun u hu => hbound u (.tail _ hu)
      · exact fun u hu => has u (.tail _ hu)
      · exact List.subset_cons_of_subset _ hbefore
  | @kept ks bs bs' k b' hk _ ih =>
      obtain ⟨v, vs, rfl⟩ := List.exists_cons_of_length_eq_add_one hlen
      rw [Needs.keep_cons, if_pos rfl] at hclosed'
      obtain ⟨-, hclosed⟩ := List.cons.inj hclosed
      obtain ⟨hhead, hclosed'⟩ := List.cons.inj hclosed'
      -- Fewer temporaries stand before it now, so what was the first of its name is so after the removal.
      refine .kept (fun hmark => ?_) (ih (Nat.succ.inj hlen) ?_ ?_ hclosed hclosed' ?_)
      · rw [← hhead]
        rcases Bool.or_eq_true_iff.mp hmark with hold | hnew
        · rw [hk hold, Bool.true_or]
        · obtain ⟨hmem, hnew⟩ : .temp v ∈ as ∧ v ∉ before := by simpa using hnew
          have hneeded := has v (.head _) hmem
          have hfirst : v ∉ before' := fun hv => hnew (hbefore hv)
          simp [hneeded, hfirst]
      · exact fun u hu => hbound u (.tail _ hu)
      · exact fun u hu => has u (.tail _ hu)
      · exact List.cons_subset_cons v hbefore

end Within

/-! ### References after the removal -/

section References

variable {needs : Needs} {id : DefnId} {body body' : DefnBody}

theorem append_subset_append {α : Type} {xs xs' ys ys' : List α} (hx : xs ⊆ xs') (hy : ys ⊆ ys') :
    xs ++ ys ⊆ xs' ++ ys' :=
  List.append_subset.mpr ⟨List.subset_append_of_subset_left _ hx, List.subset_append_of_subset_right _ hy⟩

theorem flatMap_subset_of_forall₂ {α β γ : Type} {R : α → β → Prop} {f : α → List γ} {g : β → List γ}
    {xs : List α} {ys : List β} (h : List.Forall₂ R xs ys)
    (hR : ∀ x ∈ xs, ∀ y ∈ ys, R x y → f x ⊆ g y) : xs.flatMap f ⊆ ys.flatMap g := by
  induction h with
  | nil => exact List.Subset.refl _
  | cons hfirst _ ih =>
      rw [List.flatMap_cons, List.flatMap_cons]
      refine append_subset_append (hR _ (.head _) _ (.head _) hfirst) (ih fun x hx y hy => ?_)
      exact hR x (.tail _ hx) y (.tail _ hy)

theorem keep_subset {α : Type} {xs : List α} {bits : List Bool} : keep xs bits ⊆ xs := by
  intro x hx
  obtain ⟨⟨y, b⟩, hy, rfl⟩ := List.mem_map.mp hx
  exact (List.of_mem_zip (List.mem_filter.mp hy).1).1

theorem TailTrim.target?_eq {t t' : Tail} (h : TailTrim needs t t') : t'.target? = t.target? := by
  cases h with
  | call h =>
      cases h
      rfl
  | alloc => rfl
  | same => rfl

theorem TailTrim.atoms_subset {t t' : Tail} (h : TailTrim needs t t') : t'.atoms ⊆ t.atoms := by
  cases h with
  | call h =>
      cases h
      exact keep_subset
  | alloc => exact keep_subset
  | same => exact List.Subset.refl _

theorem TailTrim.refs_subset {t t' : Tail} (h : TailTrim needs t t') : t'.refs ⊆ t.refs := by
  rw [Tail.refs, Tail.refs, h.target?_eq]
  exact append_subset_append (List.filterMap_subset _ h.atoms_subset) (List.Subset.refl _)

theorem CallTrim.refs_subset {c c' : BlockCall} (h : CallTrim needs c c') :
    (Tail.call c').refs ⊆ (Tail.call c).refs := TailTrim.refs_subset (.call h)

theorem CodeTrim.calls {c c' : Code} (h : CodeTrim needs c c') :
    List.Forall₂ (CallTrim needs) c.calls c'.calls := by
  cases h with
  | bind => exact .nil
  | done => exact .nil
  | branch hc he => exact .cons hc (.cons he .nil)
  | case halts hdefault =>
      have hfirst := List.forall₂_map_left_iff.mpr (List.forall₂_map_right_iff.mpr (halts.imp fun _ _ h => h.2))
      refine List.rel_append hfirst ?_
      cases hdefault with
      | none => exact .nil
      | some h => exact .cons h .nil

theorem CodeTrim.operations {c c' : Code} (h : CodeTrim needs c c') :
    List.Forall₂ (TailTrim needs) c.operations c'.operations := by
  induction h with
  | bind ht _ ih => exact .cons ht ih
  | done ht => exact .cons ht .nil
  | branch hc he => exact .cons (.call hc) (.cons (.call he) .nil)
  | @case scrut alts alts' default default' halts hdefault =>
      have htrim : CodeTrim needs (.case scrut alts default) (.case scrut alts' default') := .case halts hdefault
      have hcalls := htrim.calls
      exact List.forall₂_map_left_iff.mpr (List.forall₂_map_right_iff.mpr (hcalls.imp fun _ _ h => .call h))

theorem CodeTrim.refs_subset {c c' : Code} (h : CodeTrim needs c c') : c'.refs ⊆ c.refs := by
  induction h with
  | bind ht _ ih => exact append_subset_append ht.refs_subset ih
  | done ht => exact ht.refs_subset
  | branch hc he =>
      refine append_subset_append ?_ he.refs_subset
      exact append_subset_append (List.Subset.refl _) hc.refs_subset
  | @case scrut alts alts' default default' halts hdefault =>
      have htrim : CodeTrim needs (.case scrut alts default) (.case scrut alts' default') := .case halts hdefault
      have hcalls := htrim.calls
      refine append_subset_append (List.Subset.refl _) ?_
      exact flatMap_subset_of_forall₂ hcalls.flip fun _ _ _ _ htrim => htrim.refs_subset

/-- What holds of parts that are related, and of what stands for a missing one, holds of optional parts. -/
theorem getD_of_rel {α β γ δ : Type} {R : α → β → Prop} {S : γ → δ → Prop} {f : α → γ} {g : β → δ} {u : γ}
    {v : δ} {x : Option α} {y : Option β} (h : Option.Rel R x y) (hR : ∀ {a b}, R a b → S (f a) (g b))
    (hnone : S u v) : S ((x.map f).getD u) ((y.map g).getD v) := by
  cases h with
  | none => exact hnone
  | some h => exact hR h

theorem BodyTrim.refs_subset
    (h : BodyTrim needs id (Option.Rel (CodeTrim needs)) (Option.Rel (TailTrim needs)) body body') :
    body'.refs ⊆ body.refs := by
  have htail {t t' : Option Tail} (h : Option.Rel (TailTrim needs) t t') :
      (t'.map Tail.refs).getD [] ⊆ (t.map Tail.refs).getD [] :=
    getD_of_rel (S := fun is js : List DefnId => js ⊆ is) h TailTrim.refs_subset (List.Subset.refl _)
  cases h with
  | block _ _ _ hbody =>
      exact getD_of_rel (S := fun is js : List DefnId => js ⊆ is) hbody CodeTrim.refs_subset (List.Subset.refl _)
  | closure _ _ _ _ h => exact htail h
  | top h => exact htail h
  | external e => exact List.Subset.refl _

theorem BodyTrim.operations
    (h : BodyTrim needs id (Option.Rel (CodeTrim needs)) (Option.Rel (TailTrim needs)) body body') :
    List.Forall₂ (TailTrim needs) body.operations body'.operations := by
  have htail {t t' : Option Tail} (h : Option.Rel (TailTrim needs) t t') :
      List.Forall₂ (TailTrim needs) t.toList t'.toList := by
    cases h with
    | none => exact .nil
    | some h => exact .cons h .nil
  cases h with
  | block _ _ _ hbody => exact getD_of_rel hbody CodeTrim.operations .nil
  | closure _ _ _ _ h => exact htail h
  | top h => exact htail h
  | external e => exact .nil

theorem BodyTrim.params_eq {C : Option Code → Option Code → Prop} {T : Option Tail → Option Tail → Prop}
    {bits : List Bool} (h : BodyTrim needs id C T body body') (hbits : needs.lookup id = some bits) :
    body'.params = keep body.params bits := by
  cases h with
  | block hlookup _ hparams _ =>
      cases hlookup.symm.trans hbits
      exact hparams
  | closure hlookup _ hparams _ _ =>
      cases hlookup.symm.trans hbits
      exact hparams
  | top => rfl
  | external => rfl

theorem BodyTrim.hasParams_eq {C : Option Code → Option Code → Prop} {T : Option Tail → Option Tail → Prop}
    (h : BodyTrim needs id C T body body') : Needs.hasParams body' = Needs.hasParams body := by
  cases h <;> rfl

end References

/-! ### Operands that are needed -/

section Operands

variable {needs needs' : Needs} {id : DefnId} {bits : List Bool} {a : Atom} {t t' : Tail} {c c' : Code}
  {body body' : DefnBody}

theorem Needs.operands_eq_keep (ht : t.target? = some id) (hbits : needs.lookup id = some bits)
    (hlen : t.atoms.length = bits.length) : needs.operands t = keep t.atoms bits := by
  rw [operands, ht]
  dsimp only
  rw [hbits]
  dsimp only
  rw [← hlen, List.drop_length, List.append_nil]

theorem Needs.operands_subset (needs : Needs) (t : Tail) : needs.operands t ⊆ t.atoms := by
  unfold operands
  split
  · exact List.Subset.refl _
  · split
    · exact List.Subset.refl _
    · exact List.append_subset.mpr ⟨keep_subset, List.drop_subset _ _⟩

/-- A body needs what it branches on and what its operations need. -/
theorem Needs.mem_codeOperands : a ∈ needs.codeOperands c ↔
    a ∈ c.scrutinees ++ c.operations.flatMap needs.operands := by
  induction c with
  | bind vars t next ih =>
      rw [codeOperands, List.mem_append, ih, Code.scrutinees, Code.operations, List.flatMap_cons]
      simp only [List.mem_append]
      exact or_left_comm
  | done t => simp [codeOperands, Code.scrutinees, Code.operations]
  | branch cond c d => simp [codeOperands, Code.scrutinees, Code.operations, Code.calls]
  | case scrut alts default =>
      have hcalls : (Code.case scrut alts default).operations =
          (Code.case scrut alts default).calls.map .call := rfl
      rw [codeOperands, Code.scrutinees, hcalls, List.flatMap_map]
      rfl

theorem Needs.mem_defnOperands (hparams : hasParams body = true) : a ∈ needs.defnOperands body ↔
    a ∈ body.scrutinees ++ body.operations.flatMap needs.operands := by
  cases body with
  | block b =>
      rw [defnOperands, DefnBody.scrutinees, DefnBody.operations]
      cases b.body with
      | none => exact Iff.rfl
      | some c => exact mem_codeOperands
  | closure k =>
      rw [defnOperands, DefnBody.scrutinees, DefnBody.operations]
      cases k.tail <;> simp
  | top l => cases hparams
  | external e => cases hparams

theorem CodeTrim.scrutinees_eq (h : CodeTrim needs c c') : c'.scrutinees = c.scrutinees := by
  induction h with
  | bind _ _ ih => exact ih
  | done => rfl
  | branch => rfl
  | case => rfl

theorem BodyTrim.scrutinees_eq
    (h : BodyTrim needs id (Option.Rel (CodeTrim needs)) (Option.Rel (TailTrim needs)) body body') :
    body'.scrutinees = body.scrutinees := by
  cases h with
  | block _ _ _ hbody => exact getD_of_rel (S := fun as bs => bs = as) hbody CodeTrim.scrutinees_eq rfl
  | closure => rfl
  | top => rfl
  | external => rfl

/-- What is left of an operation needs no more than the operation needed. -/
theorem TailTrim.operands_subset (h : TailTrim needs t t') : needs'.operands t' ⊆ needs.operands t := by
  cases h with
  | call h =>
      cases h with
      | intro inst inst' hbits hlen =>
          rw [Needs.operands_eq_keep (t := .call ⟨_, _, inst⟩) rfl hbits hlen]
          exact needs'.operands_subset _
  | alloc inst inst' hbits hlen =>
      rw [Needs.operands_eq_keep (t := .alloc _ _ inst) rfl hbits hlen]
      exact needs'.operands_subset _
  | same h =>
      have hsame : needs.operands t = t.atoms := by rw [Needs.operands, h]
      rw [hsame]
      exact needs'.operands_subset t

theorem BodyTrim.defnOperands_subset
    (h : BodyTrim needs id (Option.Rel (CodeTrim needs)) (Option.Rel (TailTrim needs)) body body')
    (hparams : Needs.hasParams body = true) : needs'.defnOperands body' ⊆ needs.defnOperands body := by
  intro a ha
  rw [Needs.mem_defnOperands (h.hasParams_eq.trans hparams), h.scrutinees_eq] at ha
  rw [Needs.mem_defnOperands hparams]
  refine append_subset_append (List.Subset.refl _) ?_ ha
  exact flatMap_subset_of_forall₂ h.operations.flip fun _ _ _ _ htrim => htrim.operands_subset

end Operands

/-! ### Needs before and after -/

/-- In some definitions the marks so far are within those of a removal, and what these keep is within the
marks after it. -/
def Covered (R : DefnId → Prop) (marked kept after : Needs) : Prop :=
  ∀ id, R id → ∀ bits, kept.lookup id = some bits →
    ∃ ks bits', marked.lookup id = some ks ∧ after.lookup id = some bits' ∧ Within ks bits bits'

section Covered

variable {R : DefnId → Prop} {needs kept after : Needs} {id : DefnId} {t t' : Tail} {body body' : DefnBody}

theorem Covered.operands_subset (h : Covered R needs kept after) (ht : TailTrim kept t t')
    (hR : ∀ i, t.target? = some i → R i) : needs.operands t ⊆ after.operands t' := by
  have hkeep {id : DefnId} {args : List Atom} {bits : List Bool} (hid : R id)
      (hbits : kept.lookup id = some bits) (hlen : args.length = bits.length) {t t' : Tail}
      (htarget : t.target? = some id) (htarget' : t'.target? = some id) (hatoms : t.atoms = args)
      (hatoms' : t'.atoms = keep args bits) : needs.operands t ⊆ after.operands t' := by
    obtain ⟨ks, bits', hks, hbits', hwithin⟩ := h id hid bits hbits
    have hlen' : t'.atoms.length = bits'.length := by
      rw [hatoms', Needs.length_keep hlen, hwithin.length_right]
    rw [Needs.operands_eq_keep htarget hks (by rw [hatoms, hlen, hwithin.length_left]),
      Needs.operands_eq_keep htarget' hbits' hlen', hatoms, hatoms']
    exact hwithin.keep_subset hlen
  cases ht with
  | call ht =>
      cases ht with
      | intro inst inst' hbits hlen => exact hkeep (hR _ rfl) hbits hlen rfl rfl rfl rfl
  | alloc inst inst' hbits hlen => exact hkeep (hR _ rfl) hbits hlen rfl rfl rfl rfl
  | same h =>
      rw [Needs.operands, Needs.operands, h]
      exact List.Subset.refl _

/-- What a definition needs by the marks so far, what is left of it needs by the marks after. -/
theorem Covered.defnOperands_subset (h : Covered R needs kept after)
    (hbody : BodyTrim kept id (Option.Rel (CodeTrim kept)) (Option.Rel (TailTrim kept)) body body')
    (hparams : Needs.hasParams body = true) (hR : ∀ i ∈ body'.refs, R i) :
    needs.defnOperands body ⊆ after.defnOperands body' := by
  intro a ha
  rw [Needs.mem_defnOperands hparams] at ha
  rw [Needs.mem_defnOperands (hbody.hasParams_eq.trans hparams), hbody.scrutinees_eq]
  refine append_subset_append (List.Subset.refl _) ?_ ha
  refine flatMap_subset_of_forall₂ hbody.operations fun t _ t' ht' htrim => h.operands_subset htrim ?_
  intro i hi
  have hmem : i ∈ t'.refs :=
    List.mem_append_right _ (Option.mem_toList.mpr (htrim.target?_eq.trans hi))
  exact hR i (DefnBody.refs_operations ht' hmem)

end Covered

/-! ### The pass -/

section Pass

variable {p p' : Program} {id : DefnId}

/-- After the removal references still lead only to what can be reached, and that is no more than before. -/
theorem Trimmed.contained {needs : Needs} (hp : p.Contained) (h : Trimmed p p' needs) :
    p'.Contained ∧ ∀ id ∈ p'.reachable, id ∈ p.reachable := by
  have hstep : ∀ i ∈ p.reachable, ∀ j ∈ p'.dependencies i, j ∈ p.reachable := by
    intro i hi j hj
    obtain ⟨d, hd⟩ := Program.exists_of_reachable hi
    obtain ⟨d', hd', htrim⟩ := h.defns hi hd
    obtain ⟨e, he, hj⟩ := Program.mem_dependencies.mp hj
    cases hd'.symm.trans he
    exact hp.refs hi hd j (htrim.body.refs_subset hj)
  obtain ⟨hentries, hrefs, hwithin⟩ := Program.reachable_closed (p := p') (A := (· ∈ p.reachable))
    (fun i hi => h.size ▸ Program.lt_of_reachable hi) (fun i hi => hp.entries i (h.entries ▸ hi)) hstep
  exact ⟨⟨hentries, fun hi hd r hr => hrefs _ hi r (Program.mem_dependencies.mpr ⟨_, hd, hr⟩)⟩, hwithin⟩

theorem covered_start (hwithin : ∀ id ∈ p'.reachable, id ∈ p.reachable)
    (h : Trimmed p p' (Needs.least p p.reachable)) : Covered (· ∈ p'.reachable) (Needs.start p p.reachable)
      (Needs.least p p.reachable) (Needs.least p' p'.reachable) := by
  intro id hid bits hbits
  obtain ⟨d, hd⟩ := Program.exists_of_reachable (hwithin id hid)
  obtain ⟨d', hd', htrim⟩ := h.defns (hwithin id hid) hd
  have hparams : Needs.hasParams d.body = true := Needs.hasParams_of_lookup_least hbits hd
  obtain ⟨bits', hbits'⟩ :=
    Needs.exists_lookup_least hid hd' (htrim.body.hasParams_eq.trans hparams)
  obtain ⟨hlen, hall⟩ := Needs.lookup_least hbits hd
  obtain ⟨hlen', hall'⟩ := Needs.lookup_least hbits' hd'
  have hstart : (Needs.start p p.reachable).lookup id = some (d.body.params.map fun _ => d.entry) := by
    rw [Needs.lookup_start hd, if_pos ⟨hwithin id hid, hparams⟩]
  refine ⟨_, bits', hstart, hbits', within_start d.entry hlen.symm ?_ fun hentry => ?_⟩
  · rw [hlen', htrim.body.params_eq hbits, Needs.length_keep hlen.symm]
  · have hcount := List.count_eq_length.mp (hall hentry)
    have hcount' := List.count_eq_length.mp (hall' (htrim.entry.trans hentry))
    exact ⟨fun b hb => (hcount b hb).symm, fun b hb => (hcount' b hb).symm⟩

/-- A round before the removal stays within the marks after it. -/
theorem Covered.round {needs : Needs} (hp' : p'.Contained) (hwithin : ∀ id ∈ p'.reachable, id ∈ p.reachable)
    (htrimmed : Trimmed p p' (Needs.least p p.reachable))
    (h : Covered (· ∈ p'.reachable) needs (Needs.least p p.reachable) (Needs.least p' p'.reachable)) :
    Covered (· ∈ p'.reachable) (Needs.round p needs) (Needs.least p p.reachable)
      (Needs.least p' p'.reachable) := by
  intro id hid bits hbits
  obtain ⟨ks, bits', hks, hbits', hcovered⟩ := h id hid bits hbits
  obtain ⟨d, hd⟩ := Program.exists_of_reachable (hwithin id hid)
  obtain ⟨d', hd', htrim⟩ := htrimmed.defns (hwithin id hid) hd
  refine ⟨Needs.update p needs id ks, bits', by rw [Needs.lookup_round, hks, Option.map_some], hbits', ?_⟩
  have hclosed := Needs.update_least hbits
  have hclosed' := Needs.update_least hbits'
  unfold Needs.update at hclosed hclosed' ⊢
  rw [hd] at hclosed ⊢
  rw [hd'] at hclosed'
  dsimp only at hclosed hclosed' ⊢
  rw [htrim.entry] at hclosed'
  by_cases hentry : d.entry = true
  · rw [if_pos hentry]
    exact hcovered
  · rw [if_neg hentry] at hclosed hclosed' ⊢
    rw [htrim.body.params_eq hbits] at hclosed'
    have hparams : Needs.hasParams d.body = true := Needs.hasParams_of_lookup_least hbits hd
    have hafter := h.defnOperands_subset htrim.body hparams (hp'.refs hid hd')
    have hbound : (Needs.least p' p'.reachable).defnOperands d'.body ⊆ _ :=
      htrim.body.defnOperands_subset hparams
    refine hcovered.mark (Needs.lookup_least hbits hd).1.symm (fun v _ hv => hbound (hafter hv))
      (fun v _ hv => hafter hv) hclosed hclosed' (List.Subset.refl _)

/-- After the removal all parameters are needed. -/
theorem shrinking_least_eq_nil (hp : p.Contained) (h : Trimmed p p' (Needs.least p p.reachable)) :
    (Needs.least p' p'.reachable).shrinking = [] := by
  obtain ⟨hp', hwithin⟩ := h.contained hp
  have hcovered : Covered (· ∈ p'.reachable) (Needs.least p p.reachable) (Needs.least p p.reachable)
      (Needs.least p' p'.reachable) :=
    Needs.close_induction (P := fun needs => Covered (· ∈ p'.reachable) needs (Needs.least p p.reachable)
        (Needs.least p' p'.reachable))
      (fun _ hneeds => hneeds.round hp' hwithin h) (covered_start hwithin h) _
  -- At the end of the rounds the first marks are the second, and of what these keep nothing may be missing.
  refine List.filter_eq_nil_iff.mpr fun ⟨id, bits'⟩ hmem hany => ?_
  have hlookup : (Needs.least p' p'.reachable).lookup id = some bits' :=
    lookup_of_mem (Needs.nodup_keys_least p' (List.nodup_range.filter _)) hmem
  have hid : id ∈ p'.reachable := Needs.mem_of_lookup_least hlookup
  obtain ⟨d, hd⟩ := Program.exists_of_reachable (hwithin id hid)
  obtain ⟨d', hd', htrim⟩ := h.defns (hwithin id hid) hd
  have hparams : Needs.hasParams d.body = true :=
    htrim.body.hasParams_eq.symm.trans (Needs.hasParams_of_lookup_least hlookup hd')
  obtain ⟨bits, hbits⟩ := Needs.exists_lookup_least (hwithin id hid) hd hparams
  obtain ⟨ks, bits₁, hks, hbits₁, hall⟩ := hcovered id hid bits hbits
  cases hbits.symm.trans hks
  cases hlookup.symm.trans hbits₁
  obtain ⟨b, hb, hfalse⟩ := List.any_eq_true.mp hany
  rw [hall.all b hb] at hfalse
  cases hfalse

/-- An entrypoint keeps its parameters. -/
theorem Trimmed.entry_inputs (h : Trimmed p p' (Needs.least p p.reachable)) {d : Defn}
    (hd : p.defns[id]? = some d) (hentry : d.entry = true) :
    ∃ d', p'.defns[id]? = some d' ∧ d'.entry = true ∧ d'.body.inputs = d.body.inputs := by
  by_cases hid : id ∈ p.reachable
  · obtain ⟨d', hd', htrim⟩ := h.defns hid hd
    refine ⟨d', hd', htrim.entry.trans hentry, ?_⟩
    have hbody := htrim.body
    have hkeep {bits : List Bool} (hbits : (Needs.least p p.reachable).lookup id = some bits) :
        keep d.body.params bits = d.body.params := by
      obtain ⟨hlen, hall⟩ := Needs.lookup_least hbits hd
      exact Needs.keep_eq_self hlen.symm (hall hentry)
    generalize d.body = body, d'.body = body' at hbody hkeep
    cases hbody with
    | block hbits _ hparams _ => exact hparams.trans (hkeep hbits)
    | closure hbits _ hparams hargs _ =>
        rw [DefnBody.inputs, DefnBody.inputs, hparams, hargs]
        exact congrArg (· ++ _) (hkeep hbits)
    | top => rfl
    | external => rfl
  · exact ⟨d, h.others hid hd, hentry, rfl⟩

/-- **One removal of parameters is enough.** If no reference leads out of what can be reached, as in every
program that is linked, and calls and allocations match their targets, the marking of parameters comes to an
end after some rounds. The pass goes through, and run again right after it, it finds nothing to remove and
changes nothing. Entrypoints keep all their parameters. -/
theorem removeUnused_once (hp : p.Contained) (hmatches : p.CallsMatch) :
    (∃ n, (Needs.round p)^[n] (Needs.start p p.reachable) = Needs.least p p.reachable ∧
      Needs.round p (Needs.least p p.reachable) = Needs.least p p.reachable) ∧
    ∃ changed p', removeUnused p = .ok (changed, p') ∧ removeUnused p' = .ok (false, p') ∧
      ∀ (id : DefnId) (d : Defn), p.defns[id]? = some d → d.entry = true →
        ∃ d', p'.defns[id]? = some d' ∧ d'.entry = true ∧ d'.body.inputs = d.body.inputs := by
  obtain ⟨n, hn⟩ := Needs.exists_iterate_close p _ (Needs.start p p.reachable)
  refine ⟨⟨n, hn, Needs.round_least p p.reachable⟩, ?_⟩
  rcases removeUnused_cases hp hmatches with ⟨-, hsame⟩ | ⟨p', hremove, htrimmed⟩
  · exact ⟨false, p, hsame, hsame, fun id d hd hentry => ⟨d, hd, hentry, rfl⟩⟩
  · refine ⟨true, p', hremove, ?_, fun id d hd hentry => htrimmed.entry_inputs hd hentry⟩
    have hnone : (Needs.least p' p'.reachable).shrinking.isEmpty = true :=
      List.isEmpty_iff.mpr (shrinking_least_eq_nil hp htrimmed)
    unfold removeUnused
    exact if_pos hnone

end Pass

/-- A text with a loop that passes an argument around without using it, and a closure that stores it as
well. -/
def circleText : String :=
  "closures:\n- name: plus\n  stored: [a, u]\n  args: [z]\n  tail: \x7bprim: add, args: [a, z]\x7d\n" ++
  "blocks:\n- name: f\n  type: \"[Word] >>= [Word]\"\n  params: [x]\n  code:\n  - bind: [k]\n" ++
  "    alloc: plus\n    args: [5, x]\n  - call: g\n    args: [x, x, k]\n- name: g\n  params: [a, u, k]\n" ++
  "  code:\n  - bind: [y]\n    enter: k\n    args: [a]\n  - bind: [e]\n    prim: primEq\n    args: [y, 0]\n" ++
  "  - if: e\n    then: \x7bcall: r, args: [y]\x7d\n    else: \x7bcall: g, args: [y, u, k]\x7d\n" ++
  "- name: r\n  params: [c]\n  code:\n  - return: [c]\n"

/-- Do the operands match, and are there parameters to remove, though not from the first definition, an
entrypoint? -/
def losesUnused (q : Program) : Bool :=
  decide q.CallsMatch && (q.defns[0]?).any Defn.entry && (removeUnused q).toOption.any Prod.fst

theorem removeUnused_once_circle : ∃ q q' d d', q.Lowered 64 ∧ q.CallsMatch ∧
    removeUnused q = .ok (true, q') ∧ removeUnused q' = .ok (false, q') ∧
    q.defns[0]? = some d ∧ q'.defns[0]? = some d' ∧ d'.entry = true ∧ d'.body.inputs = d.body.inputs := by
  have hall : (lowered "circle" circleText ["f"] 64).any losesUnused = true := by
    rw [lowered, Typing.accepted_eq _ circleText _
      (toList_append_ofList (toList_append_ofList (toList_append_ofList (toList_append_ofList
        (toList_append_ofList String.toList_ofList)))))]
    decide +kernel
  obtain ⟨q, hq, hloses⟩ := (Option.any_eq_true _ _).mp hall
  simp only [losesUnused, Bool.and_eq_true, decide_eq_true_eq] at hloses
  obtain ⟨⟨hmatches, hentry⟩, hchanged⟩ := hloses
  obtain ⟨d, hd, hentry⟩ := (Option.any_eq_true _ _).mp hentry
  obtain ⟨-, changed, q', hremove, hagain, hkept⟩ :=
    removeUnused_once (lowered_spec hq).linked.contained hmatches
  rw [hremove] at hchanged
  obtain rfl : changed = true := hchanged
  obtain ⟨d', hd', hflag, hinputs⟩ := hkept 0 d hd hentry
  exact ⟨q, q', d, d', lowered_spec hq, hmatches, hremove, hagain, hd, hd', hflag, hinputs⟩

end Optimize

end Mil
