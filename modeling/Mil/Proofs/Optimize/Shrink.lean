import Mil.Proofs.Optimize.Needs
import Mil.Proofs.Optimize.Pass
import Mil.Proofs.Source.Load

/-!
Programs without the parameters that are not needed. Every definition keeps the parameters that it
needs, and every call and allocation the operands that its target needs. The pass brings a program
into this form if its calls and allocations give as many operands as their targets have parameters.
-/

namespace Mil

/-! ### Operands that match parameters -/

/-- The operations of a body: its tails, and the calls that a branch can make. -/
def Code.operations : Code → List Tail
  | .bind _ t next => t :: next.operations
  | .done t => [t]
  | c => c.calls.map .call

/-- The operations of a definition. -/
def DefnBody.operations : DefnBody → List Tail
  | .block b => (b.body.map Code.operations).getD []
  | .closure k => k.tail.toList
  | .top l => l.tail.toList
  | .external _ => []

theorem Code.refs_operations {c : Code} {t : Tail} (ht : t ∈ c.operations) : t.refs ⊆ c.refs := by
  induction c with
  | bind vars u next ih =>
      rcases List.mem_cons.mp ht with rfl | ht
      · exact List.subset_append_left _ _
      · exact List.Subset.trans (ih ht) (List.subset_append_right _ _)
  | done u =>
      cases List.mem_singleton.mp ht
      exact List.Subset.refl _
  | branch cond c e =>
      rcases List.mem_cons.mp ht with rfl | ht
      · exact List.Subset.trans (List.subset_append_right _ _) (List.subset_append_left _ _)
      · rw [List.mem_singleton.mp ht]
        exact List.subset_append_right _ _
  | case scrut alts default =>
      obtain ⟨c, hc, rfl⟩ := List.mem_map.mp ht
      exact fun i hi => List.mem_append_right _ (List.mem_flatMap.mpr ⟨c, hc, hi⟩)

theorem DefnBody.refs_operations {body : DefnBody} {t : Tail} (ht : t ∈ body.operations) :
    t.refs ⊆ body.refs := by
  cases body with
  | block b =>
      rw [DefnBody.operations] at ht
      rw [DefnBody.refs]
      cases hc : b.body with
      | none =>
          rw [hc] at ht
          cases ht
      | some c =>
          rw [hc] at ht
          exact Code.refs_operations ht
  | closure k =>
      rw [DefnBody.operations, Option.mem_toList] at ht
      rw [DefnBody.refs, ht]
      exact List.Subset.refl _
  | top l =>
      rw [DefnBody.operations, Option.mem_toList] at ht
      rw [DefnBody.refs, ht]
      exact List.Subset.refl _
  | external e => cases ht

/-- A call or an allocation gives as many operands as its target has parameters. -/
def Tail.Matches (p : Program) : Tail → Prop
  | .call c => (p.block? c.block).map (fun b => b.params.length) = some c.args.length
  | .alloc id args _ => (p.closure? id).map (fun k => k.params.length) = some args.length
  | _ => True

instance (p : Program) (t : Tail) : Decidable (t.Matches p) :=
  match t with
  | .ret _ => .isTrue trivial
  | .call c =>
    inferInstanceAs (Decidable ((p.block? c.block).map (fun b => b.params.length) = some c.args.length))
  | .prim _ _ _ => .isTrue trivial
  | .alloc id args _ =>
    inferInstanceAs (Decidable ((p.closure? id).map (fun k => k.params.length) = some args.length))
  | .data _ _ _ => .isTrue trivial
  | .enter _ _ => .isTrue trivial
  | .sel _ _ _ _ => .isTrue trivial

/-- Is the definition an external without an implementation? -/
def DefnBody.unresolved : DefnBody → Bool
  | .external e => e.impl.isNone
  | _ => false

/-- The definition binds each temporary once, its calls and allocations match their targets, and it is
no external without an implementation. -/
def DefnBody.Regular (p : Program) (body : DefnBody) : Prop :=
  (body.inputs ++ body.binders).Nodup ∧ (∀ t ∈ body.operations, t.Matches p) ∧
    body.unresolved = false

instance (p : Program) (body : DefnBody) : Decidable (body.Regular p) :=
  inferInstanceAs (Decidable (_ ∧ _))

theorem nodup_params {p : Program} {body : DefnBody} (h : body.Regular p) : body.params.Nodup := by
  have hinputs := (List.nodup_append.mp h.1).1
  cases body with
  | block b => exact hinputs
  | closure k => exact (List.nodup_append.mp hinputs).1
  | top l => exact .nil
  | external e => exact .nil

/-- All definitions that can be reached are regular. -/
def Program.Regular (p : Program) : Prop :=
  ∀ id ∈ p.reachable, ∀ d ∈ p.defns[id]?, d.body.Regular p

instance (p : Program) : Decidable p.Regular :=
  inferInstanceAs (Decidable (∀ id ∈ p.reachable, ∀ d ∈ p.defns[id]?, d.body.Regular p))

/-- All calls and allocations that can be reached give as many operands as their targets have
parameters. -/
def Program.CallsMatch (p : Program) : Prop :=
  ∀ id ∈ p.reachable, ∀ d ∈ p.defns[id]?, ∀ t ∈ d.body.operations, t.Matches p

instance (p : Program) : Decidable p.CallsMatch :=
  inferInstanceAs (Decidable (∀ id ∈ p.reachable, ∀ d ∈ p.defns[id]?, ∀ t ∈ d.body.operations, t.Matches p))

theorem Program.Regular.callsMatch {p : Program} (h : p.Regular) : p.CallsMatch :=
  fun id hid d hd => (h id hid d hd).2.1

namespace Optimize

open Needs (keep)

/-! ### Code that drops operands -/

/-- A call that drops the operands that its block does not need. -/
inductive CallTrim (needs : Needs) : BlockCall → BlockCall → Prop
  | intro {id : DefnId} {args : List Atom} {bits : List Bool} (inst inst' : Option BlockType)
      (hbits : needs.lookup id = some bits) (hlen : args.length = bits.length) :
      CallTrim needs ⟨id, args, inst⟩ ⟨id, keep args bits, inst'⟩

/-- A tail that drops the operands that its target does not need. -/
inductive TailTrim (needs : Needs) : Tail → Tail → Prop
  | call {c c' : BlockCall} (h : CallTrim needs c c') : TailTrim needs (.call c) (.call c')
  | alloc {id : DefnId} {args : List Atom} {bits : List Bool} (inst inst' : Option AllocType)
      (hbits : needs.lookup id = some bits) (hlen : args.length = bits.length) :
      TailTrim needs (.alloc id args inst) (.alloc id (keep args bits) inst')
  | same {t : Tail} (h : t.target? = none) : TailTrim needs t t

/-- A body whose calls and allocations drop what their targets do not need. -/
inductive CodeTrim (needs : Needs) : Code → Code → Prop
  | bind {vars : List Temp} {t t' : Tail} {next next' : Code} (ht : TailTrim needs t t')
      (hnext : CodeTrim needs next next') :
      CodeTrim needs (.bind vars t next) (.bind vars t' next')
  | done {t t' : Tail} (ht : TailTrim needs t t') : CodeTrim needs (.done t) (.done t')
  | branch {cond : Atom} {c c' e e' : BlockCall} (hc : CallTrim needs c c')
      (he : CallTrim needs e e') : CodeTrim needs (.branch cond c e) (.branch cond c' e')
  | case {scrut : Atom} {alts alts' : List (Cfun × BlockCall)} {default default' : Option BlockCall}
      (halts : List.Forall₂ (fun a a' => a'.1 = a.1 ∧ CallTrim needs a.2 a'.2) alts alts')
      (hdefault : Option.Rel (CallTrim needs) default default') :
      CodeTrim needs (.case scrut alts default) (.case scrut alts' default')

/-- A definition that keeps the parameters that it needs. Its code may have changed too. -/
inductive BodyTrim (needs : Needs) (id : DefnId) (C : Option Code → Option Code → Prop)
    (T : Option Tail → Option Tail → Prop) : DefnBody → DefnBody → Prop
  | block {b b' : Block} {bits : List Bool} (hbits : needs.lookup id = some bits)
      (hlen : b.params.length = bits.length) (hparams : b'.params = keep b.params bits)
      (hbody : C b.body b'.body) : BodyTrim needs id C T (.block b) (.block b')
  | closure {k k' : Closure} {bits : List Bool} (hbits : needs.lookup id = some bits)
      (hlen : k.params.length = bits.length) (hparams : k'.params = keep k.params bits)
      (hargs : k'.args = k.args) (htail : T k.tail k'.tail) :
      BodyTrim needs id C T (.closure k) (.closure k')
  | top {l l' : TopLevel} (htail : T l.tail l'.tail) : BodyTrim needs id C T (.top l) (.top l')
  | external (e : External) : BodyTrim needs id C T (.external e) (.external e)

section Trim

variable {needs : Needs} {id : DefnId} {C : Code → Code → Prop} {T : Tail → Tail → Prop}
  {body body₁ body₂ : DefnBody}

/-- Code is edited after the parameters have been removed. -/
theorem BodyTrim.edit (h : BodyTrim needs id Eq Eq body body₁) (hedit : BodyEdit C T body₁ body₂) :
    BodyTrim needs id (Option.Rel C) (Option.Rel T) body body₂ := by
  cases h with
  | block hbits hlen hparams hbody =>
      cases hedit with
      | block hc h => exact .block hbits hlen hparams (hbody ▸ hc ▸ .some h)
      | blockMissing hc => exact .block hbits hlen hparams (by rw [hbody, hc]; exact .none)
  | closure hbits hlen hparams hargs htail =>
      cases hedit with
      | closure ht h => exact .closure hbits hlen hparams hargs (htail ▸ ht ▸ .some h)
      | closureMissing ht => exact .closure hbits hlen hparams hargs (by rw [htail, ht]; exact .none)
  | top htail =>
      cases hedit with
      | top ht h => exact .top (htail ▸ ht ▸ .some h)
      | topMissing ht => exact .top (by rw [htail, ht]; exact .none)
  | external e =>
      cases hedit
      exact .external e

end Trim

/-! ### Shortening -/

/-- A call or an allocation gives as many operands as its target had parameters, and its target has
those left that it needs. -/
def Fits (p : Program) (needs : Needs) : Tail → Prop
  | .call c => ∃ b bits, p.block c.block = .ok b ∧ needs.lookup c.block = some bits ∧
      b.params.length = bits.count true ∧ c.args.length = bits.length
  | .alloc id args _ => ∃ k bits, p.closure id = .ok k ∧ needs.lookup id = some bits ∧
      k.params.length = bits.count true ∧ args.length = bits.length
  | _ => True

section Shorten

variable {p : Program} {needs : Needs}

theorem shortenCall_trims {c : BlockCall} (h : Fits p needs (.call c)) :
    ∃ c', shortenCall p needs c = .ok c' ∧ CallTrim needs c c' := by
  obtain ⟨id, args, inst⟩ := c
  obtain ⟨b, bits, hb, hbits, hcount, hlen⟩ := h
  unfold shortenCall
  rw [hb]
  dsimp only [Bind.bind, Except.bind]
  split
  · rename_i hsame
    refine ⟨_, rfl, ?_⟩
    have htrim := CallTrim.intro inst inst hbits hlen
    rwa [Needs.keep_eq_self hlen (hcount.symm.trans (hsame.trans hlen))] at htrim
  · refine ⟨_, rfl, ?_⟩
    rw [hbits]
    exact .intro inst b.declared hbits hlen

theorem shortenTail_trims {t : Tail} (h : Fits p needs t) :
    ∃ t', shortenTail p needs t = .ok t' ∧ TailTrim needs t t' := by
  cases t with
  | call c =>
      obtain ⟨c', hc', htrim⟩ := shortenCall_trims h
      exact ⟨.call c', congrArg (Except.map Tail.call) hc', .call htrim⟩
  | alloc id args inst =>
      obtain ⟨k, bits, hk, hbits, hcount, hlen⟩ := h
      unfold shortenTail
      dsimp only
      rw [hk]
      dsimp only [Bind.bind, Except.bind]
      split
      · rename_i hsame
        refine ⟨_, rfl, ?_⟩
        have htrim := TailTrim.alloc inst inst hbits hlen
        rwa [Needs.keep_eq_self hlen (hcount.symm.trans (hsame.trans hlen))] at htrim
      · refine ⟨_, rfl, ?_⟩
        rw [hbits]
        exact .alloc inst k.declared hbits hlen
  | ret args => exact ⟨_, rfl, .same rfl⟩
  | prim q args inst => exact ⟨_, rfl, .same rfl⟩
  | data k args inst => exact ⟨_, rfl, .same rfl⟩
  | enter fn args => exact ⟨_, rfl, .same rfl⟩
  | sel k field arg inst => exact ⟨_, rfl, .same rfl⟩

theorem shortenAlts_trims {alts : List (Cfun × BlockCall)}
    (h : ∀ a ∈ alts, Fits p needs (.call a.2)) :
    ∃ alts', (alts.mapM fun (k, c) => do
        let c ← shortenCall p needs c
        return (k, c)) = .ok alts' ∧
      List.Forall₂ (fun a a' => a'.1 = a.1 ∧ CallTrim needs a.2 a'.2) alts alts' := by
  induction alts with
  | nil => exact ⟨[], rfl, .nil⟩
  | cons a alts ih =>
      obtain ⟨c', hc', htrim⟩ := shortenCall_trims (h a (.head _))
      obtain ⟨alts', halts', htrims⟩ := ih fun a' ha' => h a' (.tail _ ha')
      refine ⟨(a.1, c') :: alts', ?_, .cons ⟨rfl, htrim⟩ htrims⟩
      rw [List.mapM_cons, halts']
      dsimp only
      rw [hc']
      rfl

theorem shortenCode_trims {c : Code} (h : ∀ t ∈ c.operations, Fits p needs t) :
    ∃ c', shortenCode p needs c = .ok c' ∧ CodeTrim needs c c' := by
  induction c with
  | bind vars t next ih =>
      obtain ⟨t', ht', ht⟩ := shortenTail_trims (h t (.head _))
      obtain ⟨next', hnext', hnext⟩ := ih fun u hu => h u (.tail _ hu)
      refine ⟨_, ?_, .bind ht hnext⟩
      rw [shortenCode, ht', hnext']
      rfl
  | done t =>
      obtain ⟨t', ht', ht⟩ := shortenTail_trims (h t (.head _))
      refine ⟨_, ?_, .done ht⟩
      rw [shortenCode, ht']
      rfl
  | branch cond c e =>
      obtain ⟨c', hc', hc⟩ := shortenCall_trims (h (.call c) (.head _))
      obtain ⟨e', he', he⟩ := shortenCall_trims (h (.call e) (.tail _ (.head _)))
      refine ⟨_, ?_, .branch hc he⟩
      rw [shortenCode, hc', he']
      rfl
  | case scrut alts default =>
      have hcall {c : BlockCall} (hc : c ∈ (Code.case scrut alts default).calls) :
          Fits p needs (.call c) := h _ (List.mem_map.mpr ⟨c, hc, rfl⟩)
      obtain ⟨alts', halts', halts⟩ := shortenAlts_trims fun a ha =>
        hcall (List.mem_append_left _ (List.mem_map.mpr ⟨a, ha, rfl⟩))
      have hdefault : ∃ default', default.mapM (shortenCall p needs) = .ok default' ∧
          Option.Rel (CallTrim needs) default default' := by
        cases default with
        | none => exact ⟨none, rfl, .none⟩
        | some c =>
            obtain ⟨c', hc', hc⟩ := shortenCall_trims (hcall (List.mem_append_right _ (.head _)))
            exact ⟨some c', congrArg (Except.map some) hc', .some hc⟩
      obtain ⟨default', hdefault', hdefault⟩ := hdefault
      refine ⟨_, ?_, .case halts hdefault⟩
      rw [shortenCode, halts', hdefault']
      rfl

end Shorten

/-! ### Shrinking -/

section Shrink

variable {needs : Needs} {id : DefnId} {bits : List Bool} {body : DefnBody}

theorem bodyTrim_shrink (h : Needs.hasParams body = true → needs.lookup id = some bits ∧
      bits.length = body.params.length) (s : Store) :
    BodyTrim needs id Eq Eq body (shrink s bits body) := by
  cases body with
  | block b => exact .block (h rfl).1 (h rfl).2.symm rfl rfl
  | closure k => exact .closure (h rfl).1 (h rfl).2.symm rfl rfl rfl
  | top l => exact .top rfl
  | external e => exact .external e

/-- A definition that needs all its parameters need not be changed. -/
theorem bodyTrim_self (h : Needs.hasParams body = true → ∃ bits, needs.lookup id = some bits ∧
      bits.length = body.params.length ∧ bits.count true = bits.length) :
    BodyTrim needs id Eq Eq body body := by
  cases body with
  | block b =>
      obtain ⟨bits, hbits, hlen, hall⟩ := h rfl
      exact .block hbits hlen.symm (Needs.keep_eq_self hlen.symm hall).symm rfl
  | closure k =>
      obtain ⟨bits, hbits, hlen, hall⟩ := h rfl
      exact .closure hbits hlen.symm (Needs.keep_eq_self hlen.symm hall).symm rfl rfl
  | top l => exact .top rfl
  | external e => exact .external e

/-- Removes parameters from one definition after the other. -/
def shrinkAll (p : Program) (needs : Needs) : Program :=
  needs.foldl
    (fun p (id, bits) => p.modify id fun d => { d with body := shrink p.store bits d.body }) p

theorem getElem?_shrinkAll (p : Program) (hnodup : (needs.map Prod.fst).Nodup) (i : DefnId) :
    (shrinkAll p needs).defns[i]? = (p.defns[i]?).map fun d =>
      match needs.lookup i with
      | some bits => { d with body := shrink p.store bits d.body }
      | none => d := by
  induction needs generalizing p with
  | nil => simp [shrinkAll]
  | cons q needs ih =>
      obtain ⟨j, bits⟩ := q
      obtain ⟨hj, hnodup⟩ := List.nodup_cons.mp hnodup
      have hstep : shrinkAll p ((j, bits) :: needs) =
        shrinkAll (p.modify j fun d => { d with body := shrink p.store bits d.body }) needs := rfl
      have hmodify : (p.modify j fun d => { d with body := shrink p.store bits d.body }).defns[i]? =
          if j = i then (p.defns[i]?).map fun d => { d with body := shrink p.store bits d.body }
          else p.defns[i]? := Array.getElem?_modify
      rw [hstep, ih _ hnodup, hmodify, lookup_cons_ite]
      by_cases heq : j = i
      · subst heq
        rw [if_pos rfl, if_pos rfl, lookup_eq_none_iff_not_mem.mpr hj, Option.map_map]
        rfl
      · rw [if_neg heq, if_neg (Ne.symm heq)]
        rfl

end Shrink

/-! ### The pass -/

/-- A definition and what becomes of it. -/
structure DefnTrim (needs : Needs) (id : DefnId) (C : Option Code → Option Code → Prop)
    (T : Option Tail → Option Tail → Prop) (d d' : Defn) : Prop where
  name : d'.name = d.name
  pos : d'.pos = d.pos
  entry : d'.entry = d.entry
  replaced : d'.replacedBy = d.replacedBy
  body : BodyTrim needs id C T d.body d'.body

/-- The needs of definitions that do not need all their parameters. -/
def Needs.shrinking (needs : Needs) : Needs := needs.filter fun (_, bits) => bits.any fun b => !b

section Pass

variable {p p₁ : Program} {ids : List DefnId} {needs : Needs} {id : DefnId} {d d₁ : Defn}

theorem nodup_shrinking (hnodup : (needs.map Prod.fst).Nodup) :
    (needs.shrinking.map Prod.fst).Nodup :=
  hnodup.sublist (List.filter_sublist.map _)

theorem lookup_shrinking {bits : List Bool} (hnodup : (needs.map Prod.fst).Nodup)
    (hbits : needs.lookup id = some bits) : needs.shrinking.lookup id =
      if bits.count true = bits.length then none else some bits := by
  split
  · rename_i hall
    refine lookup_eq_none_iff_not_mem.mpr fun hkey => ?_
    obtain ⟨⟨i, bits'⟩, hmem', rfl⟩ := List.mem_map.mp hkey
    obtain ⟨hneeds, hany⟩ := List.mem_filter.mp hmem'
    rw [lookup_of_mem hnodup hneeds] at hbits
    cases hbits
    obtain ⟨b, hb, hfalse⟩ := List.any_eq_true.mp hany
    rw [← List.count_eq_length.mp hall b hb] at hfalse
    cases hfalse
  · rename_i hall
    refine lookup_of_mem (nodup_shrinking hnodup) (List.mem_filter.mpr ⟨mem_of_lookup hbits, ?_⟩)
    refine List.any_eq_true.mpr (by_contra fun hnone => hall (List.count_eq_length.mpr fun b hb => ?_))
    cases b with
    | true => rfl
    | false => exact absurd ⟨false, hb, rfl⟩ hnone

/-- The definitions without the parameters that they do not need, their code as it was. -/
theorem exists_shrunk (hnodup : ids.Nodup) (hid : id ∈ ids) (hd : p.defns[id]? = some d) :
    ∃ d₁, (shrinkAll p (Needs.least p ids).shrinking).defns[id]? = some d₁ ∧
      DefnTrim (Needs.least p ids) id Eq Eq d d₁ := by
  have hkeys := Needs.nodup_keys_least p hnodup
  rw [getElem?_shrinkAll p (nodup_shrinking hkeys), hd, Option.map_some]
  refine ⟨_, rfl, ?_⟩
  have hneeds (hparams : Needs.hasParams d.body = true) : ∃ bits,
      (Needs.least p ids).lookup id = some bits ∧ bits.length = d.body.params.length ∧
        (Needs.least p ids).shrinking.lookup id =
          if bits.count true = bits.length then none else some bits := by
    obtain ⟨bits, hbits⟩ := Needs.exists_lookup_least hid hd hparams
    exact ⟨bits, hbits, (Needs.lookup_least hbits hd).1, lookup_shrinking hkeys hbits⟩
  split
  · rename_i bits hshrinking
    refine ⟨rfl, rfl, rfl, rfl, bodyTrim_shrink (fun hparams => ?_) p.store⟩
    obtain ⟨bits', hbits, hlen, hlookup⟩ := hneeds hparams
    rw [hshrinking] at hlookup
    split at hlookup
    · cases hlookup
    · cases hlookup
      exact ⟨hbits, hlen⟩
  · rename_i hshrinking
    refine ⟨rfl, rfl, rfl, rfl, bodyTrim_self fun hparams => ?_⟩
    obtain ⟨bits, hbits, hlen, hlookup⟩ := hneeds hparams
    rw [hshrinking] at hlookup
    split at hlookup
    · rename_i hall
      exact ⟨bits, hbits, hlen, hall⟩
    · cases hlookup

theorem operations_shrunk (h : BodyTrim needs id Eq Eq d.body d₁.body) :
    d₁.body.operations = d.body.operations := by
  generalize d.body = body at h
  generalize d₁.body = body₁ at h
  cases h with
  | block _ _ _ hbody => rw [DefnBody.operations, DefnBody.operations, hbody]
  | closure _ _ _ _ htail => rw [DefnBody.operations, DefnBody.operations, htail]
  | top htail => rw [DefnBody.operations, DefnBody.operations, htail]
  | external e => rfl

/-- Operands that match their targets still fit once the parameters have been removed. -/
theorem fits_of_callsMatch (hp : p.Contained) (hmatches : p.CallsMatch) (hid : id ∈ p.reachable)
    (hd : p.defns[id]? = some d) {t : Tail} (ht : t ∈ d.body.operations) :
    Fits (shrinkAll p (Needs.least p p.reachable).shrinking) (Needs.least p p.reachable) t := by
  have hnodup : p.reachable.Nodup := List.nodup_range.filter _
  have hmatch := hmatches id hid d hd t ht
  have htarget {i : DefnId} (hi : t.target? = some i) : i ∈ p.reachable :=
    hp.refs hid hd i (DefnBody.refs_operations ht (List.mem_append_right _ (Option.mem_toList.mpr hi)))
  cases t with
  | call c =>
      obtain ⟨b, hb, hlen⟩ := Option.map_eq_some_iff.mp hmatch
      obtain ⟨e, he, hb⟩ := Source.exists_of_block? hb
      obtain ⟨e₁, he₁, htrim⟩ := exists_shrunk hnodup (htarget rfl) he
      have hbody := htrim.body
      generalize hbody₁ : e₁.body = body₁ at hbody
      rw [hb] at hbody
      cases hbody with
      | block hbits hlen' hparams _ =>
          refine ⟨_, _, block_eq he₁ hbody₁, hbits, ?_, hlen.symm.trans hlen'⟩
          rw [hparams, Needs.length_keep hlen']
  | alloc i args inst =>
      obtain ⟨k, hk, hlen⟩ := Option.map_eq_some_iff.mp hmatch
      obtain ⟨e, he, hk⟩ := Source.exists_of_closure? hk
      obtain ⟨e₁, he₁, htrim⟩ := exists_shrunk hnodup (htarget rfl) he
      have hbody := htrim.body
      generalize hbody₁ : e₁.body = body₁ at hbody
      rw [hk] at hbody
      cases hbody with
      | closure hbits hlen' hparams _ _ =>
          refine ⟨_, _, closure_eq he₁ hbody₁, hbits, ?_, hlen.symm.trans hlen'⟩
          rw [hparams, Needs.length_keep hlen']
  | ret args => trivial
  | prim q args inst => trivial
  | data k args inst => trivial
  | enter fn args => trivial
  | sel k field arg inst => trivial

theorem gets_lift {α : Type} {x : Except Defect α} {a : α} {s : Progress}
    {Q : α → Progress → Prop} (hx : x = .ok a) (h : Q a s) : Gets (liftM x) s Q := by
  subst hx
  exact ⟨a, s, rfl, h⟩

/-- What shortening makes of the definitions, `rest` being those that it has not come to. -/
structure Shortened (p : Program) (needs : Needs) (ids rest : List DefnId) (p' : Program) : Prop where
  size : p'.defns.size = p.defns.size
  entries : p'.entries = p.entries
  defns : ∀ {i : DefnId} {d : Defn}, p.defns[i]? = some d → ∃ body,
    p'.defns[i]? = some { d with body } ∧ ((i ∈ ids → i ∈ rest) → body = d.body) ∧
      (i ∈ ids → i ∉ rest → BodyEdit (CodeTrim needs) (TailTrim needs) d.body body)

/-- Shortening goes through, one definition after the other. -/
theorem gets_shorten (needs : Needs) (hnodup : ids.Nodup) (hids : ∀ id ∈ ids, ∃ d, p.defns[id]? = some d ∧
      ∀ t ∈ d.body.operations, Fits p needs t) :
    Gets (ids.forM (PassM.onBody (fun c => liftM (shortenCode p needs c))
      fun t => liftM (shortenTail p needs t))) ⟨p, 0⟩
        fun _ s' => Shortened p needs ids [] s'.program := by
  refine (gets_forM (I := fun rest s => Shortened p needs ids rest s.program ∧ rest.Nodup ∧
    rest ⊆ ids) ?_ ⟨⟨rfl, rfl, fun hd => ?_⟩, hnodup, fun _ h => h⟩).mono fun _ _ h => h.1
  · rintro id rest s ⟨⟨hsize, hentries, hdefns⟩, hnodup, hsub⟩
    obtain ⟨d, hd, hfits⟩ := hids id (hsub (.head _))
    obtain ⟨body, hd', hbody, -⟩ := hdefns hd
    cases hbody fun _ => .head _
    obtain ⟨hnew, hnodup⟩ := List.nodup_cons.mp hnodup
    have htail {t : Tail} (ht : t ∈ d.body.operations) :
        Gets (liftM (shortenTail p needs t) : PassM Tail) s
          fun t' s' => s' = s ∧ TailTrim needs t t' := by
      obtain ⟨t', ht', htrim⟩ := shortenTail_trims (hfits t ht)
      exact gets_lift ht' ⟨rfl, htrim⟩
    refine (gets_onBody hd' (K := fun s' => s' = s) (C := CodeTrim needs) (T := TailTrim needs) rfl
      (fun b c hb hc => ?_) (fun k t hk ht => htail ?_) (fun l t hl ht => htail ?_)).mono ?_
    · rw [hb, DefnBody.operations, hc] at hfits
      obtain ⟨c', hc', htrim⟩ := shortenCode_trims hfits
      exact gets_lift hc' ⟨rfl, htrim⟩
    · rw [hk, DefnBody.operations, ht]
      exact .head _
    · rw [hl, DefnBody.operations, ht]
      exact .head _
    · rintro _ s' ⟨s₁, body, rfl, hedit, hs'⟩
      rw [hs']
      refine ⟨⟨Array.size_modify.trans hsize, hentries, fun {i e} he => ?_⟩, hnodup,
        fun _ h => hsub (.tail _ h)⟩
      rw [Program.getElem?_setBody]
      split
      · rename_i heq
        subst heq
        cases hd.symm.trans he
        rw [hd']
        exact ⟨body, rfl, fun hmem => absurd (hmem (hsub (.head _))) hnew, fun _ _ => hedit⟩
      · rename_i hne
        obtain ⟨body', he', hsame, hdone⟩ := hdefns he
        refine ⟨body', he', fun hmem => hsame fun h => .tail _ (hmem h), fun hmem hrest => hdone hmem ?_⟩
        intro hmem'
        rcases List.mem_cons.mp hmem' with rfl | hmem'
        · exact hne rfl
        · exact hrest hmem'
  · exact ⟨_, hd, fun _ => rfl, fun hmem hnot => absurd hmem hnot⟩

/-- What becomes of a program: the definitions that can be reached keep the parameters that they need and
drop the operands that are not needed, and all others are left alone. -/
structure Trimmed (p p' : Program) (needs : Needs) : Prop where
  size : p'.defns.size = p.defns.size
  entries : p'.entries = p.entries
  others : ∀ {id : DefnId} {d : Defn}, id ∉ p.reachable → p.defns[id]? = some d → p'.defns[id]? = some d
  defns : ∀ {id : DefnId} {d : Defn}, id ∈ p.reachable → p.defns[id]? = some d →
    ∃ d', p'.defns[id]? = some d' ∧
      DefnTrim needs id (Option.Rel (CodeTrim needs)) (Option.Rel (TailTrim needs)) d d'

/-- Where nothing was replaced, nothing is. -/
theorem Trimmed.whole {p' : Program} (h : Trimmed p p' needs)
    (hwhole : ∀ {id : DefnId} {d : Defn}, p.defns[id]? = some d → d.replacedBy = none)
    {d' : Defn} (hd' : p'.defns[id]? = some d') : d'.replacedBy = none := by
  obtain ⟨d, hd⟩ : ∃ d, p.defns[id]? = some d :=
    ⟨_, Array.getElem?_eq_getElem (h.size ▸ (Array.getElem?_eq_some_iff.mp hd').1)⟩
  by_cases hid : id ∈ p.reachable
  · obtain ⟨e, he, htrim⟩ := h.defns hid hd
    cases hd'.symm.trans he
    exact htrim.replaced.trans (hwhole hd)
  · cases hd'.symm.trans (h.others hid hd)
    exact hwhole hd

theorem entries_shrinkAll (p : Program) (needs : Needs) : (shrinkAll p needs).entries = p.entries := by
  unfold shrinkAll
  induction needs generalizing p with
  | nil => rfl
  | cons need needs ih => exact ih _

theorem size_shrinkAll (p : Program) (needs : Needs) : (shrinkAll p needs).defns.size = p.defns.size := by
  unfold shrinkAll
  induction needs generalizing p with
  | nil => rfl
  | cons need needs ih => exact (ih _).trans Array.size_modify

theorem lookup_shrinking_eq_none (hid : id ∉ ids) : (Needs.least p ids).shrinking.lookup id = none := by
  refine lookup_eq_none_iff_not_mem.mpr fun hkey => ?_
  obtain ⟨⟨i, bits⟩, hmem, rfl⟩ := List.mem_map.mp hkey
  have hkept := List.mem_map_of_mem (f := Prod.fst) (List.mem_filter.mp hmem).1
  obtain ⟨bits', hbits⟩ := Option.isSome_iff_exists.mp (lookup_isSome_iff_mem.mpr hkept)
  exact hid (Needs.mem_of_lookup_least hbits)

/-- The pass goes through: it finds that all parameters are needed and changes nothing, or it leaves a
program without those that are not needed. -/
theorem removeUnused_cases (hp : p.Contained) (hmatches : p.CallsMatch) :
    ((Needs.least p p.reachable).shrinking = [] ∧ removeUnused p = .ok (false, p)) ∨
      ∃ p', removeUnused p = .ok (true, p') ∧ Trimmed p p' (Needs.least p p.reachable) := by
  have hnodup : p.reachable.Nodup := List.nodup_range.filter _
  unfold removeUnused
  dsimp only
  split
  · rename_i hnone
    exact .inl ⟨List.isEmpty_iff.mp hnone, rfl⟩
  · right
    have hpass := gets_shorten (p := shrinkAll p (Needs.least p p.reachable).shrinking)
      (Needs.least p p.reachable) hnodup fun id hid => by
        obtain ⟨d, hd⟩ := Program.exists_of_reachable hid
        obtain ⟨d₁, hd₁, htrim⟩ := exists_shrunk hnodup hid hd
        refine ⟨d₁, hd₁, fun t ht => fits_of_callsMatch hp hmatches hid hd ?_⟩
        rwa [← operations_shrunk htrim.body]
    obtain ⟨changed, s, hrun, hsize, hentries, hdefns⟩ := hpass.run
    refine ⟨s.program, congrArg (Except.map _) hrun, hsize.trans (size_shrinkAll ..),
      hentries.trans (entries_shrinkAll ..), fun {id d} hid hd => ?_, fun {id d} hid hd => ?_⟩
    · have hd₁ : (shrinkAll p (Needs.least p p.reachable).shrinking).defns[id]? = some d := by
        rw [getElem?_shrinkAll p (nodup_shrinking (Needs.nodup_keys_least p hnodup)), hd, Option.map_some,
          lookup_shrinking_eq_none hid]
      obtain ⟨body, hd', hsame, -⟩ := hdefns hd₁
      rw [hd', hsame fun h => absurd h hid]
    · obtain ⟨d₁, hd₁, htrim⟩ := exists_shrunk hnodup hid hd
      obtain ⟨body, hd', -, hedit⟩ := hdefns hd₁
      exact ⟨_, hd', htrim.name, htrim.pos, htrim.entry, htrim.replaced,
        htrim.body.edit (hedit hid List.not_mem_nil)⟩

/-- The pass goes through, and changes nothing or leaves a program without the parameters that are not
needed. -/
theorem removeUnused_trims (hp : p.Linked) (hregular : p.Regular) :
    ∃ changed p', removeUnused p = .ok (changed, p') ∧
      (p' = p ∨ Trimmed p p' (Needs.least p p.reachable)) := by
  rcases removeUnused_cases hp.contained hregular.callsMatch with ⟨-, hsame⟩ | ⟨p', hremove, htrimmed⟩
  · exact ⟨false, p, hsame, .inl rfl⟩
  · exact ⟨true, p', hremove, .inr htrimmed⟩

end Pass

end Optimize

end Mil
