import Mil.Optimize.Pass
import Mil.Proofs.Program.Linked
import Mil.Proofs.Ty.Reader

/-!
Passes that go through. A pass over a program is stopped only by references that do not fit together;
where they fit, each step gives a result, and the body of one definition after the other is edited.
-/

namespace Mil

theorem Program.setBody_self {p : Program} {id : DefnId} {d : Defn} (hd : p.defns[id]? = some d) :
    p.setBody id d.body = p := by
  have hdefns : (p.setBody id d.body).defns = p.defns := by
    refine Array.ext_getElem? fun i => ?_
    rw [getElem?_setBody]
    split
    · rename_i h
      rw [← h, hd]
      rfl
    · rfl
  have heq : p.setBody id d.body = { p with defns := (p.setBody id d.body).defns } := rfl
  rw [heq, hdefns]

namespace Optimize

/-! ### Steps that give a result -/

/-- The step gives a result, and the result and the state after it are as they should be. -/
def Gets {α : Type} (x : PassM α) (s : Progress) (Q : α → Progress → Prop) : Prop :=
  ∃ a s', Gives x s a s' ∧ Q a s'

section Gets

variable {α β : Type} {x : PassM α} {s : Progress} {Q : α → Progress → Prop}

theorem Gets.bind {f : α → PassM β} {R : β → Progress → Prop} (hx : Gets x s Q)
    (hf : ∀ a s', Q a s' → Gets (f a) s' R) : Gets (x >>= f) s R := by
  obtain ⟨a, s₁, hxa, hQ⟩ := hx
  obtain ⟨b, s₂, hfb, hR⟩ := hf a s₁ hQ
  exact ⟨b, s₂, gives_bind.mpr ⟨a, s₁, hxa, hfb⟩, hR⟩

theorem Gets.pure {a : α} (h : Q a s) : Gets (pure a) s Q := ⟨a, s, gives_pure.mpr ⟨rfl, rfl⟩, h⟩

theorem Gets.mono {R : α → Progress → Prop} (h : Gets x s Q) (hR : ∀ a s', Q a s' → R a s') :
    Gets x s R := by
  obtain ⟨a, s', hx, hQ⟩ := h
  exact ⟨a, s', hx, hR a s' hQ⟩

theorem gets_changed (s : Progress) : Gets PassM.changed s fun _ s' => s'.program = s.program :=
  ⟨(), _, rfl, rfl⟩

theorem gets_change {a : α} (h : ∀ s', s'.program = s.program → Q a s') : Gets (PassM.change a) s Q :=
  (gets_changed s).bind fun _ s' hs' => .pure (h s' hs')

theorem gets_onProgram (f : Program → α × Program) (s : Progress) :
    Gets (PassM.onProgram f) s fun a s' => a = (f s.program).1 ∧ s'.program = (f s.program).2 :=
  ⟨_, _, rfl, rfl, rfl⟩

theorem gets_definition {id : DefnId} {d : Defn} (hd : s.program.defns[id]? = some d) :
    Gets (PassM.definition id) s fun a s' => a = d ∧ s' = s := by
  refine ⟨d, s, gives_bind.mpr ⟨s, s, gives_get.mpr ⟨rfl, rfl⟩, ?_⟩, rfl, rfl⟩
  unfold Program.defn
  rw [hd]
  exact gives_pure.mpr ⟨rfl, rfl⟩

theorem gets_block {id : DefnId} {b : Block} (hb : s.program.block id = .ok b) :
    Gets (PassM.block id) s fun a s' => a = b ∧ s' = s := by
  refine ⟨b, s, gives_bind.mpr ⟨s, s, gives_get.mpr ⟨rfl, rfl⟩, ?_⟩, rfl, rfl⟩
  rw [hb]
  exact gives_pure.mpr ⟨rfl, rfl⟩

theorem gets_closure {id : DefnId} {k : Closure} (hk : s.program.closure id = .ok k) :
    Gets (PassM.closure id) s fun a s' => a = k ∧ s' = s := by
  refine ⟨k, s, gives_bind.mpr ⟨s, s, gives_get.mpr ⟨rfl, rfl⟩, ?_⟩, rfl, rfl⟩
  rw [hk]
  exact gives_pure.mpr ⟨rfl, rfl⟩

theorem gets_forM {γ : Type} {f : γ → PassM Unit} {as : List γ} {I : List γ → Progress → Prop}
    (hf : ∀ a as s, I (a :: as) s → Gets (f a) s fun _ s' => I as s') (hs : I as s) :
    Gets (as.forM f) s fun _ s' => I [] s' := by
  induction as generalizing s with
  | nil => exact .pure hs
  | cons a as ih => exact (hf a as s hs).bind fun _ s' hs' => ih hs'

theorem Gets.run {x : PassM Unit} {p : Program} {Q : Unit → Progress → Prop} (h : Gets x ⟨p, 0⟩ Q) :
    ∃ changed s, PassM.run x p = .ok (changed, s.program) ∧ Q () s := by
  obtain ⟨_, s, hx, hQ⟩ := h
  exact ⟨decide (0 < s.changes), s, congrArg (Except.map _) hx, hQ⟩

end Gets

/-! ### Bodies that are edited -/

/-- The code of a definition was edited, if there was any. -/
inductive BodyEdit (C : Code → Code → Prop) (T : Tail → Tail → Prop) : DefnBody → DefnBody → Prop
  | block {b : Block} {c c' : Code} (hbody : b.body = some c) (h : C c c') :
      BodyEdit C T (.block b) (.block { b with body := some c' })
  | closure {k : Closure} {t t' : Tail} (htail : k.tail = some t) (h : T t t') :
      BodyEdit C T (.closure k) (.closure { k with tail := some t' })
  | top {d : TopLevel} {t t' : Tail} (htail : d.tail = some t) (h : T t t') :
      BodyEdit C T (.top d) (.top { d with tail := some t' })
  | blockMissing {b : Block} (hbody : b.body = none) : BodyEdit C T (.block b) (.block b)
  | closureMissing {k : Closure} (htail : k.tail = none) : BodyEdit C T (.closure k) (.closure k)
  | topMissing {d : TopLevel} (htail : d.tail = none) : BodyEdit C T (.top d) (.top d)
  | external (e : External) : BodyEdit C T (.external e) (.external e)

theorem BodyEdit.mono {C C' : Code → Code → Prop} {T T' : Tail → Tail → Prop} {b b' : DefnBody}
    (h : BodyEdit C T b b') (hC : ∀ c c', C c c' → C' c c') (hT : ∀ t t', T t t' → T' t t') :
    BodyEdit C' T' b b' := by
  cases h with
  | block hbody h => exact .block hbody (hC _ _ h)
  | closure htail h => exact .closure htail (hT _ _ h)
  | top htail h => exact .top htail (hT _ _ h)
  | blockMissing h => exact .blockMissing h
  | closureMissing h => exact .closureMissing h
  | topMissing h => exact .topMissing h
  | external e => exact .external e

/-- A pass edits the body of a definition, if it can edit the code that is there. -/
theorem gets_onBody {code : Code → PassM Code} {tail : Tail → PassM Tail} {id : DefnId}
    {s : Progress} {d : Defn} (hd : s.program.defns[id]? = some d) {K : Progress → Prop}
    {C : Code → Code → Prop} {T : Tail → Tail → Prop} (hs : K s)
    (hcode : ∀ b c, d.body = .block b → b.body = some c →
      Gets (code c) s fun c' s' => K s' ∧ C c c')
    (hclosure : ∀ k t, d.body = .closure k → k.tail = some t →
      Gets (tail t) s fun t' s' => K s' ∧ T t t')
    (htop : ∀ l t, d.body = .top l → l.tail = some t →
      Gets (tail t) s fun t' s' => K s' ∧ T t t') :
    Gets (PassM.onBody code tail id) s fun _ s' => ∃ s₁ body, K s₁ ∧ BodyEdit C T d.body body ∧
      s'.program = s₁.program.setBody id body := by
  have hsame (h : BodyEdit C T d.body d.body) : ∃ s₁ body, K s₁ ∧ BodyEdit C T d.body body ∧
      s.program = s₁.program.setBody id body :=
    ⟨s, d.body, hs, h, (Program.setBody_self hd).symm⟩
  refine (gets_definition hd).bind ?_
  rintro a s' ⟨rfl, rfl⟩
  cases hbody : a.body with
  | block b =>
      rw [hbody] at hsame
      dsimp only
      cases hc : b.body with
      | none => exact .pure (hsame (.blockMissing hc))
      | some c =>
          refine (hcode b c hbody hc).bind fun c' s₁ ⟨hK, hC⟩ => ?_
          refine (gets_onProgram _ s₁).mono fun _ s₂ ⟨_, h⟩ => ?_
          exact ⟨s₁, _, hK, .block hc hC, h⟩
  | closure k =>
      rw [hbody] at hsame
      dsimp only
      cases ht : k.tail with
      | none => exact .pure (hsame (.closureMissing ht))
      | some t =>
          refine (hclosure k t hbody ht).bind fun t' s₁ ⟨hK, hT⟩ => ?_
          refine (gets_onProgram _ s₁).mono fun _ s₂ ⟨_, h⟩ => ?_
          exact ⟨s₁, _, hK, .closure ht hT, h⟩
  | top l =>
      rw [hbody] at hsame
      dsimp only
      cases ht : l.tail with
      | none => exact .pure (hsame (.topMissing ht))
      | some t =>
          refine (htop l t hbody ht).bind fun t' s₁ ⟨hK, hT⟩ => ?_
          refine (gets_onProgram _ s₁).mono fun _ s₂ ⟨_, h⟩ => ?_
          exact ⟨s₁, _, hK, .top ht hT, h⟩
  | external e =>
      rw [hbody] at hsame
      exact .pure (hsame (.external e))

end Optimize

end Mil
