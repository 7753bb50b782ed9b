import Mathlib.Data.List.Forall2
import Mil.Optimize.Duplicates
import Mil.Proofs.Program.Outline

/-!
Equality of code up to the choice of temporaries. Two bodies are alpha-equivalent if they differ in the
temporaries that they bind alone: a temporary of one stands for a temporary of the other, and a binding
hides what its temporaries stood for before. The comparison pairs temporaries one to one instead and gives
up when one is bound again, so it decides equivalence where no temporary is bound twice.
-/

namespace Mil

/-! ### What equivalence means -/

/-- Which temporary of one body stands for which of another. -/
abbrev Correspondence := Temp → Temp → Prop

namespace Correspondence

/-- Two temporaries are bound, and hide what they stood for before. -/
def bind (r : Correspondence) (v w : Temp) : Correspondence := fun x y =>
  (x = v ∧ y = w) ∨ (x ≠ v ∧ y ≠ w ∧ r x y)

/-- Temporaries are bound one after the other. -/
def bindAll (r : Correspondence) : List Temp → List Temp → Correspondence
  | v :: vs, w :: ws => (r.bind v w).bindAll vs ws
  | _, _ => r

/-- What stands for each other along two correspondences does so along the third. -/
def Through (r s u : Correspondence) : Prop := ∀ ⦃x y z : Temp⦄, r x y → s y z → u x z

variable {r s u : Correspondence} {v w t : Temp} {vs ws ts : List Temp}

theorem Through.bind (hu : Through r s u) : Through (r.bind v w) (s.bind w t) (u.bind v t) := by
  rintro x y z (⟨hx, hy⟩ | ⟨hx, hy, hr⟩) (⟨hy', hz⟩ | ⟨hy', hz, hs⟩)
  · exact .inl ⟨hx, hz⟩
  · exact absurd hy hy'
  · exact absurd hy' hy
  · exact .inr ⟨hx, hz, hu hr hs⟩

theorem Through.bindAll (hu : Through r s u) (hlen : vs.length = ws.length) (hlen' : ws.length = ts.length) :
    Through (r.bindAll vs ws) (s.bindAll ws ts) (u.bindAll vs ts) := by
  induction vs generalizing r s u ws ts with
  | nil =>
      cases ws with
      | nil =>
          cases ts with
          | nil => exact hu
          | cons => cases hlen'
      | cons => cases hlen
  | cons v vs ih =>
      cases ws with
      | nil => cases hlen
      | cons w ws =>
          cases ts with
          | nil => cases hlen'
          | cons t ts => exact ih hu.bind (Nat.succ.inj hlen) (Nat.succ.inj hlen')

theorem through_eq : Through Eq Eq Eq := fun _ _ _ => Eq.trans

end Correspondence

section Equivalence

variable (r : Correspondence)

/-- Operands are equivalent if they are temporaries that stand for each other, or the same. -/
inductive Atom.AlphaEq : Atom → Atom → Prop
  | temp {x y : Temp} (h : r x y) : AlphaEq (.temp x) (.temp y)
  | lit (l : Literal) : AlphaEq (.lit l) (.lit l)
  | top (d : DefnId) (i : Nat) (site site' : SiteId) : AlphaEq (.top d i site) (.top d i site')

/-- Calls are equivalent if they name the same block. -/
structure BlockCall.AlphaEq (c d : BlockCall) : Prop where
  block : c.block = d.block
  args : List.Forall₂ (Atom.AlphaEq r) c.args d.args

/-- Tails are equivalent if they do the same with equivalent operands. -/
inductive Tail.AlphaEq : Tail → Tail → Prop
  | ret {as bs : List Atom} (h : List.Forall₂ (Atom.AlphaEq r) as bs) : AlphaEq (.ret as) (.ret bs)
  | call {c d : BlockCall} (h : c.AlphaEq r d) : AlphaEq (.call c) (.call d)
  | prim (f : Prim) {as bs : List Atom} (h : List.Forall₂ (Atom.AlphaEq r) as bs)
      (inst inst' : Option BlockType) : AlphaEq (.prim f as inst) (.prim f bs inst')
  | alloc (k : DefnId) {as bs : List Atom} (h : List.Forall₂ (Atom.AlphaEq r) as bs)
      (inst inst' : Option AllocType) : AlphaEq (.alloc k as inst) (.alloc k bs inst')
  | data (k : Cfun) {as bs : List Atom} (h : List.Forall₂ (Atom.AlphaEq r) as bs)
      (inst inst' : Option AllocType) : AlphaEq (.data k as inst) (.data k bs inst')
  | enter {f g : Atom} {as bs : List Atom} (hf : f.AlphaEq r g) (h : List.Forall₂ (Atom.AlphaEq r) as bs) :
      AlphaEq (.enter f as) (.enter g bs)
  | sel (k : Cfun) (field : Int) {a b : Atom} (h : a.AlphaEq r b) (inst inst' : Option AllocType) :
      AlphaEq (.sel k field a inst) (.sel k field b inst')

end Equivalence

/-- Bodies are equivalent if each step is, with what is bound before it. -/
inductive Code.AlphaEq : Correspondence → Code → Code → Prop
  | bind {r : Correspondence} {vs ws : List Temp} {t u : Tail} {next next' : Code} (ht : t.AlphaEq r u)
      (hlen : vs.length = ws.length) (h : AlphaEq (r.bindAll vs ws) next next') :
      AlphaEq r (.bind vs t next) (.bind ws u next')
  | done {r : Correspondence} {t u : Tail} (h : t.AlphaEq r u) : AlphaEq r (.done t) (.done u)
  | branch {r : Correspondence} {a b : Atom} {c d c' d' : BlockCall} (h : a.AlphaEq r b)
      (hc : c.AlphaEq r c') (hd : d.AlphaEq r d') : AlphaEq r (.branch a c d) (.branch b c' d')
  | case {r : Correspondence} {a b : Atom} {xs ys : List (Cfun × BlockCall)} {x y : Option BlockCall}
      (h : a.AlphaEq r b) (halts : List.Forall₂ (fun u v => u.1 = v.1 ∧ u.2.AlphaEq r v.2) xs ys)
      (hdefault : Option.Rel (BlockCall.AlphaEq r) x y) : AlphaEq r (.case a xs x) (.case b ys y)

/-- Blocks, and closures, are equivalent if their code is, with what their parameters and arguments stand
for. A temporary that is not bound stands for itself. -/
inductive DefnBody.AlphaEq : DefnBody → DefnBody → Prop
  | block {a b : Block} {c d : Code} (hlen : a.params.length = b.params.length) (hc : a.body = some c)
      (hd : b.body = some d) (h : c.AlphaEq (Correspondence.bindAll Eq a.params b.params) d) :
      AlphaEq (.block a) (.block b)
  | closure {k l : Closure} {t u : Tail} (hlen : (k.params ++ k.args).length = (l.params ++ l.args).length)
      (ht : k.tail = some t) (hu : l.tail = some u)
      (h : t.AlphaEq (Correspondence.bindAll Eq (k.params ++ k.args) (l.params ++ l.args)) u) :
      AlphaEq (.closure k) (.closure l)

/-! ### Equivalence is transitive -/

section Trans

variable {r s w : Correspondence}

theorem forall₂_trans {α : Type} {R S T : α → α → Prop} (hT : ∀ a b c, R a b → S b c → T a c)
    {as bs cs : List α} (h : List.Forall₂ R as bs) (h' : List.Forall₂ S bs cs) : List.Forall₂ T as cs := by
  induction h generalizing cs with
  | nil =>
      cases h'
      exact .nil
  | cons ha _ ih =>
      cases h' with
      | cons hb hrest => exact .cons (hT _ _ _ ha hb) (ih hrest)

section Parts

variable (hw : Correspondence.Through r s w)
include hw

theorem Atom.AlphaEq.trans {a b c : Atom} (h : a.AlphaEq r b) (h' : b.AlphaEq s c) : a.AlphaEq w c := by
  cases h with
  | temp h =>
      cases h' with
      | temp h' => exact .temp (hw h h')
  | lit l =>
      cases h'
      exact .lit l
  | top d i site site' =>
      cases h'
      exact .top d i site _

theorem alphaEq_atoms_trans {as bs cs : List Atom} (h : List.Forall₂ (Atom.AlphaEq r) as bs)
    (h' : List.Forall₂ (Atom.AlphaEq s) bs cs) : List.Forall₂ (Atom.AlphaEq w) as cs :=
  forall₂_trans (fun _ _ _ hab hbc => hab.trans hw hbc) h h'

theorem BlockCall.AlphaEq.trans {c d e : BlockCall} (h : c.AlphaEq r d) (h' : d.AlphaEq s e) :
    c.AlphaEq w e := ⟨h.block.trans h'.block, alphaEq_atoms_trans hw h.args h'.args⟩

theorem Tail.AlphaEq.trans {t u v : Tail} (h : t.AlphaEq r u) (h' : u.AlphaEq s v) : t.AlphaEq w v := by
  cases h with
  | ret h =>
      cases h' with
      | ret h' => exact .ret (alphaEq_atoms_trans hw h h')
  | call h =>
      cases h' with
      | call h' => exact .call (h.trans hw h')
  | prim f h =>
      cases h' with
      | prim _ h' => exact .prim f (alphaEq_atoms_trans hw h h') _ _
  | alloc k h =>
      cases h' with
      | alloc _ h' => exact .alloc k (alphaEq_atoms_trans hw h h') _ _
  | data k h =>
      cases h' with
      | data _ h' => exact .data k (alphaEq_atoms_trans hw h h') _ _
  | enter hf h =>
      cases h' with
      | enter hg h' => exact .enter (hf.trans hw hg) (alphaEq_atoms_trans hw h h')
  | sel k field h =>
      cases h' with
      | sel _ _ h' => exact .sel k field (h.trans hw h') _ _

end Parts

theorem Code.AlphaEq.trans {c d e : Code} (h : c.AlphaEq r d) (h' : d.AlphaEq s e)
    (hw : Correspondence.Through r s w) : c.AlphaEq w e := by
  induction h generalizing s w e with
  | bind ht hlen _ ih =>
      cases h' with
      | bind hu hlen' hnext =>
          exact .bind (ht.trans hw hu) (hlen.trans hlen')
            (ih hnext (hw.bindAll hlen hlen'))
  | done ht =>
      cases h' with
      | done hu => exact .done (ht.trans hw hu)
  | branch ha hc hd =>
      cases h' with
      | branch hb hc' hd' => exact .branch (ha.trans hw hb) (hc.trans hw hc') (hd.trans hw hd')
  | case ha halts hdefault =>
      cases h' with
      | case hb halts' hdefault' =>
          refine .case (ha.trans hw hb) ?_ ?_
          · exact forall₂_trans (fun _ _ _ h h' => ⟨h.1.trans h'.1, h.2.trans hw h'.2⟩) halts halts'
          · cases hdefault with
            | none =>
                cases hdefault'
                exact .none
            | some hc =>
                cases hdefault' with
                | some hd => exact .some (hc.trans hw hd)

theorem DefnBody.AlphaEq.trans {a b c : DefnBody} (h : a.AlphaEq b) (h' : b.AlphaEq c) : a.AlphaEq c := by
  cases h with
  | block hlen hc hd h =>
      cases h' with
      | block hlen' hd' he h' =>
          cases hd.symm.trans hd'
          exact .block (hlen.trans hlen') hc he (h.trans h' (Correspondence.through_eq.bindAll hlen hlen'))
  | closure hlen ht hu h =>
      cases h' with
      | closure hlen' hu' hv h' =>
          cases hu.symm.trans hu'
          exact .closure (hlen.trans hlen') ht hv
            (h.trans (Correspondence.through_eq.bindAll hlen hlen') h')

end Trans

/-! ### Equivalent bodies have one summary -/

section Summary

variable {r : Correspondence}

theorem Atom.AlphaEq.summary {a b : Atom} (h : a.AlphaEq r b) (s : Summary) : s.atom a = s.atom b := by
  cases h <;> rfl

theorem alphaEq_atoms_summary {as bs : List Atom} (h : List.Forall₂ (Atom.AlphaEq r) as bs) (s : Summary) :
    s.atoms as = s.atoms bs := by
  have hfold (s : Summary) : as.foldl Summary.atom s = bs.foldl Summary.atom s := by
    induction h generalizing s with
    | nil => rfl
    | cons ha _ ih => rw [List.foldl_cons, List.foldl_cons, ha.summary, ih]
  rw [Summary.atoms, Summary.atoms, h.length_eq, hfold]

theorem BlockCall.AlphaEq.summary {c d : BlockCall} (h : c.AlphaEq r d) (s : Summary) :
    s.tail (.call c) = s.tail (.call d) := by
  rw [Summary.tail, Summary.tail, Summary.operation, Summary.operation, h.block]
  exact alphaEq_atoms_summary h.args _

theorem Tail.AlphaEq.summary {t u : Tail} (h : t.AlphaEq r u) (s : Summary) : s.tail t = s.tail u := by
  cases h with
  | ret h => exact alphaEq_atoms_summary h _
  | call h => exact h.summary s
  | prim f h => exact alphaEq_atoms_summary h _
  | alloc k h => exact alphaEq_atoms_summary h _
  | data k h => exact alphaEq_atoms_summary h _
  | enter hf h => exact alphaEq_atoms_summary (.cons hf h) _
  | sel k field h => exact alphaEq_atoms_summary (.cons h .nil) _

theorem Summary.code_case (s : Summary) (a : Atom) (xs : List (Cfun × BlockCall)) (e : Option BlockCall) :
    s.code (.case a xs e) =
      (e.map fun c => ((xs.foldl (fun h x => (h.str x.1.name).tail (.call x.2))
        ((s.str "case").atoms [a])).str "default").tail (.call c)).getD
        (xs.foldl (fun h x => (h.str x.1.name).tail (.call x.2)) ((s.str "case").atoms [a])) := by
  cases e <;> rfl

theorem alphaEq_alts_summary {xs ys : List (Cfun × BlockCall)}
    (h : List.Forall₂ (fun u v => u.1 = v.1 ∧ u.2.AlphaEq r v.2) xs ys) (s : Summary) :
    xs.foldl (fun h x => (h.str x.1.name).tail (.call x.2)) s =
      ys.foldl (fun h x => (h.str x.1.name).tail (.call x.2)) s := by
  induction h generalizing s with
  | nil => rfl
  | cons hx _ ih => rw [List.foldl_cons, List.foldl_cons, hx.1, hx.2.summary, ih]

theorem Code.AlphaEq.summary {c d : Code} (h : c.AlphaEq r d) (s : Summary) : s.code c = s.code d := by
  induction h generalizing s with
  | bind ht hlen _ ih => rw [Summary.code, Summary.code, hlen, ht.summary, ih]
  | done ht => exact ht.summary _
  | branch ha hc hd =>
      rw [Summary.code, Summary.code, alphaEq_atoms_summary (.cons ha .nil), hc.summary, hd.summary]
  | case ha halts hdefault =>
      rw [Summary.code_case, Summary.code_case, alphaEq_atoms_summary (.cons ha .nil), alphaEq_alts_summary halts]
      cases hdefault with
      | none => rfl
      | some hc => exact hc.summary _

end Summary

/-! ### Primitives and constructors -/

/-- The primitive that a tail calls. -/
def Tail.prim? : Tail → Option Prim
  | .prim f _ _ => some f
  | _ => none

/-- The constructor that a tail names. -/
def Tail.cfun? : Tail → Option Cfun
  | .data k _ _ => some k
  | .sel k _ _ _ => some k
  | _ => none

namespace Code

/-- The primitives that a body calls. -/
def prims : Code → List Prim
  | .bind _ t next => t.prim?.toList ++ next.prims
  | .done t => t.prim?.toList
  | _ => []

/-- The constructors that a body names. -/
def cfuns : Code → List Cfun
  | .bind _ t next => t.cfun?.toList ++ next.cfuns
  | .done t => t.cfun?.toList
  | .branch _ _ _ => []
  | .case _ alts _ => alts.map Prod.fst

end Code

namespace DefnBody

/-- The primitives that a definition calls. -/
def prims : DefnBody → List Prim
  | .block b => (b.body.map Code.prims).getD []
  | .closure k => (k.tail.bind Tail.prim?).toList
  | .top t => (t.tail.bind Tail.prim?).toList
  | .external _ => []

/-- The constructors that a definition names. -/
def cfuns : DefnBody → List Cfun
  | .block b => (b.body.map Code.cfuns).getD []
  | .closure k => (k.tail.bind Tail.cfun?).toList
  | .top t => (t.tail.bind Tail.cfun?).toList
  | .external _ => []

end DefnBody

/-- Equality of primitives, which compares numbers, and of constructors, which compares names, tells
those of two lists apart. -/
structure Distinguishes (prims prims' : List Prim) (cfuns cfuns' : List Cfun) : Prop where
  prims : ∀ f ∈ prims, ∀ g ∈ prims', f == g → f = g
  cfuns : ∀ k ∈ cfuns, ∀ l ∈ cfuns', k == l → k = l

theorem Distinguishes.mono {ps ps' qs qs' : List Prim} {ks ks' ls ls' : List Cfun}
    (h : Distinguishes ps ps' ks ks') (hp : qs ⊆ ps) (hp' : qs' ⊆ ps') (hk : ls ⊆ ks) (hk' : ls' ⊆ ks') :
    Distinguishes qs qs' ls ls' :=
  ⟨fun f hf g hg => h.prims f (hp hf) g (hp' hg), fun k hk₁ l hl => h.cfuns k (hk hk₁) l (hk' hl)⟩

namespace Pairing

variable {P P' : Pairing} {x y a b : Temp} {xs ys : List Temp}

/-- The first temporary stands on the right of the pairing for the second one on the left. -/
def Equals (P : Pairing) (y x : Temp) : Prop := P.atom (.temp x) (.temp y) = true

/-- Equal temporaries are paired, or they are the same and neither is paired. -/
theorem equals_iff : P.Equals y x ↔
    (∃ w, P.find? (fun w => w.1 = x) = some w ∧ w.2 = y) ∨
      P.find? (fun w => w.1 = x) = none ∧ (∀ w ∈ P, w.2 ≠ y) ∧ x = y := by
  unfold Equals Pairing.atom
  dsimp only
  split
  · rename_i w hw
    simp [hw]
  · rename_i hnone
    simp [hnone]

theorem equals_cons (h : ∀ w ∈ P, w.1 ≠ x ∧ w.2 ≠ y) :
    Equals ((x, y) :: P) b a ↔ (a = x ∧ b = y) ∨ (a ≠ x ∧ b ≠ y ∧ P.Equals b a) := by
  rw [equals_iff, equals_iff, List.find?_cons]
  by_cases hx : x = a
  · subst hx
    have hnone : P.find? (fun w => w.1 = x) = none :=
      List.find?_eq_none.mpr fun w hw => by simpa using (h w hw).1
    simp [eq_comm]
  · have hax : a ≠ x := Ne.symm hx
    simp only [hx, decide_false]
    constructor
    · rintro (⟨w, hw, rfl⟩ | ⟨hnone, hne, rfl⟩)
      · exact .inr ⟨hax, (h w (List.mem_of_find?_eq_some hw)).2, .inl ⟨w, hw, rfl⟩⟩
      · exact .inr ⟨hax, (hne _ (.head _)).symm, .inr ⟨hnone, fun w hw => hne w (.tail _ hw), rfl⟩⟩
    · rintro (⟨rfl, -⟩ | ⟨-, hb, ⟨w, hw, rfl⟩ | ⟨hnone, hne, rfl⟩⟩)
      · exact absurd rfl hx
      · exact .inl ⟨w, hw, rfl⟩
      · exact .inr ⟨hnone, List.forall_mem_cons.mpr ⟨Ne.symm hb, hne⟩, rfl⟩

theorem extend?_cons : P.extend? (x :: xs) (y :: ys) = some P' ↔
    (∀ w ∈ P, w.1 ≠ x ∧ w.2 ≠ y) ∧ extend? ((x, y) :: P) xs ys = some P' := by
  rw [extend?]
  split
  · rename_i hany
    obtain ⟨w, hw, hmeet⟩ := List.any_eq_true.mp hany
    refine ⟨nofun, fun h => ?_⟩
    rcases of_decide_eq_true hmeet with hx | hy
    · exact absurd hx (h.1 w hw).1
    · exact absurd hy (h.1 w hw).2
  · rename_i hany
    refine ⟨fun h => ⟨fun w hw => ?_, h⟩, fun h => h.2⟩
    simpa [not_or] using fun hmeet => hany (List.any_eq_true.mpr ⟨w, hw, hmeet⟩)

theorem length_of_extend? (h : P.extend? xs ys = some P') : xs.length = ys.length := by
  induction xs generalizing P ys with
  | nil =>
      cases ys with
      | nil => rfl
      | cons => cases h
  | cons x xs ih =>
      cases ys with
      | nil => cases h
      | cons y ys => exact congrArg Nat.succ (ih (extend?_cons.mp h).2)

theorem mem_of_extend? (h : P.extend? xs ys = some P') {w : Temp × Temp} (hw : w ∈ P') :
    w ∈ P ∨ w.2 ∈ ys := by
  induction xs generalizing P ys with
  | nil =>
      cases ys with
      | nil =>
          cases h
          exact .inl hw
      | cons => cases h
  | cons x xs ih =>
      cases ys with
      | nil => cases h
      | cons y ys =>
          rcases ih (extend?_cons.mp h).2 with hw | hw
          · rcases List.mem_cons.mp hw with rfl | hw
            · exact .inr (.head _)
            · exact .inl hw
          · exact .inr (.tail _ hw)

end Pairing

/-! ### What the comparison decides -/

theorem Prim.beq_self (f : Prim) : (f == f) = true := BEq.refl f.index

theorem Cfun.beq_self (k : Cfun) : (k == k) = true := BEq.refl k.name

namespace Pairing

/-- The pairing equates the temporaries that stand for each other. -/
def Reads (P : Pairing) (r : Correspondence) : Prop := ∀ x y : Temp, P.Equals y x ↔ r x y

theorem reads_nil : Reads [] Eq := fun x y => by simp [equals_iff]

section Reads

variable {P P' : Pairing} {r : Correspondence} {vs ws : List Temp}

/-- New pairs hide nothing, so they are read as bindings. -/
theorem Reads.extend? (h : Reads P r) (hP : P.extend? vs ws = some P') : Reads P' (r.bindAll vs ws) := by
  induction vs generalizing P r ws with
  | nil =>
      cases ws with
      | nil =>
          cases hP
          exact h
      | cons => cases hP
  | cons v vs ih =>
      cases ws with
      | nil => cases hP
      | cons w ws =>
          obtain ⟨hfresh, hP⟩ := extend?_cons.mp hP
          refine ih (fun x y => ?_) hP
          rw [equals_cons hfresh, h x y]
          rfl

/-- Different temporaries that are not paired yet can be paired. -/
theorem exists_extend? (hlen : vs.length = ws.length) (hvs : vs.Nodup) (hws : ws.Nodup)
    (hfresh : ∀ w ∈ P, w.1 ∉ vs ∧ w.2 ∉ ws) :
    ∃ P', P.extend? vs ws = some P' ∧ ∀ w ∈ P', w ∈ P ∨ w.1 ∈ vs ∧ w.2 ∈ ws := by
  induction vs generalizing P ws with
  | nil =>
      cases ws with
      | nil => exact ⟨P, rfl, fun w hw => .inl hw⟩
      | cons => cases hlen
  | cons v vs ih =>
      cases ws with
      | nil => cases hlen
      | cons w ws =>
          obtain ⟨hv, hvs⟩ := List.nodup_cons.mp hvs
          obtain ⟨hw, hws⟩ := List.nodup_cons.mp hws
          have hhead : ∀ u ∈ P, u.1 ≠ v ∧ u.2 ≠ w := fun u hu =>
            ⟨fun heq => (hfresh u hu).1 (heq ▸ .head _), fun heq => (hfresh u hu).2 (heq ▸ .head _)⟩
          have hrest : ∀ u ∈ (v, w) :: P, u.1 ∉ vs ∧ u.2 ∉ ws := List.forall_mem_cons.mpr
            ⟨⟨hv, hw⟩, fun u hu => ⟨fun hmem => (hfresh u hu).1 (.tail _ hmem),
              fun hmem => (hfresh u hu).2 (.tail _ hmem)⟩⟩
          obtain ⟨P', hP', hmem⟩ := ih (Nat.succ.inj hlen) hvs hws hrest
          refine ⟨P', extend?_cons.mpr ⟨hhead, hP'⟩, fun u hu => ?_⟩
          rcases hmem u hu with hu | ⟨h₁, h₂⟩
          · rcases List.mem_cons.mp hu with rfl | hu
            · exact .inr ⟨.head _, .head _⟩
            · exact .inl hu
          · exact .inr ⟨.tail _ h₁, .tail _ h₂⟩

section Parts

variable (h : Reads P r)
include h

theorem atom_iff {a b : Atom} : P.atom a b = true ↔ a.AlphaEq r b := by
  constructor
  · intro hab
    cases a <;> cases b <;> try cases hab
    case temp.temp => exact .temp ((h _ _).mp hab)
    case lit.lit k l =>
        obtain rfl : k = l := of_decide_eq_true hab
        exact .lit k
    case top.top d i site e j site' =>
        obtain ⟨rfl, rfl⟩ : d = e ∧ i = j := by simpa [Pairing.atom] using hab
        exact .top d i site site'
  · intro hab
    cases hab with
    | temp hxy => exact (h _ _).mpr hxy
    | lit l => exact decide_eq_true rfl
    | top d i => simp [Pairing.atom]

theorem atoms_iff {as bs : List Atom} : P.atoms as bs = true ↔ List.Forall₂ (Atom.AlphaEq r) as bs := by
  induction as generalizing bs with
  | nil =>
      cases bs with
      | nil => exact iff_of_true rfl .nil
      | cons => exact iff_of_false Bool.false_ne_true (by rintro ⟨⟩)
  | cons a as ih =>
      cases bs with
      | nil => exact iff_of_false Bool.false_ne_true (by rintro ⟨⟩)
      | cons b bs =>
          rw [List.forall₂_cons, ← ih, ← atom_iff h]
          exact Bool.and_eq_true_iff

theorem call_iff {c d : BlockCall} : P.call c d = true ↔ c.AlphaEq r d := by
  have hcall : P.call c d = true ↔ c.block = d.block ∧ P.atoms c.args d.args = true := by
    simp [Pairing.call]
  rw [hcall, atoms_iff h]
  exact ⟨fun ⟨hblock, hargs⟩ => ⟨hblock, hargs⟩, fun hcd => ⟨hcd.block, hcd.args⟩⟩

theorem default_iff {x y : Option BlockCall} :
    P.default x y = true ↔ Option.Rel (BlockCall.AlphaEq r) x y := by
  cases x with
  | none =>
      cases y with
      | none => exact iff_of_true rfl .none
      | some => exact iff_of_false Bool.false_ne_true (by rintro ⟨⟩)
  | some c =>
      cases y with
      | none => exact iff_of_false Bool.false_ne_true (by rintro ⟨⟩)
      | some d =>
          refine (call_iff h).trans ⟨.some, fun hcd => ?_⟩
          cases hcd with
          | some hcd => exact hcd

theorem tail_iff {t u : Tail}
    (hd : Distinguishes t.prim?.toList u.prim?.toList t.cfun?.toList u.cfun?.toList) :
    P.tail t u = true ↔ t.AlphaEq r u := by
  have hboth {x y : Bool} (hxy : (x && y) = true) : x = true ∧ y = true := Bool.and_eq_true_iff.mp hxy
  have hargs {as bs : List Atom} : P.atoms as bs = true ↔ List.Forall₂ (Atom.AlphaEq r) as bs := atoms_iff h
  constructor
  · intro htu
    cases t <;> cases u <;> try cases htu
    case ret.ret => exact .ret (hargs.mp htu)
    case call.call => exact .call ((call_iff h).mp htu)
    case prim.prim f as inst g bs inst' =>
        obtain rfl : f = g := hd.prims f (.head _) g (.head _) (hboth htu).1
        exact .prim f (hargs.mp (hboth htu).2) inst inst'
    case alloc.alloc k as inst l bs inst' =>
        obtain rfl : k = l := of_decide_eq_true (hboth htu).1
        exact .alloc k (hargs.mp (hboth htu).2) inst inst'
    case data.data k as inst l bs inst' =>
        obtain rfl : k = l := hd.cfuns k (.head _) l (.head _) (hboth htu).1
        exact .data k (hargs.mp (hboth htu).2) inst inst'
    case enter.enter => exact .enter ((atom_iff h).mp (hboth htu).1) (hargs.mp (hboth htu).2)
    case sel.sel k i a inst l j b inst' =>
        obtain ⟨hki, hab⟩ := hboth htu
        obtain rfl : k = l := hd.cfuns k (.head _) l (.head _) (hboth hki).1
        obtain rfl : i = j := of_decide_eq_true (hboth hki).2
        exact .sel k i ((atom_iff h).mp hab) inst inst'
  · intro htu
    have hsame {x y : Bool} (hx : x = true) (hy : y = true) : (x && y) = true :=
      Bool.and_eq_true_iff.mpr ⟨hx, hy⟩
    cases htu with
    | ret has => exact hargs.mpr has
    | call hcd => exact (call_iff h).mpr hcd
    | prim f has => exact hsame f.beq_self (hargs.mpr has)
    | alloc k has => exact hsame (decide_eq_true rfl) (hargs.mpr has)
    | data k has => exact hsame k.beq_self (hargs.mpr has)
    | enter hfn has => exact hsame ((atom_iff h).mpr hfn) (hargs.mpr has)
    | sel k i hab => exact hsame (hsame k.beq_self (decide_eq_true rfl)) ((atom_iff h).mpr hab)

theorem alts_iff {xs ys : List (Cfun × BlockCall)}
    (hd : ∀ k ∈ xs.map Prod.fst, ∀ l ∈ ys.map Prod.fst, k == l → k = l) :
    P.alts xs ys = true ↔ List.Forall₂ (fun u v => u.1 = v.1 ∧ u.2.AlphaEq r v.2) xs ys := by
  induction xs generalizing ys with
  | nil =>
      cases ys with
      | nil => exact iff_of_true rfl .nil
      | cons => exact iff_of_false Bool.false_ne_true (by rintro ⟨⟩)
  | cons x xs ih =>
      cases ys with
      | nil => exact iff_of_false Bool.false_ne_true (by rintro ⟨⟩)
      | cons y ys =>
          have hhead : (x.1 == y.1) = true ↔ x.1 = y.1 :=
            ⟨hd x.1 (.head _) y.1 (.head _), fun hxy => hxy ▸ x.1.beq_self⟩
          have hrest := ih fun k hk l hl => hd k (.tail _ hk) l (.tail _ hl)
          rw [List.forall₂_cons, ← hrest, ← call_iff h, ← hhead, ← Bool.and_eq_true_iff]
          exact Bool.and_eq_true_iff

end Parts

/-- Where no temporary is bound twice, bodies are the same under the pairing just if they are
equivalent. -/
theorem code_iff (h : Reads P r) {c d : Code} (hc : c.binders.Nodup) (hd : d.binders.Nodup)
    (hfresh : ∀ w ∈ P, w.1 ∉ c.binders ∧ w.2 ∉ d.binders)
    (hdist : Distinguishes c.prims d.prims c.cfuns d.cfuns) : P.code c d = true ↔ c.AlphaEq r d := by
  have hboth {x y : Bool} : (x && y) = true ↔ x = true ∧ y = true := Bool.and_eq_true_iff
  induction c generalizing P r d with
  | bind vs t next ih =>
      cases d with
      | bind ws u next' =>
          have ht : P.tail t u = true ↔ t.AlphaEq r u :=
            tail_iff h (hdist.mono (List.subset_append_left _ _) (List.subset_append_left _ _)
              (List.subset_append_left _ _) (List.subset_append_left _ _))
          have hdist' : Distinguishes next.prims next'.prims next.cfuns next'.cfuns :=
            hdist.mono (List.subset_append_right _ _) (List.subset_append_right _ _)
              (List.subset_append_right _ _) (List.subset_append_right _ _)
          obtain ⟨hvs, hc', hdisj⟩ := List.nodup_append'.mp hc
          obtain ⟨hws, hd', hdisj'⟩ := List.nodup_append'.mp hd
          have hhere : ∀ w ∈ P, w.1 ∉ vs ∧ w.2 ∉ ws := fun w hw =>
            ⟨fun hmem => (hfresh w hw).1 (List.mem_append_left _ hmem),
              fun hmem => (hfresh w hw).2 (List.mem_append_left _ hmem)⟩
          -- what is paired before and here is not bound again
          have hnext {P' : Pairing} (hP' : P.extend? vs ws = some P')
              (hmem : ∀ w ∈ P', w ∈ P ∨ w.1 ∈ vs ∧ w.2 ∈ ws) :
              P'.code next next' = true ↔ next.AlphaEq (r.bindAll vs ws) next' := by
            refine ih (h.extend? hP') hc' hd' (fun w hw => ?_) hdist'
            rcases hmem w hw with hw | ⟨h₁, h₂⟩
            · exact ⟨fun hmem => (hfresh w hw).1 (List.mem_append_right _ hmem),
                fun hmem => (hfresh w hw).2 (List.mem_append_right _ hmem)⟩
            · exact ⟨hdisj h₁, hdisj' h₂⟩
          have hcode : P.code (.bind vs t next) (.bind ws u next') = true ↔
              P.tail t u = true ∧ ∃ P', P.extend? vs ws = some P' ∧ P'.code next next' = true := by
            rw [Pairing.code, hboth]
            cases P.extend? vs ws <;> simp
          rw [hcode, ht]
          constructor
          · rintro ⟨htu, P', hP', hcode'⟩
            obtain ⟨P'', hP'', hmem⟩ := exists_extend? (length_of_extend? hP') hvs hws hhere
            cases hP'.symm.trans hP''
            exact .bind htu (length_of_extend? hP') ((hnext hP' hmem).mp hcode')
          · intro halpha
            cases halpha with
            | bind htu hlen hcode' =>
                obtain ⟨P', hP', hmem⟩ := exists_extend? hlen hvs hws hhere
                exact ⟨htu, P', hP', (hnext hP' hmem).mpr hcode'⟩
      | _ => exact iff_of_false Bool.false_ne_true (by rintro ⟨⟩)
  | done t =>
      cases d with
      | done u =>
          refine (tail_iff h hdist).trans ⟨.done, fun halpha => ?_⟩
          cases halpha with
          | done htu => exact htu
      | _ => exact iff_of_false Bool.false_ne_true (by rintro ⟨⟩)
  | branch a c e =>
      cases d with
      | branch b c' e' =>
          rw [Pairing.code, hboth, hboth, atom_iff h, call_iff h, call_iff h]
          refine ⟨fun ⟨⟨hab, hcc⟩, hee⟩ => .branch hab hcc hee, fun halpha => ?_⟩
          cases halpha with
          | branch hab hcc hee => exact ⟨⟨hab, hcc⟩, hee⟩
      | _ => exact iff_of_false Bool.false_ne_true (by rintro ⟨⟩)
  | case a xs x =>
      cases d with
      | case b ys y =>
          rw [Pairing.code, hboth, hboth, atom_iff h, alts_iff h hdist.cfuns, default_iff h]
          refine ⟨fun ⟨⟨hab, hxs⟩, hx⟩ => .case hab hxs hx, fun halpha => ?_⟩
          cases halpha with
          | case hab hxs hx => exact ⟨⟨hab, hxs⟩, hx⟩
      | _ => exact iff_of_false Bool.false_ne_true (by rintro ⟨⟩)

/-- Bodies that bind no temporary twice are the same under the pairing of their parameters just if they
are equivalent. -/
theorem ofParams?_code_iff {xs ys : List Temp} {c d : Code} (hx : (xs ++ c.binders).Nodup)
    (hy : (ys ++ d.binders).Nodup) (hdist : Distinguishes c.prims d.prims c.cfuns d.cfuns) :
    (∃ P, ofParams? xs ys = some P ∧ P.code c d = true) ↔
      xs.length = ys.length ∧ c.AlphaEq (Correspondence.bindAll Eq xs ys) d := by
  obtain ⟨hxs, hc, hdisj⟩ := List.nodup_append'.mp hx
  obtain ⟨hys, hd, hdisj'⟩ := List.nodup_append'.mp hy
  have hmade (hlen : xs.length = ys.length) : ∃ P, ofParams? xs ys = some P ∧
      (P.code c d = true ↔ c.AlphaEq (Correspondence.bindAll Eq xs ys) d) := by
    obtain ⟨P, hP, hmem⟩ := exists_extend? (P := []) hlen hxs hys (List.forall_mem_nil _)
    refine ⟨P, hP, code_iff (reads_nil.extend? hP) hc hd (fun w hw => ?_) hdist⟩
    rcases hmem w hw with hw | ⟨h₁, h₂⟩
    · cases hw
    · exact ⟨hdisj h₁, hdisj' h₂⟩
  constructor
  · rintro ⟨P, hP, hcode⟩
    obtain ⟨P', hP', hiff⟩ := hmade (length_of_extend? hP)
    cases hP.symm.trans hP'
    exact ⟨length_of_extend? hP, hiff.mp hcode⟩
  · rintro ⟨hlen, halpha⟩
    obtain ⟨P, hP, hiff⟩ := hmade hlen
    exact ⟨P, hP, hiff.mpr halpha⟩

/-- Tails are the same under the pairing of different parameters just if they are equivalent. -/
theorem ofParams?_tail_iff {xs ys : List Temp} {t u : Tail} (hx : xs.Nodup) (hy : ys.Nodup)
    (hdist : Distinguishes t.prim?.toList u.prim?.toList t.cfun?.toList u.cfun?.toList) :
    (∃ P, ofParams? xs ys = some P ∧ P.tail t u = true) ↔
      xs.length = ys.length ∧ t.AlphaEq (Correspondence.bindAll Eq xs ys) u := by
  constructor
  · rintro ⟨P, hP, htail⟩
    exact ⟨length_of_extend? hP, (tail_iff (reads_nil.extend? hP) hdist).mp htail⟩
  · rintro ⟨hlen, halpha⟩
    obtain ⟨P, hP, -⟩ := exists_extend? (P := []) hlen hx hy (List.forall_mem_nil _)
    exact ⟨P, hP, (tail_iff (reads_nil.extend? hP) hdist).mpr halpha⟩

end Reads

end Pairing

namespace DefnBody

/-- The definition binds no temporary twice, its parameters included. -/
def BindsOnce (b : DefnBody) : Prop := (b.inputs ++ b.binders).Nodup

instance (b : DefnBody) : Decidable b.BindsOnce := inferInstanceAs (Decidable (List.Nodup _))

theorem BindsOnce.block {a : Block} {c : Code} (h : BindsOnce (.block a)) (hc : a.body = some c) :
    (a.params ++ c.binders).Nodup := by
  rw [BindsOnce, inputs, binders, hc] at h
  exact h

theorem BindsOnce.closure {k : Closure} (h : BindsOnce (.closure k)) : (k.params ++ k.args).Nodup := by
  rw [BindsOnce, binders, List.append_nil] at h
  · exact h
  · rintro _ ⟨⟩

theorem sameCode_block {a b : Block} : (DefnBody.block a).sameCode (.block b) = true ↔
    ∃ c d, a.body = some c ∧ b.body = some d ∧
      ∃ P, Pairing.ofParams? a.params b.params = some P ∧ P.code c d = true := by
  unfold sameCode
  dsimp only
  cases Pairing.ofParams? a.params b.params <;> cases a.body <;> cases b.body <;> simp

theorem sameCode_closure {k l : Closure} : (DefnBody.closure k).sameCode (.closure l) = true ↔
    ∃ t u, k.tail = some t ∧ l.tail = some u ∧
      ∃ P, Pairing.ofParams? (k.params ++ k.args) (l.params ++ l.args) = some P ∧ P.tail t u = true := by
  unfold sameCode
  dsimp only
  cases Pairing.ofParams? (k.params ++ k.args) (l.params ++ l.args) <;> cases k.tail <;> cases l.tail <;>
    simp

/-- Definitions that bind no temporary twice have the same code just if they are equivalent. -/
theorem sameCode_iff {a b : DefnBody} (ha : a.BindsOnce) (hb : b.BindsOnce)
    (hd : Distinguishes a.prims b.prims a.cfuns b.cfuns) : a.sameCode b = true ↔ a.AlphaEq b := by
  cases a <;> cases b <;> try exact iff_of_false Bool.false_ne_true (by rintro ⟨⟩)
  case block.block a b =>
      have hiff {c d : Code} (hc : a.body = some c) (hd' : b.body = some d) :
          (∃ P, Pairing.ofParams? a.params b.params = some P ∧ P.code c d = true) ↔
            a.params.length = b.params.length ∧
              c.AlphaEq (Correspondence.bindAll Eq a.params b.params) d := by
        rw [prims, prims, cfuns, cfuns, hc, hd'] at hd
        exact Pairing.ofParams?_code_iff (ha.block hc) (hb.block hd') hd
      rw [sameCode_block]
      constructor
      · rintro ⟨c, d, hc, hd', hcode⟩
        obtain ⟨hlen, halpha⟩ := (hiff hc hd').mp hcode
        exact .block hlen hc hd' halpha
      · intro halpha
        cases halpha with
        | block hlen hc hd' h => exact ⟨_, _, hc, hd', (hiff hc hd').mpr ⟨hlen, h⟩⟩
  case closure.closure k l =>
      have hiff {t u : Tail} (ht : k.tail = some t) (hu : l.tail = some u) :
          (∃ P, Pairing.ofParams? (k.params ++ k.args) (l.params ++ l.args) = some P ∧ P.tail t u = true) ↔
            (k.params ++ k.args).length = (l.params ++ l.args).length ∧
              t.AlphaEq (Correspondence.bindAll Eq (k.params ++ k.args) (l.params ++ l.args)) u := by
        rw [prims, prims, cfuns, cfuns, ht, hu] at hd
        exact Pairing.ofParams?_tail_iff ha.closure hb.closure hd
      rw [sameCode_closure]
      constructor
      · rintro ⟨t, u, ht, hu, htail⟩
        obtain ⟨hlen, halpha⟩ := (hiff ht hu).mp htail
        exact .closure hlen ht hu halpha
      · intro halpha
        cases halpha with
        | closure hlen ht hu h => exact ⟨_, _, ht, hu, (hiff ht hu).mpr ⟨hlen, h⟩⟩

end DefnBody

end Mil
