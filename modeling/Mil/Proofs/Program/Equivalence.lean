import Mil.Proofs.Program.Alpha
import Mil.Proofs.Program.Copy

/-!
Routines and their copies. On bodies with parameters that bind no temporary twice, equality up to the
choice of temporaries is an equivalence, and routines that are equal in this way have one summary. A copy
of a routine whose parameters and binders are new temporaries is equal to the routine and shares no
temporary that it binds with it.
-/

namespace Mil

/-! ### Bodies that differ in nothing -/

section Refl

variable {r s : Correspondence} {f : Atom → Atom}

/-- A temporary that is bound on both sides goes on standing for itself. -/
theorem Correspondence.bindAll_refl (hr : ∀ x, r x x) (vs : List Temp) (x : Temp) : r.bindAll vs vs x x := by
  induction vs generalizing r with
  | nil => exact hr x
  | cons v vs ih =>
      refine ih fun y => ?_
      by_cases hy : y = v
      · exact .inl ⟨hy, hy⟩
      · exact .inr ⟨hy, hy, hr y⟩

theorem Atom.AlphaEq.refl (hr : ∀ x, r x x) (a : Atom) : a.AlphaEq r a := by
  cases a with
  | temp x => exact .temp (hr x)
  | lit l => exact .lit l
  | top d i site => exact .top d i site site

/-- Operands that are equivalent to what takes their place. -/
theorem alphaEq_map {as : List Atom} (h : ∀ a ∈ as, a.AlphaEq r (f a)) :
    List.Forall₂ (Atom.AlphaEq r) as (as.map f) :=
  List.forall₂_map_right_iff.mpr (List.forall₂_same.mpr h)

theorem BlockCall.alphaEq_mapAtoms {c : BlockCall} (h : ∀ a ∈ c.args, a.AlphaEq r (f a)) :
    c.AlphaEq r (c.mapAtoms f) := ⟨rfl, alphaEq_map h⟩

theorem Tail.alphaEq_mapAtoms {t : Tail} (h : ∀ a ∈ t.atoms, a.AlphaEq r (f a)) :
    t.AlphaEq r (t.mapAtoms f) := by
  cases t with
  | ret as => exact .ret (alphaEq_map h)
  | call c => exact .call (BlockCall.alphaEq_mapAtoms h)
  | prim q as inst => exact .prim q (alphaEq_map h) inst inst
  | alloc k as inst => exact .alloc k (alphaEq_map h) inst inst
  | data k as inst => exact .data k (alphaEq_map h) inst inst
  | enter fn as => exact .enter (h fn (.head _)) (alphaEq_map fun a ha => h a (.tail _ ha))
  | sel k field a inst => exact .sel k field (h a (.head _)) inst inst

/-- The end of a body, where nothing is bound. -/
theorem Code.alphaEq_mapAtoms {c : Code} (hbind : ∀ vs t next, c ≠ .bind vs t next)
    (h : ∀ a ∈ c.atoms, a.AlphaEq r (f a)) : c.AlphaEq r (c.mapAtoms f) := by
  cases c with
  | bind vs t next => exact absurd rfl (hbind vs t next)
  | done t => exact .done (Tail.alphaEq_mapAtoms h)
  | branch cond c d =>
      refine .branch (h cond (.head _)) ?_ ?_
      · exact BlockCall.alphaEq_mapAtoms fun a ha => h a (.tail _ (List.mem_append_left _ ha))
      · exact BlockCall.alphaEq_mapAtoms fun a ha => h a (.tail _ (List.mem_append_right _ ha))
  | case scrut alts default =>
      have hcall {c : BlockCall} (hc : c ∈ (Code.case scrut alts default).calls) : c.AlphaEq r (c.mapAtoms f) :=
        BlockCall.alphaEq_mapAtoms fun a ha => h a (.tail _ (List.mem_flatMap.mpr ⟨c, hc, ha⟩))
      refine .case (h scrut (.head _)) ?_ ?_
      · refine List.forall₂_map_right_iff.mpr (List.forall₂_same.mpr fun alt halt => ⟨rfl, hcall ?_⟩)
        exact List.mem_append_left _ (List.mem_map_of_mem halt)
      · cases default with
        | none => exact .none
        | some c => exact .some (hcall (List.mem_append_right _ (.head _)))

theorem Code.AlphaEq.refl (hr : ∀ x, r x x) (c : Code) : c.AlphaEq r c := by
  have hends {r : Correspondence} (hr : ∀ x, r x x) {c : Code} (hbind : ∀ vs t next, c ≠ .bind vs t next) :
      c.AlphaEq r c := by
    have hsame := Code.alphaEq_mapAtoms (f := id) hbind fun a _ => Atom.AlphaEq.refl hr a
    rwa [mapAtoms_id] at hsame
  induction c generalizing r with
  | bind vs t next ih =>
      have ht := Tail.alphaEq_mapAtoms (t := t) (f := id) fun a _ => Atom.AlphaEq.refl hr a
      rw [Tail.mapAtoms_id] at ht
      exact .bind ht rfl (ih (Correspondence.bindAll_refl hr vs))
  | done t => exact hends hr (by rintro _ _ _ ⟨⟩)
  | branch cond c d => exact hends hr (by rintro _ _ _ ⟨⟩)
  | case scrut alts default => exact hends hr (by rintro _ _ _ ⟨⟩)

end Refl

/-! ### The other way round -/

section Symm

variable {r s : Correspondence}

/-- What stands for each other along one correspondence does so along the second, the other way round. -/
def Correspondence.Turned (r s : Correspondence) : Prop := ∀ ⦃x y : Temp⦄, r x y → s y x

theorem Correspondence.turned_eq : Turned Eq Eq := fun _ _ => Eq.symm

theorem Correspondence.Turned.bindAll (h : Turned r s) {vs ws : List Temp} (hlen : vs.length = ws.length) :
    Turned (r.bindAll vs ws) (s.bindAll ws vs) := by
  induction vs generalizing r s ws with
  | nil =>
      rw [List.eq_nil_of_length_eq_zero hlen.symm]
      exact h
  | cons v vs ih =>
      obtain ⟨w, ws, rfl⟩ := List.exists_cons_of_length_eq_add_one hlen.symm
      refine ih ?_ (Nat.succ.inj hlen)
      rintro x y (⟨hx, hy⟩ | ⟨hx, hy, hr⟩)
      · exact .inl ⟨hy, hx⟩
      · exact .inr ⟨hy, hx, h hr⟩

section Parts

variable (hs : r.Turned s)
include hs

theorem Atom.AlphaEq.symm {a b : Atom} (h : a.AlphaEq r b) : b.AlphaEq s a := by
  cases h with
  | temp h => exact .temp (hs h)
  | lit l => exact .lit l
  | top d i site site' => exact .top d i site' site

theorem alphaEq_atoms_symm {as bs : List Atom} (h : List.Forall₂ (Atom.AlphaEq r) as bs) :
    List.Forall₂ (Atom.AlphaEq s) bs as :=
  List.Forall₂.flip (h.imp fun _ _ hab => hab.symm hs)

theorem BlockCall.AlphaEq.symm {c d : BlockCall} (h : c.AlphaEq r d) : d.AlphaEq s c :=
  ⟨h.block.symm, alphaEq_atoms_symm hs h.args⟩

theorem Tail.AlphaEq.symm {t u : Tail} (h : t.AlphaEq r u) : u.AlphaEq s t := by
  cases h with
  | ret h => exact .ret (alphaEq_atoms_symm hs h)
  | call h => exact .call (h.symm hs)
  | prim f h => exact .prim f (alphaEq_atoms_symm hs h) _ _
  | alloc k h => exact .alloc k (alphaEq_atoms_symm hs h) _ _
  | data k h => exact .data k (alphaEq_atoms_symm hs h) _ _
  | enter hf h => exact .enter (hf.symm hs) (alphaEq_atoms_symm hs h)
  | sel k field h => exact .sel k field (h.symm hs) _ _

end Parts

theorem Code.AlphaEq.symm {c d : Code} (h : c.AlphaEq r d) (hs : r.Turned s) : d.AlphaEq s c := by
  induction h generalizing s with
  | bind ht hlen _ ih => exact .bind (ht.symm hs) hlen.symm (ih (hs.bindAll hlen))
  | done ht => exact .done (ht.symm hs)
  | branch ha hc hd => exact .branch (ha.symm hs) (hc.symm hs) (hd.symm hs)
  | case ha halts hdefault =>
      refine .case (ha.symm hs) (List.Forall₂.flip (halts.imp fun _ _ h => ⟨h.1.symm, h.2.symm hs⟩)) ?_
      cases hdefault with
      | none => exact .none
      | some hc => exact .some (hc.symm hs)

end Symm

/-! ### Copies -/

section Copy

variable {ρ : Replacement} {r : Correspondence} {n m : Nat} {v : Temp} {vs : List Temp} {temps : TempTypes}

/-- Temporaries below a number are replaced by temporaries below another, which stand for them. -/
def RenamesAlong (ρ : Replacement) (r : Correspondence) (n m : Nat) : Prop :=
  ∀ x < n, ∃ y < m, ρ.atom (.temp x) = .temp y ∧ r x y

theorem renamesAlong_nil (h : n ≤ m) : RenamesAlong [] Eq n m := fun x hx => ⟨x, hx.trans_le h, rfl, rfl⟩

/-- A temporary that is bound anew stands for what it replaces, and for nothing else. -/
theorem RenamesAlong.cons (h : RenamesAlong ρ r n m) (v : Temp) : RenamesAlong ((v, .temp m) :: ρ) (r.bind v m) n (m + 1) := by
  intro x hx
  have hatom : Replacement.atom ((v, .temp m) :: ρ) (.temp x) =
      if x = v then .temp m else ρ.atom (.temp x) := by
    unfold Replacement.atom
    dsimp only
    rw [lookup_cons_ite]
    split <;> rfl
  by_cases hv : x = v
  · exact ⟨m, Nat.lt_succ_self m, by rw [hatom, if_pos hv], .inl ⟨hv, rfl⟩⟩
  · obtain ⟨y, hy, hρ, hr⟩ := h x hx
    exact ⟨y, Nat.lt_succ_of_lt hy, by rw [hatom, if_neg hv, hρ], .inr ⟨hv, hy.ne, hr⟩⟩

theorem RenamesAlong.extend (h : RenamesAlong ρ r n m) (vs : List Temp) :
    RenamesAlong (ρ.extend vs ((List.range' m vs.length).map .temp)) (r.bindAll vs (List.range' m vs.length)) n
      (m + vs.length) := by
  induction vs generalizing ρ r m with
  | nil => exact h
  | cons v vs ih =>
      have hrest := ih (h.cons v)
      rw [List.length_cons, List.range'_succ, List.map_cons, Replacement.extend_cons]
      rwa [Nat.add_assoc, Nat.add_comm 1] at hrest

theorem RenamesAlong.atom (h : RenamesAlong ρ r n m) {as : List Atom} (has : AtomsBelow n as) :
    ∀ a ∈ as, a.AlphaEq r (ρ.atom a) := by
  intro a ha
  cases a with
  | temp x =>
      obtain ⟨y, -, hρ, hr⟩ := h x (has x ha)
      rw [hρ]
      exact .temp hr
  | lit l => exact .lit l
  | top d i site => exact .top d i site site

/-- What a body is copied to is equivalent to the body. -/
theorem Code.alphaEq_copy {c : Code} (h : RenamesAlong ρ r n temps.size) (hc : AtomsBelow n c.atoms) :
    c.AlphaEq r (c.copy ρ temps).1 := by
  induction c generalizing ρ r temps with
  | bind vs t next ih =>
      obtain ⟨hsize, hfresh⟩ := freshLike_spec temps vs
      have ht : t.AlphaEq r (t.mapAtoms ρ.atom) :=
        Tail.alphaEq_mapAtoms (h.atom fun x hx => hc x (List.mem_append_left _ hx))
      have hnext : RenamesAlong (ρ.extend vs ((temps.freshLike vs).1.map .temp))
          (r.bindAll vs (temps.freshLike vs).1) n (temps.freshLike vs).2.size := by
        rw [hfresh, hsize]
        exact h.extend vs
      -- The operands are replaced before the binders are made, so the tail is equivalent as things stand.
      unfold copy
      refine .bind ht ?_ (ih hnext fun x hx => hc x (List.mem_append_right _ hx))
      rw [hfresh, List.length_range']
  | done t => exact Code.alphaEq_mapAtoms (by rintro _ _ _ ⟨⟩) (h.atom hc)
  | branch cond c d => exact Code.alphaEq_mapAtoms (by rintro _ _ _ ⟨⟩) (h.atom hc)
  | case scrut alts default => exact Code.alphaEq_mapAtoms (by rintro _ _ _ ⟨⟩) (h.atom hc)

/-- The binders of a copy are the temporaries that come next. -/
theorem Code.binders_copy (c : Code) (ρ : Replacement) (temps : TempTypes) :
    (c.copy ρ temps).1.binders = List.range' temps.size c.binders.length := by
  induction c generalizing ρ temps with
  | bind vs t next ih =>
      obtain ⟨hsize, hfresh⟩ := freshLike_spec temps vs
      unfold copy
      rw [binders, binders, ih, hsize, hfresh, List.length_append]
      exact List.range'_append_1
  | done t => rfl
  | branch cond c d => rfl
  | case scrut alts default => rfl

theorem Tail.prim?_mapAtoms (f : Atom → Atom) (t : Tail) : (t.mapAtoms f).prim? = t.prim? := by
  cases t <;> rfl

theorem Tail.cfun?_mapAtoms (f : Atom → Atom) (t : Tail) : (t.mapAtoms f).cfun? = t.cfun? := by
  cases t <;> rfl

/-- A copy calls the primitives and names the constructors that the body does. -/
theorem Code.prims_copy (c : Code) (ρ : Replacement) (temps : TempTypes) :
    (c.copy ρ temps).1.prims = c.prims ∧ (c.copy ρ temps).1.cfuns = c.cfuns := by
  induction c generalizing ρ temps with
  | bind vs t next ih =>
      obtain ⟨hprims, hcfuns⟩ := ih (ρ.extend vs ((temps.freshLike vs).1.map .temp)) (temps.freshLike vs).2
      unfold copy
      rw [prims, prims, cfuns, cfuns, hprims, hcfuns, t.prim?_mapAtoms, t.cfun?_mapAtoms]
      exact ⟨rfl, rfl⟩
  | done t =>
      rw [copy, mapAtoms, prims, prims, cfuns, cfuns, t.prim?_mapAtoms, t.cfun?_mapAtoms]
      · exact ⟨rfl, rfl⟩
      · rintro _ _ _ ⟨⟩
  | branch cond c d => exact ⟨rfl, rfl⟩
  | case scrut alts default => exact ⟨rfl, by simp [copy, mapAtoms, cfuns]⟩

end Copy

/-! ### Routines -/

variable {T : PrimTable} {E : Env}

/-- A tail whose primitive and constructor are those of a program, by their number and their name. -/
structure Tail.Known (T : PrimTable) (E : Env) (t : Tail) : Prop where
  prims : ∀ f ∈ t.prim?.toList, T.prims[f.index]? = some f
  cfuns : ∀ k ∈ t.cfun?.toList, E.cfun? k.name = some k

/-- A body with parameters that binds no temporary twice. Its primitives and constructors are those of a
program, by their numbers and names. -/
structure Routine (T : PrimTable) (E : Env) where
  params : List Temp
  code : Code
  bindsOnce : (params ++ code.binders).Nodup
  prims : ∀ f ∈ code.prims, T.prims[f.index]? = some f
  cfuns : ∀ k ∈ code.cfuns, E.cfun? k.name = some k

/-- Parts with primitives and constructors of one program are told apart by numbers and names. -/
theorem distinguishes_of_known {fs gs : List Prim} {ks ls : List Cfun}
    (hf : ∀ f ∈ fs, T.prims[f.index]? = some f) (hg : ∀ g ∈ gs, T.prims[g.index]? = some g)
    (hk : ∀ k ∈ ks, E.cfun? k.name = some k) (hl : ∀ l ∈ ls, E.cfun? l.name = some l) :
    Distinguishes fs gs ks ls := by
  refine ⟨fun f hf' g hg' heq => ?_, fun k hk' l hl' heq => ?_⟩
  · have hindex : f.index = g.index := eq_of_beq heq
    have hfound := hf f hf'
    rw [hindex, hg g hg'] at hfound
    exact (Option.some.inj hfound).symm
  · have hname : k.name = l.name := eq_of_beq heq
    have hfound := hk k hk'
    rw [hname, hl l hl'] at hfound
    exact (Option.some.inj hfound).symm

namespace Routine

variable {a b c : Routine T E}

/-- Are two routines equal, up to the choice of temporaries? -/
def alphaEquiv (a b : Routine T E) : Bool :=
  (Pairing.ofParams? a.params b.params).any fun P => P.code a.code b.code

/-- The temporaries that a routine binds, its parameters included. -/
def bound (a : Routine T E) : List Temp := a.params ++ a.code.binders

/-- All temporaries of the routine have been made. -/
structure Within (a : Routine T E) (temps : TempTypes) : Prop where
  bound : ∀ v ∈ a.bound, v < temps.size
  atoms : AtomsBelow temps.size a.code.atoms

theorem alphaEquiv_iff : a.alphaEquiv b = true ↔ a.params.length = b.params.length ∧
    a.code.AlphaEq (Correspondence.bindAll Eq a.params b.params) b.code := by
  rw [← Pairing.ofParams?_code_iff a.bindsOnce b.bindsOnce
    (distinguishes_of_known a.prims b.prims a.cfuns b.cfuns)]
  exact Option.any_eq_true _ _

theorem alphaEquiv_refl (a : Routine T E) : a.alphaEquiv a = true :=
  alphaEquiv_iff.mpr ⟨rfl, .refl (Correspondence.bindAll_refl (fun _ => rfl) a.params) a.code⟩

theorem alphaEquiv_symm (h : a.alphaEquiv b = true) : b.alphaEquiv a = true := by
  obtain ⟨hlen, hcode⟩ := alphaEquiv_iff.mp h
  exact alphaEquiv_iff.mpr ⟨hlen.symm, hcode.symm (Correspondence.turned_eq.bindAll hlen)⟩

theorem alphaEquiv_trans (h : a.alphaEquiv b = true) (h' : b.alphaEquiv c = true) : a.alphaEquiv c = true := by
  obtain ⟨hlen, hcode⟩ := alphaEquiv_iff.mp h
  obtain ⟨hlen', hcode'⟩ := alphaEquiv_iff.mp h'
  exact alphaEquiv_iff.mpr
    ⟨hlen.trans hlen', hcode.trans hcode' (Correspondence.through_eq.bindAll hlen hlen')⟩

/-- A copy of a routine: its parameters become new temporaries, and its body is copied with these in place of
the parameters. -/
def copy (a : Routine T E) (temps : TempTypes) : Routine T E where
  params := (temps.freshLike a.params).1
  code := (a.code.copy (Replacement.extend [] a.params ((temps.freshLike a.params).1.map .temp))
    (temps.freshLike a.params).2).1
  bindsOnce := by
    obtain ⟨hsize, hfresh⟩ := freshLike_spec temps a.params
    rw [Code.binders_copy, hsize, hfresh, List.range'_append_1]
    exact List.nodup_range'
  prims := by
    rw [(Code.prims_copy _ _ _).1]
    exact a.prims
  cfuns := by
    rw [(Code.prims_copy _ _ _).2]
    exact a.cfuns

/-- What a copy binds are the temporaries that come next. -/
theorem bound_copy (a : Routine T E) (temps : TempTypes) :
    (a.copy temps).bound = List.range' temps.size a.bound.length := by
  obtain ⟨hsize, hfresh⟩ := freshLike_spec temps a.params
  have hparams : (a.copy temps).params = List.range' temps.size a.params.length := hfresh
  have hbinders : (a.copy temps).code.binders =
      List.range' (temps.size + a.params.length) a.code.binders.length := by
    rw [← hsize]
    exact Code.binders_copy _ _ _
  rw [bound, hparams, hbinders, List.range'_append_1, bound, List.length_append]

theorem alphaEquiv_copy {temps : TempTypes} (h : a.Within temps) : a.alphaEquiv (a.copy temps) = true := by
  obtain ⟨hsize, hfresh⟩ := freshLike_spec temps a.params
  have hrenames := (renamesAlong_nil (Nat.le_refl temps.size)).extend a.params
  rw [← hfresh, ← hsize] at hrenames
  have hlen : a.params.length = (temps.freshLike a.params).1.length := by rw [hfresh, List.length_range']
  exact alphaEquiv_iff.mpr ⟨hlen, Code.alphaEq_copy hrenames h.atoms⟩

end Routine

/-- **Equality up to the choice of temporaries, summaries and copies agree.** On routines equality is an
equivalence; routines that are equal have one summary, and so have tails that are equal for some parameters;
and a copy of a routine whose temporaries have all been made is equal to it and binds no temporary that it
binds. -/
theorem Routine.alphaEquiv_consistent (T : PrimTable) (E : Env) :
    Equivalence (fun a b : Routine T E => a.alphaEquiv b = true) ∧
    (∀ (a b : Routine T E) (s : Summary), a.alphaEquiv b = true → s.code a.code = s.code b.code) ∧
    (∀ (t u : Tail) (xs ys : List Temp) (P : Pairing) (s : Summary), t.Known T E → u.Known T E →
      Pairing.ofParams? xs ys = some P → P.tail t u = true → s.tail t = s.tail u) ∧
    ∀ (a : Routine T E) (temps : TempTypes), a.Within temps →
      a.alphaEquiv (a.copy temps) = true ∧ a.bound.Disjoint (a.copy temps).bound := by
  refine ⟨⟨alphaEquiv_refl, alphaEquiv_symm, alphaEquiv_trans⟩, fun a b s h => ?_,
    fun t u xs ys P s ht hu hP htail => ?_, fun a temps h => ⟨alphaEquiv_copy h, ?_⟩⟩
  · exact (alphaEquiv_iff.mp h).2.summary s
  · have hdist := distinguishes_of_known ht.prims hu.prims ht.cfuns hu.cfuns
    exact ((Pairing.tail_iff (Pairing.reads_nil.extend? hP) hdist).mp htail).summary s
  · intro v hv hcopy
    rw [bound_copy] at hcopy
    exact absurd (List.mem_range'_1.mp hcopy).1 (Nat.not_le.mpr (h.bound v hv))

/-- A routine that adds a temporary of another body to its parameter. -/
def addition (x y : Temp) (h : x ≠ y) : Routine .builtins .empty where
  params := [x]
  code := .bind [y] (.prim (.builtin .add) [.temp x, .temp 7] none) (.done (.ret [.temp y]))
  bindsOnce := List.nodup_cons.mpr ⟨fun hmem => h (List.mem_singleton.mp hmem), List.nodup_singleton y⟩
  prims f hf := by
    obtain rfl : f = .builtin .add := List.mem_singleton.mp hf
    rfl
  cfuns := List.forall_mem_nil _

theorem addition_within (temps : TempTypes) (h : 7 < temps.size) :
    (addition 0 1 (by decide)).Within temps where
  bound v hv := by
    have hv : v = 0 ∨ v = 1 := by simpa [Routine.bound, addition, Code.binders] using hv
    rcases hv with rfl | rfl <;> exact Nat.lt_trans (by decide) h
  atoms v hv := by
    have hv : v = 0 ∨ v = 7 ∨ v = 1 := by simpa [addition, Code.atoms, Tail.atoms] using hv
    rcases hv with rfl | rfl | rfl
    · exact Nat.lt_trans (by decide) h
    · exact h
    · exact Nat.lt_trans (by decide) h

theorem alphaEquiv_consistent_addition : 7 < (Array.replicate 8 none : TempTypes).size ∧
    (addition 0 1 (by decide)).alphaEquiv (addition 3 4 (by decide)) = true ∧
    Summary.start.code (addition 0 1 (by decide)).code = Summary.start.code (addition 3 4 (by decide)).code ∧
    Summary.start.tail (.ret [.temp 0, .temp 7]) = Summary.start.tail (.ret [.temp 3, .temp 7]) ∧
    (addition 0 1 (by decide)).alphaEquiv ((addition 0 1 (by decide)).copy (Array.replicate 8 none)) = true ∧
    (addition 0 1 (by decide)).bound.Disjoint ((addition 0 1 (by decide)).copy (Array.replicate 8 none)).bound := by
  obtain ⟨-, hcode, htail, hcopy⟩ := Routine.alphaEquiv_consistent .builtins .empty
  have hsize : 7 < (Array.replicate 8 none : TempTypes).size := by decide
  have hsame : (addition 0 1 (by decide)).alphaEquiv (addition 3 4 (by decide)) = true := by decide
  have hknown (as : List Atom) : (Tail.ret as).Known .builtins .empty :=
    ⟨List.forall_mem_nil _, List.forall_mem_nil _⟩
  obtain ⟨hequal, hdisjoint⟩ := hcopy _ _ (addition_within _ hsize)
  exact ⟨hsize, hsame, hcode _ _ _ hsame,
    htail _ _ [0] [3] [(0, 3)] _ (hknown _) (hknown _) rfl (by decide), hequal, hdisjoint⟩

end Mil
