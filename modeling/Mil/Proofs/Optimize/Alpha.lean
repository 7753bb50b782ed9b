import Mil.Proofs.Machine.Lockstep
import Mil.Proofs.Program.Alpha
import Mil.Proofs.Program.Names

/-!
Code that is equal up to the choice of temporaries does the same. The comparison pairs temporaries one
to one, so under values that agree along the pairing both sides read the same operands, and a new pair
hides no older one. References that follow replacements lead to what stands for their targets.
-/

namespace Mil

namespace Machine

variable {p q : Program} {r : TempRel} {f : DefnId → DefnId}

/-! ### References that follow replacements -/

section Redirect

variable (hf : ∀ i, q.Joins i (f i))
include hf

theorem AtomTwin.mapDefns {a a' : Atom} (h : AtomTwin p q r a a') :
    AtomTwin p q r a (a'.mapDefns f) := by
  cases h with
  | temp h hname => exact .temp h hname
  | lit l => exact .lit l
  | top h index site site' => exact .top (h.trans (hf _)) index site site'

theorem AtomsTwin.mapDefns {as as' : List Atom} (h : AtomsTwin p q r as as') :
    AtomsTwin p q r as (as'.map (·.mapDefns f)) :=
  List.forall₂_map_right_iff.mpr (h.imp fun _ _ ha => ha.mapDefns hf)

theorem CallTwin.mapDefns {c c' : BlockCall} (h : CallTwin p q r c c') :
    CallTwin p q r c (c'.mapDefns f) :=
  ⟨h.block.trans (hf _), AtomsTwin.mapDefns hf h.args⟩

theorem TailTwin.mapDefns {t t' : Tail} (h : TailTwin p q r t t') :
    TailTwin p q r t (t'.mapDefns f) := by
  cases h with
  | ret h => exact .ret (AtomsTwin.mapDefns hf h)
  | call h => exact .call (h.mapDefns hf)
  | prim g h => exact .prim g (AtomsTwin.mapDefns hf h)
  | alloc hid h => exact .alloc (hid.trans (hf _)) (AtomsTwin.mapDefns hf h)
  | data k h => exact .data k (AtomsTwin.mapDefns hf h)
  | enter hfn h => exact .enter (hfn.mapDefns hf) (AtomsTwin.mapDefns hf h)
  | sel k field h => exact .sel k field (h.mapDefns hf)

theorem CodeTwin.mapDefns {c c' : Code} (h : CodeTwin p q r c c') :
    CodeTwin p q r c (c'.mapDefns f) := by
  induction h with
  | bind ht hvars _ ih =>
      rw [Code.mapDefns]
      exact .bind (ht.mapDefns hf) hvars ih
  | done ht =>
      rw [Code.mapDefns]
      exact .done (ht.mapDefns hf)
  | branch ha hc he =>
      rw [Code.mapDefns]
      exact .branch (ha.mapDefns hf) (hc.mapDefns hf) (he.mapDefns hf)
  | case ha halts hdefault =>
      rw [Code.mapDefns]
      refine .case (ha.mapDefns hf) ?_ ?_
      · exact List.forall₂_map_right_iff.mpr (halts.imp fun _ _ h => ⟨h.1, h.2.mapDefns hf⟩)
      · cases hdefault with
        | none => exact .none
        | some h => exact .some (h.mapDefns hf)

omit hf in
theorem rel_map {α β : Type} {A : α → β → Prop} {g : β → β} (hg : ∀ a b, A a b → A a (g b)) {x : Option α}
    {y : Option β} (h : Option.Rel A x y) : Option.Rel A x (y.map g) := by
  cases h with
  | none => exact .none
  | some h => exact .some (hg _ _ h)

theorem BodyTwin.mapDefns {b b' : DefnBody} (h : BodyTwin p q b b') :
    BodyTwin p q b (b'.mapDefns f) := by
  cases h with
  | block hlen hopens hbody =>
      exact .block hlen hopens (rel_map (fun _ _ h => CodeTwin.mapDefns hf h) hbody)
  | closure hparams hargs hopens htail =>
      exact .closure hparams hargs hopens (rel_map (fun _ _ h => TailTwin.mapDefns hf h) htail)
  | top htail => exact .top (rel_map (fun _ _ h => TailTwin.mapDefns hf h) htail)
  | external href himpl => exact .external href (rel_map (fun _ _ h => h.trans (hf _)) himpl)

end Redirect

/-! ### A body and itself -/

theorem localsTwin_assign {env env' : Locals} {vals vals' : List Value} (xs : List Temp)
    (henv : LocalsTwin q Eq env env') (hvals : ValuesCopy q.Joins vals vals') :
    LocalsTwin q Eq (assign env xs vals) (assign env' xs vals') := by
  induction xs generalizing env env' vals vals' with
  | nil => exact henv
  | cons x xs ih =>
      cases hvals with
      | nil => exact henv
      | @cons v v' vs vs' hv hvs =>
          have hcons : LocalsTwin q Eq ((x, v) :: env) ((x, v') :: env') := by
            rintro y _ rfl
            rw [lookup_cons_ite, lookup_cons_ite]
            split
            · exact .some hv
            · exact henv y y rfl
          rw [assign_cons, assign_cons]
          exact ih hcons hvs

theorem opens_self (q : Program) (xs : List Temp) : Opens q xs xs Eq :=
  fun _ _ hvals => localsTwin_assign xs (localsTwin_nil q Eq) hvals

theorem rebinds_self (q : Program) (xs : List Temp) : Rebinds q Eq xs xs Eq :=
  ⟨rfl, fun _ _ _ _ henv hvals _ => localsTwin_assign xs henv hvals⟩

theorem atomTwin_self (a : Atom) : AtomTwin p q Eq a a := by
  cases a with
  | temp t => exact .temp rfl (.inl rfl)
  | lit l => exact .lit l
  | top i index site => exact .top rfl index site site

theorem atomsTwin_self (as : List Atom) : AtomsTwin p q Eq as as :=
  List.forall₂_same.mpr fun a _ => atomTwin_self a

theorem callTwin_self (c : BlockCall) : CallTwin p q Eq c c := ⟨rfl, atomsTwin_self _⟩

theorem tailTwin_self (t : Tail) : TailTwin p q Eq t t := by
  cases t with
  | ret as => exact .ret (atomsTwin_self as)
  | call c => exact .call (callTwin_self c)
  | prim g as inst => exact .prim g (atomsTwin_self as)
  | alloc i as inst => exact .alloc rfl (atomsTwin_self as)
  | data k as inst => exact .data k (atomsTwin_self as)
  | enter g as => exact .enter (atomTwin_self g) (atomsTwin_self as)
  | sel k field a inst => exact .sel k field (atomTwin_self a)

theorem codeTwin_self (c : Code) : CodeTwin p q Eq c c := by
  induction c with
  | bind vars t next ih => exact .bind (tailTwin_self t) (rebinds_self q vars) ih
  | done t => exact .done (tailTwin_self t)
  | branch a c e => exact .branch (atomTwin_self a) (callTwin_self c) (callTwin_self e)
  | case a alts default =>
      refine .case (atomTwin_self a) (List.forall₂_same.mpr fun x _ => ⟨rfl, callTwin_self x.2⟩) ?_
      cases default with
      | none => exact .none
      | some c => exact .some (callTwin_self c)

theorem bodyTwin_self (b : DefnBody) : BodyTwin p q b b := by
  cases b with
  | block b =>
      refine .block rfl (opens_self q _) ?_
      cases b.body with
      | none => exact .none
      | some c => exact .some (codeTwin_self c)
  | closure k =>
      refine .closure rfl rfl (opens_self q _) ?_
      cases k.tail with
      | none => exact .none
      | some t => exact .some (tailTwin_self t)
  | top t =>
      refine .top ?_
      cases t.tail with
      | none => exact .none
      | some t => exact .some (tailTwin_self t)
  | external e =>
      refine .external rfl ?_
      cases e.impl with
      | none => exact .none
      | some i => exact .some rfl

/-! ### Bodies that are equal along a pairing -/

section Pairing

variable {P P' : Pairing} {xs ys : List Temp}

/-- Values for temporaries that are paired. If there are too few values, the temporaries without one
must not have had a value before. -/
theorem localsTwin_extend {env env' : Locals} {vals vals' : List Value}
    (h : P.extend? xs ys = some P') (henv : LocalsTwin q P.Equals env env')
    (hvals : ValuesCopy q.Joins vals vals')
    (hfull : ys.length ≤ vals.length ∨
      (∀ y ∈ env.map Prod.fst, ∃ w ∈ P, w.2 = y) ∧ ∀ x ∈ env'.map Prod.fst, ∃ w ∈ P, w.1 = x) :
    LocalsTwin q P'.Equals (assign env ys vals) (assign env' xs vals') := by
  induction xs generalizing P ys env env' vals vals' with
  | nil =>
      cases ys with
      | nil =>
          cases h
          exact henv
      | cons => cases h
  | cons x xs ih =>
      cases ys with
      | nil => cases h
      | cons y ys =>
          obtain ⟨hnew, h⟩ := Pairing.extend?_cons.mp h
          cases hvals with
          | nil =>
              rcases hfull with hfull | ⟨hbound, hbound'⟩
              · exact absurd hfull (by simp)
              have hcons : LocalsTwin q (Pairing.Equals ((x, y) :: P)) env env' := by
                intro b a hab
                rcases (Pairing.equals_cons hnew).mp hab with ⟨rfl, rfl⟩ | ⟨-, -, hab⟩
                · rw [lookup_eq_none_iff_not_mem.mpr fun hb => ?_,
                    lookup_eq_none_iff_not_mem.mpr fun ha => ?_]
                  · exact .none
                  · obtain ⟨w, hw, hwa⟩ := hbound' _ ha
                    exact (hnew w hw).1 hwa
                  · obtain ⟨w, hw, hwb⟩ := hbound _ hb
                    exact (hnew w hw).2 hwb
                · exact henv b a hab
              have hnil : ∀ (env : Locals) (zs : List Temp), assign env zs [] = env := fun env zs => by
                rw [assign, List.zip_nil_right]
                rfl
              have hrest := ih h hcons .nil (.inr
                ⟨fun b hb => (hbound b hb).imp fun w hw => ⟨.tail _ hw.1, hw.2⟩,
                  fun a ha => (hbound' a ha).imp fun w hw => ⟨.tail _ hw.1, hw.2⟩⟩)
              rw [hnil, hnil] at hrest ⊢
              exact hrest
          | @cons v v' vs vs' hv hvs =>
              rw [assign_cons, assign_cons]
              refine ih h (fun b a hab => ?_) hvs ?_
              · rw [lookup_cons_ite, lookup_cons_ite]
                rcases (Pairing.equals_cons hnew).mp hab with ⟨rfl, rfl⟩ | ⟨ha, hb, hab⟩
                · rw [if_pos rfl, if_pos rfl]
                  exact .some hv
                · rw [if_neg hb, if_neg ha]
                  exact henv b a hab
              · refine hfull.imp (fun hlen => by simpa using hlen) fun hbound => ?_
                refine ⟨List.forall_mem_cons.mpr ⟨⟨_, .head _, rfl⟩, fun b hb => ?_⟩,
                  List.forall_mem_cons.mpr ⟨⟨_, .head _, rfl⟩, fun a ha => ?_⟩⟩
                · exact (hbound.1 b hb).imp fun w hw => ⟨.tail _ hw.1, hw.2⟩
                · exact (hbound.2 a ha).imp fun w hw => ⟨.tail _ hw.1, hw.2⟩

theorem opens_of_ofParams? (h : Pairing.ofParams? xs ys = some P) : Opens q ys xs P.Equals :=
  fun _ _ hvals => localsTwin_extend h (localsTwin_nil q _) hvals (.inr ⟨nofun, nofun⟩)

theorem rebinds_of_extend? (h : P.extend? xs ys = some P') : Rebinds q P.Equals ys xs P'.Equals :=
  ⟨(Pairing.length_of_extend? h).symm,
    fun _ _ _ _ henv hvals hlen => localsTwin_extend h henv hvals (.inl hlen.ge)⟩

variable {temps : List Temp} (hnames : ∀ y ∈ temps, ∀ x, Renamed p q y x)
include hnames

theorem atomTwin_of_atom (hP : ∀ w ∈ P, w.2 ∈ temps) {a b : Atom} (h : P.atom a b = true) :
    AtomTwin p q P.Equals b a := by
  cases a with
  | temp x =>
      cases b with
      | temp y =>
          refine .temp h ?_
          rcases Pairing.equals_iff.mp h with ⟨w, hw, rfl⟩ | ⟨-, -, rfl⟩
          · exact hnames _ (hP w (List.mem_of_find?_eq_some hw)) x
          · exact .inl rfl
      | _ => cases h
  | lit k =>
      cases b with
      | lit l =>
          obtain rfl := of_decide_eq_true h
          exact .lit k
      | _ => cases h
  | top i index site =>
      cases b with
      | top j index' site' =>
          rw [Pairing.atom, Bool.and_eq_true, decide_eq_true_eq, decide_eq_true_eq] at h
          obtain ⟨rfl, rfl⟩ := h
          exact .top rfl index site' site
      | _ => cases h

theorem atomsTwin_of_atoms (hP : ∀ w ∈ P, w.2 ∈ temps) {as bs : List Atom} (h : P.atoms as bs = true) :
    AtomsTwin p q P.Equals bs as := by
  induction as generalizing bs with
  | nil =>
      cases bs with
      | nil => exact .nil
      | cons => cases h
  | cons a as ih =>
      cases bs with
      | nil => cases h
      | cons b bs =>
          rw [Pairing.atoms, Bool.and_eq_true] at h
          exact .cons (atomTwin_of_atom hnames hP h.1) (ih h.2)

theorem callTwin_of_call (hP : ∀ w ∈ P, w.2 ∈ temps) {c d : BlockCall} (h : P.call c d = true) :
    CallTwin p q P.Equals d c := by
  rw [Pairing.call, Bool.and_eq_true, decide_eq_true_eq] at h
  exact ⟨congrArg q.resolve h.1.symm, atomsTwin_of_atoms hnames hP h.2⟩

theorem tailTwin_of_tail (hP : ∀ w ∈ P, w.2 ∈ temps) {t u : Tail} (h : P.tail t u = true)
    (hd : Distinguishes t.prim?.toList u.prim?.toList t.cfun?.toList u.cfun?.toList) :
    TailTwin p q P.Equals u t := by
  have hargs {as bs : List Atom} (h : P.atoms as bs = true) : AtomsTwin p q P.Equals bs as :=
    atomsTwin_of_atoms hnames hP h
  unfold Pairing.tail at h
  split at h
  · exact .ret (hargs h)
  · exact .call (callTwin_of_call hnames hP h)
  · rw [Bool.and_eq_true] at h
    obtain rfl := hd.prims _ (.head _) _ (.head _) h.1
    exact .prim _ (hargs h.2)
  · rw [Bool.and_eq_true, decide_eq_true_eq] at h
    exact .alloc (congrArg q.resolve h.1.symm) (hargs h.2)
  · rw [Bool.and_eq_true] at h
    obtain rfl := hd.cfuns _ (.head _) _ (.head _) h.1
    exact .data _ (hargs h.2)
  · rw [Bool.and_eq_true] at h
    exact .enter (atomTwin_of_atom hnames hP h.1) (hargs h.2)
  · rw [Bool.and_eq_true, Bool.and_eq_true, decide_eq_true_eq] at h
    obtain rfl := hd.cfuns _ (.head _) _ (.head _) h.1.1
    obtain rfl := h.1.2
    exact .sel _ _ (atomTwin_of_atom hnames hP h.2)
  · cases h

theorem altsTwin_of_alts (hP : ∀ w ∈ P, w.2 ∈ temps) {as bs : List (Cfun × BlockCall)}
    (h : P.alts as bs = true) (hd : ∀ k ∈ as.map Prod.fst, ∀ l ∈ bs.map Prod.fst, k == l → k = l) :
    List.Forall₂ (fun x x' => x'.1 = x.1 ∧ CallTwin p q P.Equals x.2 x'.2) bs as := by
  induction as generalizing bs with
  | nil =>
      cases bs with
      | nil => exact .nil
      | cons => cases h
  | cons a as ih =>
      cases bs with
      | nil => cases h
      | cons b bs =>
          rw [Pairing.alts, Bool.and_eq_true, Bool.and_eq_true] at h
          refine .cons ⟨hd _ (.head _) _ (.head _) h.1.1, callTwin_of_call hnames hP h.1.2⟩ ?_
          exact ih h.2 fun k hk l hl => hd k (.tail _ hk) l (.tail _ hl)

theorem codeTwin_of_code (hP : ∀ w ∈ P, w.2 ∈ temps) {c d : Code} (h : P.code c d = true)
    (hbinders : d.binders ⊆ temps) (hd : Distinguishes c.prims d.prims c.cfuns d.cfuns) :
    CodeTwin p q P.Equals d c := by
  induction c generalizing P d with
  | bind vars t next ih =>
      cases d with
      | bind vars' t' next' =>
          rw [Pairing.code, Bool.and_eq_true] at h
          obtain ⟨htail, hnext⟩ := h
          split at hnext
          · rename_i P' hextend
            refine .bind (tailTwin_of_tail hnames hP htail (hd.mono (List.subset_append_left _ _)
              (List.subset_append_left _ _) (List.subset_append_left _ _) (List.subset_append_left _ _)))
              (rebinds_of_extend? hextend) (ih (fun w hw => ?_) hnext ?_ ?_)
            · exact (Pairing.mem_of_extend? hextend hw).elim (hP w)
                fun hw => hbinders (List.mem_append_left _ hw)
            · exact fun y hy => hbinders (List.mem_append_right _ hy)
            · exact hd.mono (List.subset_append_right _ _) (List.subset_append_right _ _)
                (List.subset_append_right _ _) (List.subset_append_right _ _)
          · cases hnext
      | _ => cases h
  | done t =>
      cases d with
      | done t' => exact .done (tailTwin_of_tail hnames hP h hd)
      | _ => cases h
  | branch a c e =>
      cases d with
      | branch a' c' e' =>
          rw [Pairing.code, Bool.and_eq_true, Bool.and_eq_true] at h
          exact .branch (atomTwin_of_atom hnames hP h.1.1) (callTwin_of_call hnames hP h.1.2)
            (callTwin_of_call hnames hP h.2)
      | _ => cases h
  | case a alts default =>
      cases d with
      | case a' alts' default' =>
          rw [Pairing.code, Bool.and_eq_true, Bool.and_eq_true] at h
          obtain ⟨⟨ha, halts⟩, hdefault⟩ := h
          refine .case (atomTwin_of_atom hnames hP ha) (altsTwin_of_alts hnames hP halts hd.cfuns) ?_
          cases default <;> cases default'
          · exact .none
          · cases hdefault
          · cases hdefault
          · exact .some (callTwin_of_call hnames hP hdefault)
      | _ => cases h

/-- A definition with the same code does the same. -/
theorem bodyTwin_of_sameCode {b c : DefnBody} (h : b.sameCode c = true)
    (hparams : b.params.length = c.params.length) (htemps : c.inputs ++ c.binders ⊆ temps)
    (hd : Distinguishes b.prims c.prims b.cfuns c.cfuns) : BodyTwin p q c b := by
  unfold DefnBody.sameCode at h
  split at h
  · rename_i b c
    split at h
    · rename_i P x y hP hb hc
      rw [DefnBody.prims, DefnBody.prims, DefnBody.cfuns, DefnBody.cfuns, hb, hc] at hd
      have hmem : ∀ w ∈ P, w.2 ∈ temps := fun w hw => by
        rcases Pairing.mem_of_extend? hP hw with hw | hw
        · cases hw
        · exact htemps (List.mem_append_left _ hw)
      refine .block hparams.symm (opens_of_ofParams? hP) ?_
      rw [hb, hc]
      refine .some (codeTwin_of_code hnames hmem h (fun y hy => htemps ?_) hd)
      refine List.mem_append_right _ ?_
      rw [DefnBody.binders, hc]
      exact hy
    · cases h
  · rename_i k l
    split at h
    · rename_i P t u hP ht hu
      rw [DefnBody.prims, DefnBody.prims, DefnBody.cfuns, DefnBody.cfuns, ht, hu] at hd
      have hmem : ∀ w ∈ P, w.2 ∈ temps := fun w hw => by
        rcases Pairing.mem_of_extend? hP hw with hw | hw
        · cases hw
        · exact htemps (List.mem_append_left _ hw)
      have hlen := Pairing.length_of_extend? hP
      rw [List.length_append, List.length_append] at hlen
      have hparams : k.params.length = l.params.length := hparams
      refine .closure hparams.symm (by omega) (opens_of_ofParams? hP) ?_
      rw [ht, hu]
      exact .some (tailTwin_of_tail hnames hmem h hd)
    · cases h
  · cases h

end Pairing

end Machine

end Mil
