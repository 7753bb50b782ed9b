import Mathlib.Algebra.GroupWithZero.Nat
import Mathlib.Data.List.Sort
import Mil.Proofs.Rtl.WordLevel

/-!
The classification of blocks. The search for blocks that two functions jump to is a loop within a loop
within a loop, and none of them has a limit: a function goes on until it has met all blocks that it
jumps to, each function has its turn, and if a block was made a function everything starts again.
Here the loops are relations, which hold of runs that end. They do end, for any graph of jumps: a
function meets a block once, and a round that changes anything makes a function of a block.

In a round that changes nothing each function has met all blocks that it leads to, and owns them. So no
block that is not a function is led to by two functions.
-/

namespace Mil.Rtl.Roots

/-- Jumps lead from a function to a block, through blocks that are not functions. -/
inductive Leads (next : DefnId → List DefnId) (roots : List DefnId) (root : DefnId) : DefnId → Prop
  | jump {b : DefnId} (h : b ∈ next root) : Leads next roots root b
  | step {a b : DefnId} (ha : Leads next roots root a) (hroot : a ∉ roots) (h : b ∈ next a) :
      Leads next roots root b

/-! ### The loops without limits -/

/-- The turn of one function ends. -/
inductive Claims (next : DefnId → List DefnId) (root : DefnId) :
    List DefnId → List DefnId → Search → Search → Prop
  | done {seen : List DefnId} {s : Search} : Claims next root seen [] s s
  | skip {seen work : List DefnId} {b : DefnId} {s s' : Search} (hb : b ∈ seen ∨ b ∈ s.roots)
      (h : Claims next root seen work s s') : Claims next root seen (b :: work) s s'
  | promote {seen work : List DefnId} {b owner : DefnId} {s s' : Search}
      (hb : ¬ (b ∈ seen ∨ b ∈ s.roots)) (howner : s.owners.lookup b = some owner)
      (hne : owner ≠ root)
      (h : Claims next root (b :: seen) work { s with roots := b :: s.roots, changed := true } s') :
      Claims next root seen (b :: work) s s'
  | again {seen work : List DefnId} {b : DefnId} {s s' : Search} (hb : ¬ (b ∈ seen ∨ b ∈ s.roots))
      (howner : s.owners.lookup b = some root)
      (h : Claims next root (b :: seen) ((next b).reverse ++ work) s s') :
      Claims next root seen (b :: work) s s'
  | own {seen work : List DefnId} {b : DefnId} {s s' : Search} (hb : ¬ (b ∈ seen ∨ b ∈ s.roots))
      (hnone : s.owners.lookup b = none)
      (h : Claims next root (b :: seen) ((next b).reverse ++ work)
        { s with owners := (b, root) :: s.owners } s') :
      Claims next root seen (b :: work) s s'

/-- The turns of some functions end, one after the other. -/
inductive ClaimsAll (next : DefnId → List DefnId) : List DefnId → Search → Search → Prop
  | nil {s : Search} : ClaimsAll next [] s s
  | cons {root : DefnId} {roots : List DefnId} {s s₁ s' : Search}
      (hfirst : Claims next root [root] (next root).reverse s s₁) (hrest : ClaimsAll next roots s₁ s') :
      ClaimsAll next (root :: roots) s s'

/-- The rounds end, with a round that changes nothing. -/
inductive Closes (next : DefnId → List DefnId) : List DefnId → List DefnId → Prop
  | stop {roots : List DefnId} {s : Search}
      (h : ClaimsAll next (roots.mergeSort (· ≤ ·)) ⟨roots, [], false⟩ s)
      (hchanged : s.changed = false) : Closes next roots s.roots
  | again {roots final : List DefnId} {s : Search}
      (h : ClaimsAll next (roots.mergeSort (· ≤ ·)) ⟨roots, [], false⟩ s)
      (hchanged : s.changed = true) (hrest : Closes next s.roots final) : Closes next roots final

variable {next : DefnId → List DefnId} {root : DefnId} {ids roots seen work : List DefnId}
  {s s' : Search}

/-! ### The turn of a function ends -/

/-- The number of jumps of the blocks that were not met yet. -/
def remaining (next : DefnId → List DefnId) (ids seen : List DefnId) : Nat :=
  (ids.map fun b => if b ∈ seen then 0 else (next b).length).sum

theorem remaining_nil (next : DefnId → List DefnId) (ids : List DefnId) :
    remaining next ids [] = (ids.flatMap next).length := by
  rw [List.length_flatMap]
  simp [remaining]

theorem remaining_cons_le (next : DefnId → List DefnId) (ids seen : List DefnId) (b : DefnId) :
    remaining next ids (b :: seen) ≤ remaining next ids seen := by
  induction ids with
  | nil => exact Nat.le_refl _
  | cons a ids ih =>
      simp only [remaining, List.map_cons, List.sum_cons] at ih ⊢
      refine Nat.add_le_add ?_ ih
      by_cases ha : a ∈ seen
      · simp [ha]
      · rw [if_neg ha]
        split
        · exact Nat.zero_le _
        · exact Nat.le_refl _

/-- The jumps of a block that is met for the first time are no longer counted. -/
theorem length_add_remaining_cons {b : DefnId} (hnext : b ∉ ids → next b = []) (hb : b ∉ seen) :
    (next b).length + remaining next ids (b :: seen) ≤ remaining next ids seen := by
  induction ids with
  | nil => simp [hnext List.not_mem_nil, remaining]
  | cons a ids ih =>
      simp only [remaining, List.map_cons, List.sum_cons] at ih ⊢
      by_cases hab : a = b
      · subst hab
        have hle := remaining_cons_le next ids seen a
        simp only [remaining] at hle
        rw [if_pos (List.mem_cons_self ..), if_neg hb]
        omega
      · have hmem : a ∈ b :: seen ↔ a ∈ seen := by simp [hab]
        have hrest := ih fun hids => hnext fun h => (List.mem_cons.mp h).elim (fun h => hab h.symm) hids
        simp only [hmem]
        omega

/-- A search that may look at all remaining jumps ends by itself. -/
theorem claims_claim (hnext : ∀ b, b ∉ ids → next b = []) {fuel : Nat}
    (hfuel : work.length + remaining next ids seen ≤ fuel) (s : Search) :
    Claims next root seen work s (claim next root fuel seen work s) := by
  fun_induction claim next root fuel seen work s with
  | case1 seen work s =>
      obtain rfl : work = [] := List.length_eq_zero_iff.mp (by omega)
      exact .done
  | case2 => exact .done
  | case3 fuel seen b work s hb ih =>
      exact .skip hb (ih (by rw [List.length_cons] at hfuel; omega))
  | case4 fuel seen b work s hb owner howner hne ih =>
      have hle := remaining_cons_le next ids seen b
      exact .promote hb howner hne (ih (by rw [List.length_cons] at hfuel; omega))
  | case5 fuel seen b work s hb owner howner hne ih =>
      have hle := length_add_remaining_cons (hnext b) fun h => hb (.inl h)
      obtain rfl : owner = root := not_not.mp hne
      refine .again hb howner (ih ?_)
      rw [List.length_append, List.length_reverse]
      rw [List.length_cons] at hfuel
      omega
  | case6 fuel seen b work s hb hnone ih =>
      have hle := length_add_remaining_cons (hnext b) fun h => hb (.inl h)
      refine .own hb hnone (ih ?_)
      rw [List.length_append, List.length_reverse]
      rw [List.length_cons] at hfuel
      omega

theorem claimsAll_claimAll (hnext : ∀ b, b ∉ ids → next b = []) {fuel : Nat}
    (hfuel : (ids.flatMap next).length ≤ fuel) (roots : List DefnId) :
    ClaimsAll next (roots.mergeSort (· ≤ ·)) ⟨roots, [], false⟩ (claimAll next fuel roots) := by
  unfold claimAll
  generalize roots.mergeSort (· ≤ ·) = order
  generalize Search.mk roots [] false = s
  induction order generalizing s with
  | nil => exact .nil
  | cons r order ih =>
      have hle : (next r).length + remaining next ids [r] ≤ remaining next ids [] :=
        length_add_remaining_cons (hnext r) List.not_mem_nil
      rw [remaining_nil] at hle
      refine .cons (claims_claim hnext ?_ s) (ih _)
      rw [List.length_reverse]
      exact hle.trans hfuel

/-! ### The rounds end -/

/-- A turn that changes something makes a function of a block that it has met. -/
theorem Claims.promotes {P : DefnId → Prop} (hnext : ∀ v, ∀ w ∈ next v, P w)
    (h : Claims next root seen work s s') (hwork : ∀ v ∈ work, P v) :
    s.roots ⊆ s'.roots ∧ (s'.changed = s.changed ∨ ∃ b, P b ∧ b ∉ s.roots ∧ b ∈ s'.roots) := by
  have hpush {b : DefnId} {rest : List DefnId} (hrest : ∀ v ∈ rest, P v) :
      ∀ v ∈ (next b).reverse ++ rest, P v := fun v hv =>
    (List.mem_append.mp hv).elim (fun hv => hnext b v (List.mem_reverse.mp hv)) (hrest v)
  induction h with
  | done => exact ⟨fun _ hv => hv, .inl rfl⟩
  | skip _ _ ih => exact ih fun v hv => hwork v (.tail _ hv)
  | promote hb _ _ _ ih =>
      obtain ⟨hsub, -⟩ := ih fun v hv => hwork v (.tail _ hv)
      exact ⟨fun v hv => hsub (.tail _ hv), .inr ⟨_, hwork _ (.head _), fun h => hb (.inr h),
        hsub (.head _)⟩⟩
  | again _ _ _ ih => exact ih (hpush fun v hv => hwork v (.tail _ hv))
  | own _ _ _ ih => exact ih (hpush fun v hv => hwork v (.tail _ hv))

theorem ClaimsAll.promotes {P : DefnId → Prop} (hnext : ∀ v, ∀ w ∈ next v, P w)
    {order : List DefnId} (h : ClaimsAll next order s s') :
    s.roots ⊆ s'.roots ∧ (s'.changed = s.changed ∨ ∃ b, P b ∧ b ∉ s.roots ∧ b ∈ s'.roots) := by
  induction h with
  | nil => exact ⟨fun _ hv => hv, .inl rfl⟩
  | cons hfirst _ ih =>
      obtain ⟨hsub, hstep⟩ := hfirst.promotes hnext fun v hv => hnext _ v (List.mem_reverse.mp hv)
      obtain ⟨hsub', hrest⟩ := ih
      refine ⟨fun v hv => hsub' (hsub hv), ?_⟩
      rcases hstep with heq | ⟨b, hb, hnew, hmem⟩
      · rcases hrest with heq' | ⟨b, hb, hnew, hmem⟩
        · exact .inl (heq'.trans heq)
        · exact .inr ⟨b, hb, fun h => hnew (hsub h), hmem⟩
      · exact .inr ⟨b, hb, hnew, hsub' hmem⟩

/-- The number of blocks that are not functions. -/
def others (ids roots : List DefnId) : Nat := (ids.filter fun b => b ∉ roots).length

theorem others_lt {roots' : List DefnId} (hsub : roots ⊆ roots') {b : DefnId} (hb : b ∈ ids)
    (hnew : b ∉ roots) (hmem : b ∈ roots') : others ids roots' < others ids roots := by
  have hfilter : ids.filter (fun b => b ∉ roots') =
      (ids.filter fun b => b ∉ roots).filter fun b => b ∉ roots' := by
    rw [List.filter_filter]
    refine List.filter_congr fun a _ => ?_
    by_cases ha : a ∈ roots'
    · simp [ha]
    · simp [ha, show a ∉ roots from fun h => ha (hsub h)]
  rw [others, others, hfilter, List.length_filter_lt_length_iff_exists]
  exact ⟨b, by simp [hb, hnew], by simp [hmem]⟩

/-- With a round for each block that is not a function, and one that changes nothing, the rounds end. -/
theorem closes_close (hnext : ∀ b, b ∉ ids → next b = []) (hids : ∀ v, ∀ w ∈ next v, w ∈ ids)
    {fuel : Nat} (hfuel : (ids.flatMap next).length ≤ fuel) {rounds : Nat}
    (hrounds : others ids roots < rounds) : Closes next roots (close next fuel rounds roots) := by
  induction rounds generalizing roots with
  | zero => exact absurd hrounds (Nat.not_lt_zero _)
  | succ rounds ih =>
      have hround := claimsAll_claimAll hnext hfuel roots
      rw [close]
      split
      · rename_i hchanged
        refine .again hround hchanged (ih ?_)
        obtain ⟨hsub, heq | ⟨b, hb, hnew, hmem⟩⟩ := hround.promotes hids
        · rw [hchanged] at heq
          cases heq
        · exact Nat.lt_of_lt_of_le (others_lt hsub hb hnew hmem) (Nat.le_of_lt_succ hrounds)
      · rename_i hchanged
        exact .stop hround (Bool.eq_false_iff.mpr hchanged)

/-! ### What the last round says -/

/-- Owners stay owners, and a turn that changes nothing makes no functions. -/
theorem Claims.keeps (h : Claims next root seen work s s') :
    (∀ {b owner}, s.owners.lookup b = some owner → s'.owners.lookup b = some owner) ∧
      (s'.changed = false → s.changed = false ∧ s'.roots = s.roots) := by
  induction h with
  | done => exact ⟨fun h => h, fun h => ⟨h, rfl⟩⟩
  | skip _ _ ih | again _ _ _ ih => exact ih
  | promote _ _ _ _ ih =>
      refine ⟨fun h => ih.1 h, fun h => ?_⟩
      obtain ⟨hfalse, -⟩ := ih.2 h
      cases hfalse
  | own _ hnone _ ih => exact ⟨fun h => ih.1 (lookup_cons_of_none hnone h), ih.2⟩

/-- A turn that changes nothing meets all blocks that the function leads to, and the function owns
them. -/
theorem Claims.meets (h : Claims next root seen work s s') (hchanged : s'.changed = false)
    (hseen : ∀ b ∈ seen, ∀ c ∈ next b, c ∈ s.roots ∨ c ∈ seen ∨ c ∈ work) :
    ∃ met : List DefnId, seen ⊆ met ∧ (∀ b ∈ met, ∀ c ∈ next b, c ∈ s.roots ∨ c ∈ met) ∧
      ∀ b ∈ met, b ∈ seen ∨ s'.owners.lookup b = some root := by
  have hpush {seen work roots : List DefnId} {b : DefnId}
      (hseen : ∀ a ∈ seen, ∀ c ∈ next a, c ∈ roots ∨ c ∈ seen ∨ c ∈ b :: work) :
      ∀ a ∈ b :: seen, ∀ c ∈ next a, c ∈ roots ∨ c ∈ b :: seen ∨ c ∈ (next b).reverse ++ work := by
    intro a ha c hc
    rcases List.mem_cons.mp ha with rfl | ha
    · exact .inr (.inr (List.mem_append_left _ (List.mem_reverse.mpr hc)))
    · rcases hseen a ha c hc with h | h | h
      · exact .inl h
      · exact .inr (.inl (.tail _ h))
      · rcases List.mem_cons.mp h with rfl | h
        · exact .inr (.inl (.head _))
        · exact .inr (.inr (List.mem_append_right _ h))
  induction h with
  | @done seen s =>
      refine ⟨seen, fun _ h => h, fun b hb c hc => ?_, fun b hb => .inl hb⟩
      exact (hseen b hb c hc).imp_right fun h => h.resolve_right List.not_mem_nil
  | skip hb _ ih =>
      refine ih hchanged fun a ha c hc => ?_
      rcases hseen a ha c hc with h | h | h
      · exact .inl h
      · exact .inr (.inl h)
      · rcases List.mem_cons.mp h with rfl | h
        · exact hb.elim (fun h => .inr (.inl h)) .inl
        · exact .inr (.inr h)
  | promote _ _ _ hrest _ =>
      obtain ⟨hfalse, -⟩ := hrest.keeps.2 hchanged
      cases hfalse
  | @again seen work b s s' hb howner hrest ih =>
      obtain ⟨met, hsub, hclosed, howned⟩ := ih hchanged (hpush hseen)
      refine ⟨met, fun a ha => hsub (.tail _ ha), hclosed, fun a ha => ?_⟩
      rcases howned a ha with ha | ha
      · rcases List.mem_cons.mp ha with rfl | ha
        · exact .inr (hrest.keeps.1 howner)
        · exact .inl ha
      · exact .inr ha
  | @own seen work b s s' hb hnone hrest ih =>
      obtain ⟨met, hsub, hclosed, howned⟩ := ih hchanged (hpush hseen)
      refine ⟨met, fun a ha => hsub (.tail _ ha), hclosed, fun a ha => ?_⟩
      rcases howned a ha with ha | ha
      · rcases List.mem_cons.mp ha with rfl | ha
        · exact .inr (hrest.keeps.1 ((lookup_cons_ite a a _ _).trans (if_pos rfl)))
        · exact .inl ha
      · exact .inr ha

/-- After a turn that changes nothing the function owns the blocks that it leads to. -/
theorem Claims.owns (h : Claims next root [root] (next root).reverse s s')
    (hchanged : s'.changed = false) (hroot : root ∈ s.roots) {b : DefnId}
    (hleads : Leads next s.roots root b) (hb : b ∉ s.roots) : s'.owners.lookup b = some root := by
  obtain ⟨met, hsub, hclosed, howned⟩ := h.meets hchanged fun a ha c hc => by
    rw [List.mem_singleton.mp ha] at hc
    exact .inr (.inr (List.mem_reverse.mpr hc))
  have hmet : b ∈ met := by
    refine Or.resolve_left ?_ hb
    clear hb
    induction hleads with
    | jump h => exact hclosed _ (hsub (.head _)) _ h
    | step _ ha h ih => exact hclosed _ (ih.resolve_left ha) _ h
  refine (howned b hmet).resolve_left fun h => hb ?_
  rw [List.mem_singleton.mp h]
  exact hroot

theorem ClaimsAll.keeps {order : List DefnId} (h : ClaimsAll next order s s') :
    (∀ {b owner}, s.owners.lookup b = some owner → s'.owners.lookup b = some owner) ∧
      (s'.changed = false → s.changed = false ∧ s'.roots = s.roots) := by
  induction h with
  | nil => exact ⟨fun h => h, fun h => ⟨h, rfl⟩⟩
  | cons hfirst _ ih =>
      refine ⟨fun h => ih.1 (hfirst.keeps.1 h), fun h => ?_⟩
      obtain ⟨hchanged, hroots⟩ := ih.2 h
      obtain ⟨hchanged, hroots'⟩ := hfirst.keeps.2 hchanged
      exact ⟨hchanged, hroots.trans hroots'⟩

theorem ClaimsAll.owns {order : List DefnId} (h : ClaimsAll next order s s')
    (hchanged : s'.changed = false) (horder : ∀ r ∈ order, r ∈ s.roots) {r : DefnId} (hr : r ∈ order)
    {b : DefnId} (hleads : Leads next s.roots r b) (hb : b ∉ s.roots) :
    s'.owners.lookup b = some r := by
  induction h with
  | nil => cases hr
  | cons hfirst hrest ih =>
      obtain ⟨hchanged₁, -⟩ := hrest.keeps.2 hchanged
      obtain ⟨-, hroots⟩ := hfirst.keeps.2 hchanged₁
      rcases List.mem_cons.mp hr with rfl | hr
      · exact hrest.keeps.1 (hfirst.owns hchanged₁ (horder _ (.head _)) hleads hb)
      · rw [← hroots] at horder hleads hb
        exact ih hchanged (fun r hr => horder r (.tail _ hr)) hr hleads hb

/-- When the rounds have ended, no block that is not a function is led to by two functions. -/
theorem Closes.unique {final : List DefnId} (h : Closes next roots final) {b r r' : DefnId}
    (hb : b ∉ final) (hr : r ∈ final) (hr' : r' ∈ final) (hleads : Leads next final r b)
    (hleads' : Leads next final r' b) : r = r' := by
  induction h with
  | @stop roots s hround hchanged =>
      obtain ⟨-, hroots⟩ := hround.keeps.2 hchanged
      rw [hroots] at hb hr hr' hleads hleads'
      have howns {r : DefnId} (hr : r ∈ roots) (hleads : Leads next roots r b) :
          s.owners.lookup b = some r :=
        hround.owns hchanged (fun _ hv => List.mem_mergeSort.mp hv) (List.mem_mergeSort.mpr hr) hleads hb
      exact Option.some.inj ((howns hr hleads).symm.trans (howns hr' hleads'))
  | again _ _ _ ih => exact ih hb hr hr' hleads hleads'

/-! ### Evaluation -/

/-- The rounds with an insertion sort, which the kernel can evaluate, unlike the sort of the library. -/
def inserting (next : DefnId → List DefnId) (fuel : Nat) : Nat → List DefnId → List DefnId
  | 0, roots => roots
  | rounds + 1, roots =>
    let s := (roots.insertionSort (· ≤ ·)).foldl
      (fun s r => claim next r fuel [r] (next r).reverse s) ⟨roots, [], false⟩
    if s.changed then inserting next fuel rounds s.roots else s.roots

theorem close_eq_inserting : close = inserting := by
  funext next fuel rounds roots
  induction rounds generalizing roots with
  | zero => rfl
  | succ rounds ih =>
      rw [close, inserting, claimAll, List.mergeSort_eq_insertionSort]
      simp only [ih]

/-! ### Programs -/

/-- What the roots of some definitions are: entrypoints are among them, blocks whose results are bound,
and blocks that a closure or a top-level definition calls; and at most one root leads to a block that is
no root. -/
structure Classifies (p : Mil.Program) (ids roots : List DefnId) : Prop where
  entry : ∀ {id : DefnId} {d : Defn} {k : Block}, id ∈ ids → p.defns[id]? = some d →
    d.body = .block k → d.entry = true → id ∈ roots
  bound : ∀ {id : DefnId} {d : Defn} {k : Block} {c : Code}, id ∈ ids → p.defns[id]? = some d →
    d.body = .block k → k.body = some c → ∀ b ∈ bound c, p.resolve b ∈ roots
  called : ∀ {id : DefnId} {d : Defn} {t : Option Tail}, id ∈ ids → p.defns[id]? = some d →
    (∃ k, d.body = .closure k ∧ k.tail = t) ∨ (∃ l, d.body = .top l ∧ l.tail = t) →
    ∀ b ∈ called t, p.resolve b ∈ roots
  unique : ∀ {b r r' : DefnId}, b ∉ roots → r ∈ roots → r' ∈ roots → Leads (jumpsOf p) roots r b →
    Leads (jumpsOf p) roots r' b → r = r'

section Programs

variable {p : Mil.Program} {id : DefnId}

theorem exists_call_of_jumps {c : Code} {b : DefnId} (hb : b ∈ jumps c) :
    ∃ call ∈ c.allCalls, call.block = b := by
  induction c with
  | bind vars t next ih =>
      obtain ⟨call, hcall, rfl⟩ := ih hb
      exact ⟨call, List.mem_append_right _ hcall, rfl⟩
  | done t =>
      cases t with
      | call call => exact ⟨call, .head _, (List.mem_singleton.mp hb).symm⟩
      | _ => cases hb
  | branch cond t f => exact List.mem_map.mp hb
  | case scrut alts default => exact List.mem_map.mp hb

theorem exists_call_of_bound {c : Code} {b : DefnId} (hb : b ∈ bound c) :
    ∃ call ∈ c.allCalls, call.block = b := by
  induction c with
  | bind vars t next ih =>
      have hnext (hb : b ∈ bound next) : ∃ call ∈ (Code.bind vars t next).allCalls, call.block = b := by
        obtain ⟨call, hcall, rfl⟩ := ih hb
        exact ⟨call, List.mem_append_right _ hcall, rfl⟩
      cases t with
      | call call =>
          rcases List.mem_cons.mp hb with rfl | hb
          · exact ⟨call, .head _, rfl⟩
          · exact hnext hb
      | _ => exact hnext hb
  | done t => cases hb
  | branch cond t f => cases hb
  | case scrut alts default => cases hb

theorem exists_call_of_called {t : Option Tail} {b : DefnId} (hb : b ∈ called t) :
    ∃ call ∈ (t.map fun t => t.call?.toList).getD [], call.block = b := by
  unfold called at hb
  split at hb
  · exact ⟨_, .head _, (List.mem_singleton.mp hb).symm⟩
  · cases hb

/-- What a definition jumps to it calls. -/
theorem exists_call_of_jumpsOf {b : DefnId} (hb : b ∈ jumpsOf p id) :
    ∃ d, p.defns[id]? = some d ∧ ∃ c ∈ d.body.calls, p.resolve c.block = b := by
  unfold jumpsOf at hb
  split at hb
  · rename_i c hc
    obtain ⟨v, hv, rfl⟩ := List.mem_map.mp hb
    obtain ⟨k, hk, hbody⟩ := Option.bind_eq_some_iff.mp hc
    obtain ⟨d, hd, hdk⟩ := Source.exists_of_block? hk
    obtain ⟨call, hcall, rfl⟩ := exists_call_of_jumps hv
    refine ⟨d, hd, call, ?_, rfl⟩
    rw [hdk, DefnBody.calls, hbody]
    exact hcall
  · cases hb

/-- What a definition makes functions of is the definition itself, if it is a block, or called by it. -/
theorem exists_call_of_required {b : DefnId} (hb : b ∈ required p id) :
    (b = id ∧ ∃ k, p.block id = .ok k) ∨
      ∃ d, p.defns[id]? = some d ∧ ∃ c ∈ d.body.calls, p.resolve c.block = b := by
  unfold required at hb
  split at hb
  · cases hb
  rename_i d hd
  split at hb
  · rename_i k hk
    rcases List.mem_append.mp hb with hb | hb
    · split at hb
      · exact .inl ⟨List.mem_singleton.mp hb, k, block_eq hd hk⟩
      · cases hb
    · obtain ⟨v, hv, rfl⟩ := List.mem_map.mp hb
      cases hc : k.body with
      | none =>
          rw [hc] at hv
          cases hv
      | some c =>
          rw [hc] at hv
          obtain ⟨call, hcall, rfl⟩ := exists_call_of_bound hv
          refine .inr ⟨d, hd, call, ?_, rfl⟩
          rw [hk, DefnBody.calls, hc]
          exact hcall
  · rename_i k hk
    obtain ⟨v, hv, rfl⟩ := List.mem_map.mp hb
    obtain ⟨call, hcall, rfl⟩ := exists_call_of_called hv
    exact .inr ⟨d, hd, call, by rwa [hk], rfl⟩
  · rename_i l hl
    obtain ⟨v, hv, rfl⟩ := List.mem_map.mp hb
    obtain ⟨call, hcall, rfl⟩ := exists_call_of_called hv
    exact .inr ⟨d, hd, call, by rwa [hl], rfl⟩
  · cases hb

/-- Calls lead from the definitions to blocks among them, whatever has been replaced. -/
structure Within (p : Mil.Program) (ids : List DefnId) : Prop where
  calls : ∀ {id : DefnId} {d : Defn}, id ∈ ids → p.defns[id]? = some d → ∀ c ∈ d.body.calls,
    p.resolve c.block ∈ ids ∧ ∃ k, p.block (p.resolve c.block) = .ok k

theorem Within.jumpsOf (h : Within p ids) (hid : id ∈ ids) {b : DefnId} (hb : b ∈ jumpsOf p id) :
    b ∈ ids ∧ ∃ k, p.block b = .ok k := by
  obtain ⟨d, hd, c, hc, rfl⟩ := exists_call_of_jumpsOf hb
  exact h.calls hid hd c hc

theorem Within.required (h : Within p ids) (hid : id ∈ ids) {b : DefnId} (hb : b ∈ required p id) :
    b ∈ ids ∧ ∃ k, p.block b = .ok k := by
  rcases exists_call_of_required hb with ⟨rfl, hk⟩ | ⟨d, hd, c, hc, rfl⟩
  · exact ⟨hid, hk⟩
  · exact h.calls hid hd c hc

/-- Roots are blocks among the definitions. -/
theorem Within.of_root (h : Within p ids) {r : DefnId} (hr : r ∈ ofDefns p ids) :
    r ∈ ids ∧ ∃ k, p.block r = .ok k :=
  ofDefns_of (P := fun r => r ∈ ids ∧ ∃ k, p.block r = .ok k) (fun _ hid _ hv => h.required hid hv)
    (fun _ hid _ hv => h.jumpsOf hid hv) r hr

/-- The jumps of the definitions, which are all that the classification looks at. -/
def jumpsWithin (p : Mil.Program) (ids : List DefnId) (id : DefnId) : List DefnId :=
  if id ∈ ids then Roots.jumpsOf p id else []

/-- From one of the definitions jumps do not lead outside. -/
theorem Within.leads (h : Within p ids) (hid : id ∈ ids) {b : DefnId}
    (hb : Leads (Roots.jumpsOf p) roots id b) : b ∈ ids ∧ Leads (jumpsWithin p ids) roots id b := by
  have hjumps {a : DefnId} (ha : a ∈ ids) : jumpsWithin p ids a = Roots.jumpsOf p a := if_pos ha
  induction hb with
  | jump hb => exact ⟨(h.jumpsOf hid hb).1, .jump ((hjumps hid).symm ▸ hb)⟩
  | step _ hroot hb ih => exact ⟨(h.jumpsOf ih.1 hb).1, .step ih.2 hroot ((hjumps ih.1).symm ▸ hb)⟩

/-- The loop that classifies the blocks of some definitions ends with their roots. -/
theorem closes_ofDefns (h : Within p ids) :
    Closes (jumpsWithin p ids) (ids.flatMap (Roots.required p)).eraseDups (ofDefns p ids) := by
  refine closes_close (fun _ hb => if_neg hb) (fun v w hw => ?_) (by omega) ?_
  · split at hw
    · exact (h.jumpsOf ‹_› hw).1
    · cases hw
  · exact Nat.lt_succ_of_le (List.length_filter_le _ _)

/-- The loop that classifies the blocks of some definitions ends, and gives every block one owner: its
result holds the entrypoints, the blocks whose results are bound and the blocks that closures and
top-level definitions call, and at most one root leads to a block that is no root. -/
theorem ofDefns_classifies (h : Within p ids) : Classifies p ids (ofDefns p ids) where
  entry hid hd hb hentry := mem_ofDefns_of_entry hid hd hb hentry
  bound {id d k c} hid hd hb hc v hv := by
    refine required_subset hid ?_
    rw [Roots.required, hd]
    dsimp only
    rw [hb]
    dsimp only
    rw [hc]
    exact List.mem_append_right _ (List.mem_map_of_mem hv)
  called {id d t} hid hd ht v hv := by
    refine required_subset hid ?_
    rw [Roots.required, hd]
    dsimp only
    rcases ht with ⟨k, hk, rfl⟩ | ⟨l, hl, rfl⟩
    · rw [hk]
      exact List.mem_map_of_mem hv
    · rw [hl]
      exact List.mem_map_of_mem hv
  unique hb hr hr' hleads hleads' :=
    (closes_ofDefns h).unique hb hr hr' (h.leads (h.of_root hr).1 hleads).2
      (h.leads (h.of_root hr').1 hleads').2

end Programs

end Mil.Rtl.Roots
