import Mil.Proofs.Optimize.Duplicates

/-!
The table of duplicates, seen through the candidates that it gives for a fingerprint. They are what was
added under this fingerprint, in order, whatever else is in their bucket. The pass asks for nothing else, so
it does the same with every number of buckets.
-/

namespace Mil.Optimize

variable {p : Program} {s s' : Progress} {t t' u : MergeTable} {id : DefnId} {d : Defn} {f g : Fingerprint}
  {todo : List DefnId}

/-! ### Candidates -/

theorem size_new_pos (size : Int) : 0 < (MergeTable.new size).buckets.size := by
  rw [MergeTable.new, Array.size_replicate]
  omega

theorem size_insert (t : MergeTable) (g : Fingerprint) (id : DefnId) :
    (t.insert g id).buckets.size = t.buckets.size := Array.size_modify ..

theorem candidates_new (size : Int) (f : Fingerprint) : (MergeTable.new size).candidates f = [] :=
  List.eq_nil_iff_forall_not_mem.mpr fun _ hk => not_holds_new size (holds_of_mem_candidates hk)

/-- A definition that is added is found by its fingerprint, after all others. -/
theorem candidates_insert (ht : 0 < t.buckets.size) :
    (t.insert g id).candidates f = t.candidates f ++ if g = f then [id] else [] := by
  have hindex : (t.insert g id).index f = t.index f := by
    rw [MergeTable.index, MergeTable.index, size_insert]
  have hlt : t.index g < t.buckets.size := Nat.mod_lt _ ht
  rw [MergeTable.candidates, MergeTable.candidates, hindex, MergeTable.insert, Array.getElem?_modify]
  by_cases hgf : g = f
  · subst hgf
    rw [if_pos rfl, if_pos rfl, Array.getElem?_eq_getElem hlt, Option.map_some, Option.getD_some,
      Option.getD_some, List.filterMap_append]
    simp
  · rw [if_neg hgf, List.append_nil]
    split
    · -- The two fingerprints share a bucket, but the new entry is not one of the candidates.
      rename_i hsame
      rw [hsame] at hlt
      rw [Array.getElem?_eq_getElem hlt, Option.map_some, Option.getD_some, Option.getD_some,
        List.filterMap_append]
      simp [hgf]
    · rfl

/-! ### One step -/

theorem gives_definition {s s' : Progress} (h : Gives (PassM.definition id) s d s') :
    s.program.defns[id]? = some d ∧ s' = s := by
  obtain ⟨_, _, hget, hfound⟩ := gives_bind.mp h
  obtain ⟨rfl, rfl⟩ := gives_get.mp hget
  split at hfound
  · rename_i hd
    obtain ⟨rfl, rfl⟩ := gives_pure.mp hfound
    exact ⟨exists_of_defn hd, rfl⟩
  · exact absurd hfound not_gives_throw

/-- What a look at a definition comes to: the table and the progress after it. -/
inductive Looks (t : MergeTable) (s : Progress) (id : DefnId) (d : Defn) : MergeTable → Progress → Prop
  | passes (hf : Fingerprint.of? d.body = none) : Looks t s id d t s
  | merges {f : Fingerprint} {k : DefnId} (hf : Fingerprint.of? d.body = some f)
      (h : verdict s.program d (t.candidates f) = .merge k) :
      Looks t s id d t
        ⟨s.program.modify id fun d => { d with replacedBy := some k }, s.changes + 1⟩
  | staysOut {f : Fingerprint} (hf : Fingerprint.of? d.body = some f)
      (h : verdict s.program d (t.candidates f) = .keepOut) : Looks t s id d t s
  | enters {f : Fingerprint} (hf : Fingerprint.of? d.body = some f)
      (h : verdict s.program d (t.candidates f) = .enter) : Looks t s id d (t.insert f id) s

/-- The step does what a look at the definition at that position comes to, and nothing else. -/
theorem gives_mergeOne : Gives (mergeOne t id) s t' s' ↔
    ∃ d, s.program.defns[id]? = some d ∧ Looks t s id d t' s' := by
  unfold mergeOne
  constructor
  · intro h
    obtain ⟨_, _, hget, hlook⟩ := gives_bind.mp h
    obtain ⟨rfl, rfl⟩ := gives_get.mp hget
    obtain ⟨d, s₁, hdefn, hjudge⟩ := gives_bind.mp hlook
    obtain ⟨hd, rfl⟩ := gives_definition hdefn
    clear h hlook hget hdefn
    refine ⟨d, hd, ?_⟩
    split at hjudge
    · rename_i hf
      obtain ⟨rfl, rfl⟩ := gives_pure.mp hjudge
      exact .passes hf
    · rename_i f hf
      split at hjudge
      · rename_i k hverdict
        obtain ⟨_, s₂, hchanged, hrecord⟩ := gives_bind.mp hjudge
        have hcount : s₂ = { s₁ with changes := s₁.changes + 1 } := gives_modify.mp hchanged
        subst hcount
        cases hrecord
        exact .merges hf hverdict
      · rename_i hverdict
        obtain ⟨rfl, rfl⟩ := gives_pure.mp hjudge
        exact .staysOut hf hverdict
      · rename_i hverdict
        obtain ⟨rfl, rfl⟩ := gives_pure.mp hjudge
        exact .enters hf hverdict
  · rintro ⟨d, hd, h⟩
    refine gives_bind.mpr ⟨s, s, gives_get.mpr ⟨rfl, rfl⟩, ?_⟩
    obtain ⟨_, _, hdefn, rfl, rfl⟩ := gets_definition hd
    refine gives_bind.mpr ⟨_, _, hdefn, ?_⟩
    cases h with
    | passes hf =>
        rw [hf]
        exact gives_pure.mpr ⟨rfl, rfl⟩
    | merges hf h =>
        simp only [hf, h]
        rfl
    | staysOut hf h =>
        simp only [hf, h]
        exact gives_pure.mpr ⟨rfl, rfl⟩
    | enters hf h =>
        simp only [hf, h]
        exact gives_pure.mpr ⟨rfl, rfl⟩

/-- A look at a definition always comes to something. -/
theorem exists_looks (t : MergeTable) (s : Progress) (id : DefnId) (d : Defn) :
    ∃ t' s', Looks t s id d t' s' := by
  cases hf : Fingerprint.of? d.body with
  | none => exact ⟨t, s, .passes hf⟩
  | some f =>
      cases h : verdict s.program d (t.candidates f) with
      | merge k => exact ⟨t, _, .merges hf h⟩
      | keepOut => exact ⟨t, s, .staysOut hf h⟩
      | enter => exact ⟨t.insert f id, s, .enters hf h⟩

theorem Looks.size (h : Looks t s id d t' s') : s'.program.defns.size = s.program.defns.size := by
  cases h with
  | merges => exact Array.size_modify
  | _ => rfl

theorem Looks.changes_le (h : Looks t s id d t' s') : s.changes ≤ s'.changes := by
  cases h with
  | merges => exact Nat.le_succ _
  | _ => exact Nat.le_refl _

/-! ### The pass -/

/-- The pass looks at the definitions that can be reached, one after the other, and lets references follow
replacements if it has made any. -/
theorem mergeDuplicates_eq_ok {size : Int} {merged : Bool} {q : Program} :
    mergeDuplicates size p = .ok (merged, q) ↔
      ∃ t s, Gives (p.reachable.foldlM mergeOne (MergeTable.new size)) ⟨p, 0⟩ t s ∧
        merged = decide (0 < s.changes) ∧ q = if merged then s.program.redirect else s.program := by
  unfold mergeDuplicates
  constructor
  · intro h
    obtain ⟨⟨c, p'⟩, hrun, hreturn⟩ := Except.bind_eq_ok.mp h
    obtain ⟨⟨u, s⟩, hgives, heq⟩ := Except.map_eq_ok hrun
    obtain ⟨rfl, rfl⟩ := Prod.mk.inj heq
    obtain ⟨rfl, rfl⟩ := Prod.mk.inj (Except.ok.inj hreturn)
    have hpass : Gives (p.reachable.foldlM mergeOne (MergeTable.new size) >>= fun _ => pure ()) ⟨p, 0⟩ u s :=
      hgives
    obtain ⟨t, s₁, hfold, hdone⟩ := gives_bind.mp hpass
    obtain ⟨-, rfl⟩ := gives_pure.mp hdone
    exact ⟨t, s₁, hfold, rfl, rfl⟩
  · rintro ⟨t, s, hfold, rfl, rfl⟩
    have hpass : Gives (p.reachable.foldlM mergeOne (MergeTable.new size) >>= fun _ => pure ()) ⟨p, 0⟩ () s :=
      gives_bind.mpr ⟨t, s, hfold, gives_pure.mpr ⟨rfl, rfl⟩⟩
    refine Except.bind_eq_ok.mpr ⟨(decide (0 < s.changes), s.program), ?_, rfl⟩
    exact congrArg (Except.map _) hpass

theorem reachable_sorted (p : Program) : p.reachable.Pairwise (· < ·) :=
  List.Pairwise.filter _ List.pairwise_lt_range

/-- The pass goes through. -/
theorem exists_foldlM (hs : ∀ id ∈ todo, id < s.program.defns.size) :
    ∃ t' s', Gives (todo.foldlM mergeOne t) s t' s' := by
  induction todo generalizing t s with
  | nil => exact ⟨t, s, gives_pure.mpr ⟨rfl, rfl⟩⟩
  | cons id todo ih =>
      obtain ⟨d, hd⟩ : ∃ d, s.program.defns[id]? = some d :=
        ⟨_, Array.getElem?_eq_getElem (hs id (.head _))⟩
      obtain ⟨t₁, s₁, hlooks⟩ := exists_looks t s id d
      have hsize : s₁.program.defns.size = s.program.defns.size := hlooks.size
      obtain ⟨t', s', hrest⟩ := ih (t := t₁) (s := s₁) fun i hi => hsize ▸ hs i (.tail _ hi)
      rw [List.foldlM_cons]
      exact ⟨t', s', gives_bind.mpr ⟨t₁, s₁, gives_mergeOne.mpr ⟨d, hd, hlooks⟩, hrest⟩⟩

/-! ### Tables of different sizes -/

/-- Two tables give the same candidates. -/
structure MergeTable.Same (t u : MergeTable) : Prop where
  left : 0 < t.buckets.size
  right : 0 < u.buckets.size
  candidates : ∀ f, t.candidates f = u.candidates f

theorem same_new (m n : Int) : (MergeTable.new m).Same (MergeTable.new n) where
  left := size_new_pos m
  right := size_new_pos n
  candidates f := by rw [candidates_new, candidates_new]

theorem MergeTable.Same.insert (h : t.Same u) (g : Fingerprint) (id : DefnId) :
    (t.insert g id).Same (u.insert g id) where
  left := by
    rw [size_insert]
    exact h.left
  right := by
    rw [size_insert]
    exact h.right
  candidates f := by rw [candidates_insert h.left, candidates_insert h.right, h.candidates]

/-- With the same candidates, a look comes to the same. -/
theorem Looks.same (hlooks : Looks t s id d t' s') (h : t.Same u) :
    ∃ u', Looks u s id d u' s' ∧ t'.Same u' := by
  cases hlooks with
  | passes hf => exact ⟨u, .passes hf, h⟩
  | merges hf hverdict => exact ⟨u, .merges hf (h.candidates _ ▸ hverdict), h⟩
  | staysOut hf hverdict => exact ⟨u, .staysOut hf (h.candidates _ ▸ hverdict), h⟩
  | enters hf hverdict => exact ⟨u.insert _ id, .enters hf (h.candidates _ ▸ hverdict), h.insert _ id⟩

theorem foldlM_same (hfold : Gives (todo.foldlM mergeOne t) s t' s') (h : t.Same u) :
    ∃ u', Gives (todo.foldlM mergeOne u) s u' s' ∧ t'.Same u' := by
  induction todo generalizing t u s with
  | nil =>
      obtain ⟨rfl, rfl⟩ := gives_pure.mp hfold
      exact ⟨u, gives_pure.mpr ⟨rfl, rfl⟩, h⟩
  | cons id todo ih =>
      rw [List.foldlM_cons] at hfold
      obtain ⟨t₁, s₁, hstep, hrest⟩ := gives_bind.mp hfold
      obtain ⟨d, hd, hlooks⟩ := gives_mergeOne.mp hstep
      obtain ⟨u₁, hlooks', hsame⟩ := hlooks.same h
      obtain ⟨u', hrest', hsame'⟩ := ih hrest hsame
      rw [List.foldlM_cons]
      exact ⟨u', gives_bind.mpr ⟨u₁, s₁, gives_mergeOne.mpr ⟨d, hd, hlooks'⟩, hrest'⟩, hsame'⟩

/-- **The size of the table does not matter.** Merging of duplicates goes through for every program, and
with any two sizes it gives the same result and leaves the same program, replacements included. -/
theorem mergeDuplicates_anySize (p : Program) (m n : Int) :
    ∃ merged q, mergeDuplicates m p = .ok (merged, q) ∧ mergeDuplicates n p = .ok (merged, q) := by
  obtain ⟨t, s, hfold⟩ : ∃ t s, Gives (p.reachable.foldlM mergeOne (MergeTable.new m)) ⟨p, 0⟩ t s :=
    exists_foldlM fun _ hid => Program.lt_of_reachable hid
  obtain ⟨u, hfold', -⟩ := foldlM_same hfold (same_new m n)
  exact ⟨_, _, mergeDuplicates_eq_ok.mpr ⟨t, s, hfold, rfl, rfl⟩,
    mergeDuplicates_eq_ok.mpr ⟨u, s, hfold', rfl, rfl⟩⟩

end Mil.Optimize

/-!
Duplicates that merging leaves. Equivalent definitions have one summary, so every definition that the pass
has kept is found again in its bucket. What escapes the pass are duplicates of an entrypoint that is not in
the table, since a definition before it has the same code; they are left if that one, with which they are
compared instead, does not fit their declared type.
-/

namespace Mil.Optimize

variable {p s : Program} {t t' : MergeTable} {id k : DefnId} {d : Defn} {f g : Fingerprint}
  {done todo cands : List DefnId}

/-- Equivalent definitions with the same numbers of parameters and arguments have one fingerprint. -/
theorem fingerprint_eq {a b : DefnBody} (h : a.AlphaEq b) (hf : Fingerprint.of? a = some f)
    (hg : Fingerprint.of? b = some g) (hparams : f.params = g.params) (hargs : f.args = g.args) : f = g := by
  have hsum : f.sum = g.sum := by
    cases h with
    | block _ hc hd hcode =>
        rw [Fingerprint.of?] at hf hg
        split at hf
        · cases hf
        split at hg
        · cases hg
        cases hf
        cases hg
        rw [hc, hd]
        exact hcode.summary _
    | closure _ ht hu htail =>
        rw [Fingerprint.of?] at hf hg
        split at hf
        · cases hf
        split at hg
        · cases hg
        cases hf
        cases hg
        rw [ht, hu]
        exact htail.summary _
  cases f
  cases g
  cases hsum
  cases hparams
  cases hargs
  rfl

/-! ### Verdicts -/

theorem verdict_keepOut (h : verdict p d cands = .keepOut) : d.entry = true ∧
    ∃ k ∈ cands, ∃ c, p.defns[k]? = some c ∧ c.body.sameCode d.body = true := by
  induction cands with
  | nil => cases h
  | cons k cands ih =>
      have hrest (h : verdict p d cands = .keepOut) := (ih h).imp_right
        fun ⟨i, hi, hsame⟩ => (⟨i, .tail k hi, hsame⟩ : ∃ i ∈ k :: cands, ∃ c, p.defns[i]? = some c ∧
          c.body.sameCode d.body = true)
      rw [verdict] at h
      split at h
      · exact hrest h
      · rename_i c hc
        split at h
        · exact hrest h
        · rename_i hsame
          split at h
          · rename_i hentry
            exact ⟨hentry, k, .head _, c, hc, by simpa using hsame⟩
          · split at h
            · cases h
            · exact hrest h

/-- What enters the table has the code of no candidate whose declared type it fits. -/
theorem verdict_enter (h : verdict p d cands = .enter) {c : Defn} (hk : k ∈ cands)
    (hc : p.defns[k]? = some c) (hsame : c.body.sameCode d.body = true) :
    c.body.fitsType p.store d.body = false := by
  induction cands with
  | nil => cases hk
  | cons i cands ih =>
      rw [verdict] at h
      rcases List.mem_cons.mp hk with rfl | hk
      · rw [hc] at h
        dsimp only at h
        rw [if_neg (by simp [hsame])] at h
        split at h
        · cases h
        · split at h
          · cases h
          · rename_i hfits
            exact Bool.eq_false_iff.mpr hfits
      · split at h
        · exact ih h hk
        · split at h
          · exact ih h hk
          · split at h
            · cases h
            · split at h
              · cases h
              · exact ih h hk

/-! ### What a pass knows that merges nothing -/

/-- The definition can be merged into, or is an entrypoint whose code a definition before it has. -/
def Represented (p : Program) (t : MergeTable) (f : Fingerprint) (i : DefnId) (d : Defn) : Prop :=
  i ∈ t.candidates f ∨ d.entry = true ∧
    ∃ k ∈ t.candidates f, k < i ∧ ∃ c, p.defns[k]? = some c ∧ c.body.sameCode d.body = true

/-- The definitions that were looked at, none of which was merged. -/
structure Searched (p : Program) (done : List DefnId) (t : MergeTable) : Prop where
  size : 0 < t.buckets.size
  held : ∀ {g : Fingerprint} {k : DefnId}, k ∈ t.candidates g → k ∈ done ∧
    ∃ c, p.defns[k]? = some c ∧ Fingerprint.of? c.body = some g
  represented : ∀ {i : DefnId} {d : Defn} {f : Fingerprint}, i ∈ done → p.defns[i]? = some d →
    Fingerprint.of? d.body = some f → Represented p t f i d
  apart : ∀ {j : DefnId} {e : Defn} {g : Fingerprint}, j ∈ done → p.defns[j]? = some e →
    Fingerprint.of? e.body = some g → e.entry = false → ∀ k ∈ t.candidates g, k < j →
      ∀ c, p.defns[k]? = some c → c.body.sameCode e.body = true → c.body.fitsType p.store e.body = false

theorem searched_start (p : Program) (size : Int) : Searched p [] (MergeTable.new size) where
  size := size_new_pos size
  held h := absurd (holds_of_mem_candidates h) (not_holds_new size)
  represented h := absurd h List.not_mem_nil
  apart h := absurd h List.not_mem_nil

/-- A definition that does not enter the table is no block or closure, or is kept out. -/
theorem Searched.skip (h : Searched p done t) (hd : p.defns[id]? = some d)
    (hlt : ∀ i ∈ done, i < id)
    (hout : ∀ f, Fingerprint.of? d.body = some f → verdict p d (t.candidates f) = .keepOut) :
    Searched p (done ++ [id]) t where
  size := h.size
  held hk := (h.held hk).imp_left (List.mem_append_left _)
  represented {i d' f} hi hd' hf := by
    rcases List.mem_append.mp hi with hi | hi
    · exact h.represented hi hd' hf
    · obtain rfl := List.mem_singleton.mp hi
      cases hd.symm.trans hd'
      obtain ⟨hentry, k, hk, hsame⟩ := verdict_keepOut (hout f hf)
      exact .inr ⟨hentry, k, hk, hlt k (h.held hk).1, hsame⟩
  apart {j e g} hj he hg hentry := by
    rcases List.mem_append.mp hj with hj | hj
    · exact h.apart hj he hg hentry
    · obtain rfl := List.mem_singleton.mp hj
      cases hd.symm.trans he
      rw [(verdict_keepOut (hout g hg)).1] at hentry
      cases hentry

theorem Represented.insert (h : Represented p t f k d) (ht : 0 < t.buckets.size) (g : Fingerprint)
    (id : DefnId) : Represented p (t.insert g id) f k d := by
  have hmem {i : DefnId} (hi : i ∈ t.candidates f) : i ∈ (t.insert g id).candidates f := by
    rw [candidates_insert ht]
    exact List.mem_append_left _ hi
  rcases h with h | ⟨hentry, i, hi, hrest⟩
  · exact .inl (hmem h)
  · exact .inr ⟨hentry, i, hmem hi, hrest⟩

theorem mem_candidates_insert (ht : 0 < t.buckets.size) (h : k ∈ (t.insert g id).candidates f) :
    k ∈ t.candidates f ∨ g = f ∧ k = id := by
  rw [candidates_insert ht] at h
  rcases List.mem_append.mp h with h | h
  · exact .inl h
  · split at h
    · exact .inr ⟨‹_›, List.mem_singleton.mp h⟩
    · cases h

/-- A definition that enters the table fits no candidate's declared type. -/
theorem Searched.enter (h : Searched p done t) (hd : p.defns[id]? = some d) (hlt : ∀ i ∈ done, i < id)
    (hf : Fingerprint.of? d.body = some f) (hin : verdict p d (t.candidates f) = .enter) :
    Searched p (done ++ [id]) (t.insert f id) where
  size := by
    rw [size_insert]
    exact h.size
  held hk := by
    rcases mem_candidates_insert h.size hk with hk | ⟨rfl, rfl⟩
    · exact (h.held hk).imp_left (List.mem_append_left _)
    · exact ⟨List.mem_append_right _ (.head _), d, hd, hf⟩
  represented {i d' f'} hi hd' hf' := by
    rcases List.mem_append.mp hi with hi | hi
    · exact (h.represented hi hd' hf').insert h.size _ _
    · obtain rfl := List.mem_singleton.mp hi
      cases hd.symm.trans hd'
      cases hf.symm.trans hf'
      rw [Represented, candidates_insert h.size, if_pos rfl]
      exact .inl (List.mem_append_right _ (.head _))
  apart {j e g} hj he hg hentry k hk hkj c hc hsame := by
    rcases List.mem_append.mp hj with hbefore | hnew
    · rcases mem_candidates_insert h.size hk with hk | ⟨-, rfl⟩
      · exact h.apart hbefore he hg hentry k hk hkj c hc hsame
      · exact absurd (hlt j hbefore) (Nat.lt_asymm hkj)
    · obtain rfl := List.mem_singleton.mp hnew
      cases hd.symm.trans he
      cases hf.symm.trans hg
      rcases mem_candidates_insert h.size hk with hk | ⟨-, rfl⟩
      · exact verdict_enter hin hk hc hsame
      · exact absurd hkj (Nat.lt_irrefl _)

/-! ### A pass that merges nothing -/

/-- One step keeps what is known, unless it counts a merge. -/
theorem searched_mergeOne {s s' : Progress} (h : Gives (mergeOne t id) s t' s')
    (hs : Searched s.program done t) (hlt : ∀ i ∈ done, i < id) :
    s.changes < s'.changes ∨ s' = s ∧ Searched s.program (done ++ [id]) t' := by
  obtain ⟨d, hd, hlooks⟩ := gives_mergeOne.mp h
  cases hlooks with
  | passes hf =>
      refine .inr ⟨rfl, hs.skip hd hlt fun f hf' => ?_⟩
      rw [hf] at hf'
      cases hf'
  | merges => exact .inl (Nat.lt_succ_self _)
  | staysOut hf hverdict =>
      refine .inr ⟨rfl, hs.skip hd hlt fun f hf' => ?_⟩
      cases hf.symm.trans hf'
      exact hverdict
  | enters hf hverdict => exact .inr ⟨rfl, hs.enter hd hlt hf hverdict⟩

theorem changes_foldlM {s s' : Progress} (h : Gives (todo.foldlM mergeOne t) s t' s') :
    s.changes ≤ s'.changes := by
  induction todo generalizing t s with
  | nil =>
      obtain ⟨rfl, rfl⟩ := gives_pure.mp h
      exact Nat.le_refl _
  | cons id todo ih =>
      rw [List.foldlM_cons] at h
      obtain ⟨t₁, s₁, hstep, hrest⟩ := gives_bind.mp h
      obtain ⟨d, -, hlooks⟩ := gives_mergeOne.mp hstep
      exact hlooks.changes_le.trans (ih hrest)

/-- If nothing was merged, the program is as it was, and every definition has been looked at. -/
theorem searched_foldlM {s s' : Progress} (h : Gives (todo.foldlM mergeOne t) s t' s')
    (hsorted : (done ++ todo).Pairwise (· < ·)) (hs : Searched s.program done t) :
    s.changes < s'.changes ∨ s' = s ∧ Searched s.program (done ++ todo) t' := by
  induction todo generalizing done t s with
  | nil =>
      obtain ⟨rfl, rfl⟩ := gives_pure.mp h
      rw [List.append_nil]
      exact .inr ⟨rfl, hs⟩
  | cons id todo ih =>
      rw [List.foldlM_cons] at h
      obtain ⟨t₁, s₁, hstep, hrest⟩ := gives_bind.mp h
      have hlt : ∀ i ∈ done, i < id := fun i hi =>
        (List.pairwise_append.mp hsorted).2.2 i hi id (.head _)
      rcases searched_mergeOne hstep hs hlt with hmerged | ⟨rfl, hs₁⟩
      · exact .inl (Nat.lt_of_lt_of_le hmerged (changes_foldlM hrest))
      · have hsplit : done ++ id :: todo = done ++ [id] ++ todo := by simp
        rw [hsplit] at hsorted ⊢
        exact ih hrest hsorted hs₁

/-- If the pass merges nothing, it leaves the program alone, and knows all definitions that can be
reached. -/
theorem exists_searched {size : Int} {q : Program} (h : mergeDuplicates size p = .ok (false, q)) :
    q = p ∧ ∃ t, Searched p p.reachable t := by
  obtain ⟨t, s, hfold, hnone, rfl⟩ := mergeDuplicates_eq_ok.mp h
  rcases searched_foldlM hfold (reachable_sorted p) (searched_start p size) with hmerged | ⟨rfl, hs⟩
  · exact absurd hmerged (of_decide_eq_false hnone.symm)
  · exact ⟨rfl, t, hs⟩

/-- **Duplicates that are left.** If merging of duplicates finds none, in a program whose definitions bind
no temporary twice, let two definitions that can be reached be equivalent, with the same numbers of
parameters and arguments and with declared types that would let the second be merged into the first, which
comes before it; and let the second be no entrypoint. Then the first is an entrypoint and is equivalent to
a definition before it, whose declared type the second does not fit. -/
theorem mergeDuplicates_left (hp : p.Distinguishes)
    (hbinds : ∀ {id : DefnId} {d : Defn}, p.defns[id]? = some d → d.body.BindsOnce) {size : Int}
    {q : Program} (h : mergeDuplicates size p = .ok (false, q)) {i j : DefnId} {d e : Defn} (hij : i < j)
    (hi : i ∈ p.reachable) (hj : j ∈ p.reachable) (hd : p.defns[i]? = some d) (he : p.defns[j]? = some e)
    (hf : Fingerprint.of? d.body = some f) (hg : Fingerprint.of? e.body = some g)
    (hparams : f.params = g.params) (hargs : f.args = g.args) (halpha : d.body.AlphaEq e.body)
    (hfits : d.body.fitsType p.store e.body = true) (hentry : e.entry = false) :
    d.entry = true ∧ ∃ k c, k < i ∧ k ∈ p.reachable ∧ p.defns[k]? = some c ∧
      Fingerprint.of? c.body = some f ∧ c.body.AlphaEq d.body ∧
      c.body.fitsType p.store e.body = false := by
  obtain ⟨rfl, t, hs⟩ := exists_searched h
  obtain rfl : f = g := fingerprint_eq halpha hf hg hparams hargs
  have hsame {i j : DefnId} {d e : Defn} (hd : q.defns[i]? = some d) (he : q.defns[j]? = some e) :
      d.body.sameCode e.body = true ↔ d.body.AlphaEq e.body :=
    DefnBody.sameCode_iff (hbinds hd) (hbinds he) (hp hd he)
  rcases hs.represented hi hd hf with hmem | ⟨hentry', k, hk, hki, c, hc, hcd⟩
  · -- the second would have been merged
    have hnot := hs.apart hj he hg hentry i hmem hij d hd ((hsame hd he).mpr halpha)
    rw [hfits] at hnot
    cases hnot
  · have hcd' : c.body.AlphaEq d.body := (hsame hc hd).mp hcd
    have hce : c.body.sameCode e.body = true := (hsame hc he).mpr (hcd'.trans halpha)
    obtain ⟨hreach, c', hc', hfc⟩ := hs.held hk
    cases hc.symm.trans hc'
    exact ⟨hentry', k, c, hki, hreach, hc, hfc, hcd',
      hs.apart hj he hg hentry k hk (hki.trans hij) c hc hce⟩

/-- A block that returns its parameter, of the declared type. -/
def returning (t : Ty) (x : Temp) : DefnBody :=
  .block { Block.new [x] (some (.done (.ret [.temp x]))) with declared := some (.ofLists [t] [t]) }

/-- A program with three blocks that return their parameter: one for words, and two for flags, the first
of which is an entrypoint. -/
def identities : Program :=
  { Program.empty with
    defns := #[
      .new "idWord" .unknown (returning .word 0),
      { Defn.new "idFlag" .unknown (returning .flag 1) with entry := true },
      .new "again" .unknown (returning .flag 2),
      { Defn.new "main" .unknown (.block (.new [3, 4] (some (.bind [5] (.call ⟨0, [.temp 3], none⟩)
          (.bind [6] (.call ⟨2, [.temp 4], none⟩) (.done (.ret [.temp 5, .temp 6]))))))) with entry := true }]
    entries := [1, 3] }

/-- Does the pass find nothing to merge? -/
def findsNone (size : Int) (p : Program) : Bool :=
  match mergeDuplicates size p with
  | .ok (merged, _) => !merged
  | .error _ => false

theorem identities_defns {d : Defn} (hd : identities.defns[id]? = some d) :
    d.body.BindsOnce ∧ d.body.prims = [] ∧ d.body.cfuns = [] := by
  match id with
  | 0 | 1 | 2 | 3 =>
      cases hd
      exact ⟨by decide, rfl, rfl⟩
  | id + 4 => cases hd

theorem identities_distinguishes : identities.Distinguishes := by
  intro i j d e hd he
  rw [(identities_defns hd).2.1, (identities_defns hd).2.2]
  exact ⟨List.forall_mem_nil _, List.forall_mem_nil _⟩

theorem mergeDuplicates_identities : mergeDuplicates 16 identities = .ok (false, identities) := by
  have hfinds : findsNone 16 identities = true := by decide +kernel
  unfold findsNone at hfinds
  split at hfinds
  · rename_i merged q hmerge
    obtain rfl : merged = false := by simpa using hfinds
    rw [(exists_searched hmerge).1] at hmerge
    exact hmerge
  · cases hfinds

theorem returning_alphaEq (t : Ty) (x y : Temp) : (returning t x).AlphaEq (returning t y) :=
  .block rfl rfl rfl (.done (.ret (.cons (.temp (.inl ⟨rfl, rfl⟩)) .nil)))

/-- The blocks for flags are not merged: the first is kept out of the table because of the one for words,
and with that one the second is compared. -/
theorem mergeDuplicates_misses : mergeDuplicates 16 identities = .ok (false, identities) ∧
    ∃ d e : Defn, identities.defns[1]? = some d ∧ identities.defns[2]? = some e ∧
      1 ∈ identities.reachable ∧ 2 ∈ identities.reachable ∧
      Fingerprint.of? d.body = Fingerprint.of? e.body ∧ d.body.AlphaEq e.body ∧
      d.body.fitsType identities.store e.body = true ∧ e.entry = false := by
  have hreach : 1 ∈ identities.reachable ∧ 2 ∈ identities.reachable := by decide +kernel
  exact ⟨mergeDuplicates_identities, _, _, rfl, rfl, hreach.1, hreach.2, rfl, returning_alphaEq _ _ _,
    rfl, rfl⟩

/-- The block that keeps them apart is the one for words. -/
theorem mergeDuplicates_left_flag : ∃ d e : Defn, identities.defns[1]? = some d ∧
    identities.defns[2]? = some e ∧ e.entry = false ∧ d.body.fitsType identities.store e.body = true ∧
    d.entry = true ∧ ∃ k c, k < 1 ∧ k ∈ identities.reachable ∧ identities.defns[k]? = some c ∧
      c.body.AlphaEq d.body ∧ c.body.fitsType identities.store e.body = false := by
  have hreach : 1 ∈ identities.reachable ∧ 2 ∈ identities.reachable := by decide +kernel
  obtain ⟨hentry, k, c, hk, hmem, hc, -, halpha, hfits⟩ :=
    mergeDuplicates_left identities_distinguishes (fun hd => (identities_defns hd).1)
      mergeDuplicates_identities (i := 1) (j := 2) (by decide) hreach.1 hreach.2 rfl rfl rfl rfl rfl rfl
      (returning_alphaEq _ _ _) rfl rfl
  exact ⟨_, _, rfl, rfl, rfl, rfl, hentry, k, c, hk, hmem, hc, halpha, hfits⟩

end Mil.Optimize
