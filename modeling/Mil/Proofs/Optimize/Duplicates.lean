import Mil.Proofs.Machine.Safety
import Mil.Proofs.Optimize.Alpha
import Mil.Proofs.Optimize.Pass

/-!
Merging of duplicates preserves behaviour. A definition is merged only into one with the same code that
is in the table, and one that is in the table is not merged any more, so replacements are one step long.
The program and what the pass makes of it are twins: runs take the same steps on both, print the same
words and leave the same memory.
-/

namespace Mil

/-- Primitives of a program are told apart by their numbers, and constructors by their names. -/
def Program.Distinguishes (p : Program) : Prop :=
  ∀ {i j : DefnId} {d e : Defn}, p.defns[i]? = some d → p.defns[j]? = some e →
    Mil.Distinguishes d.body.prims e.body.prims d.body.cfuns e.body.cfuns

/-! ### Programs with known primitives and constructors -/

theorem Tail.Named.prim {E : Env} {T : PrimTable} {t : Tail} (h : t.Named E T) :
    ∀ f ∈ t.prim?.toList, T.prims[f.index]? = some f := by
  cases t with
  | prim f as inst => exact fun g hg => List.mem_singleton.mp hg ▸ h.2
  | _ => exact List.forall_mem_nil _

theorem Tail.Named.cfun {E : Env} {T : PrimTable} {t : Tail} (h : t.Named E T) :
    ∀ k ∈ t.cfun?.toList, E.cfun? k.name = some k := by
  cases t with
  | data k as inst => exact fun l hl => List.mem_singleton.mp hl ▸ h
  | sel k field a inst => exact fun l hl => List.mem_singleton.mp hl ▸ h
  | _ => exact List.forall_mem_nil _

theorem Code.Formed.known {E : Env} {T : PrimTable} {scope : List Temp} {c : Code}
    (h : c.Formed E T scope) :
    (∀ f ∈ c.prims, T.prims[f.index]? = some f) ∧ ∀ k ∈ c.cfuns, E.cfun? k.name = some k := by
  induction c generalizing scope with
  | bind vars t next ih =>
      exact ⟨List.forall_mem_append.mpr ⟨h.1.named.prim, (ih h.2).1⟩,
        List.forall_mem_append.mpr ⟨h.1.named.cfun, (ih h.2).2⟩⟩
  | done t => exact ⟨h.named.prim, h.named.cfun⟩
  | branch => exact ⟨List.forall_mem_nil _, List.forall_mem_nil _⟩
  | case a alts default => exact ⟨List.forall_mem_nil _, List.forall_mem_map.mpr h.2⟩

theorem DefnBody.Formed.known {E : Env} {T : PrimTable} {b : DefnBody} (h : b.Formed E T) :
    (∀ f ∈ b.prims, T.prims[f.index]? = some f) ∧ ∀ k ∈ b.cfuns, E.cfun? k.name = some k := by
  cases b with
  | block b =>
      rw [DefnBody.prims, DefnBody.cfuns]
      cases hc : b.body with
      | none => exact ⟨List.forall_mem_nil _, List.forall_mem_nil _⟩
      | some c => exact (h c hc).known
  | closure k =>
      rw [DefnBody.prims, DefnBody.cfuns]
      cases ht : k.tail with
      | none => exact ⟨List.forall_mem_nil _, List.forall_mem_nil _⟩
      | some t => exact ⟨(h t ht).named.prim, (h t ht).named.cfun⟩
  | top l =>
      rw [DefnBody.prims, DefnBody.cfuns]
      cases ht : l.tail with
      | none => exact ⟨List.forall_mem_nil _, List.forall_mem_nil _⟩
      | some t => exact ⟨(h t ht).named.prim, (h t ht).named.cfun⟩
  | external e => exact ⟨List.forall_mem_nil _, List.forall_mem_nil _⟩

/-- A program whose definitions are formed tells its primitives and constructors apart. -/
theorem Program.distinguishes_of_formed {p : Program} {E : Env} {T : PrimTable}
    (h : ∀ {id : DefnId} {d : Defn}, p.defns[id]? = some d → d.body.Formed E T) : p.Distinguishes := by
  intro i j d e hd he
  obtain ⟨hprims, hcfuns⟩ := (h hd).known
  obtain ⟨hprims', hcfuns'⟩ := (h he).known
  refine ⟨fun f hf g hg heq => ?_, fun k hk l hl heq => ?_⟩
  · have hindex : f.index = g.index := eq_of_beq heq
    have hf := hprims f hf
    rw [hindex, hprims' g hg] at hf
    exact (Option.some.inj hf).symm
  · have hname : k.name = l.name := eq_of_beq heq
    have hk := hcfuns k hk
    rw [hname, hcfuns' l hl] at hk
    exact (Option.some.inj hk).symm

namespace Optimize

open Machine

variable {p s : Program} {t : MergeTable} {todo : List DefnId} {id k : DefnId} {d : Defn} {g : Fingerprint}

/-! ### The table -/

/-- The definition is in the table, with the fingerprint. -/
def MergeTable.Holds (t : MergeTable) (g : Fingerprint) (k : DefnId) : Prop :=
  ∃ i : Nat, (g, k) ∈ (t.buckets[i]?).getD []

theorem not_holds_new (size : Int) : ¬ (MergeTable.new size).Holds g k := by
  rintro ⟨i, h⟩
  rw [MergeTable.new, Array.getElem?_replicate] at h
  split at h <;> cases h

theorem holds_of_mem_candidates (h : k ∈ t.candidates g) : t.Holds g k := by
  obtain ⟨⟨g', k'⟩, hmem, hif⟩ := List.mem_filterMap.mp h
  dsimp only at hif
  split at hif
  · rename_i hg
    cases hif
    exact ⟨_, hg ▸ hmem⟩
  · cases hif

theorem holds_insert {g' : Fingerprint} (h : (t.insert g' id).Holds g k) :
    t.Holds g k ∨ (g = g' ∧ k = id) := by
  obtain ⟨i, h⟩ := h
  rw [MergeTable.insert, Array.getElem?_modify] at h
  split at h
  · cases hb : t.buckets[i]? with
    | none =>
        rw [hb] at h
        cases h
    | some b =>
        rw [hb] at h
        rcases List.mem_append.mp h with h | h
        · exact .inl ⟨i, by rw [hb]; exact h⟩
        · cases List.mem_singleton.mp h
          exact .inr ⟨rfl, rfl⟩
  · exact .inl ⟨i, h⟩

theorem MergeTable.Holds.insert (h : t.Holds g k) (g' : Fingerprint) (id : DefnId) :
    (t.insert g' id).Holds g k := by
  obtain ⟨i, h⟩ := h
  refine ⟨i, ?_⟩
  rw [MergeTable.insert, Array.getElem?_modify]
  split
  · cases hb : t.buckets[i]? with
    | none =>
        rw [hb] at h
        cases h
    | some b =>
        rw [hb] at h
        exact List.mem_append_left _ h
  · exact h

/-! ### What the pass records -/

/-- The definition at the place has the same code, and the other one is no entrypoint. -/
structure Stands (p : Program) (k : DefnId) (d : Defn) : Prop where
  entry : d.entry = false
  same : ∃ e, p.defns[k]? = some e ∧ e.body.sameCode d.body = true ∧
    e.body.params.length = d.body.params.length

/-- How far the pass has come: the definitions that are left to look at, the table and the program. -/
structure Merging (p : Program) (todo : List DefnId) (t : MergeTable) (s : Program) : Prop where
  nodup : todo.Nodup
  reach : ∀ id ∈ todo, id ∈ p.reachable
  size : s.defns.size = p.defns.size
  entries : s.entries = p.entries
  defns : ∀ {id : DefnId} {d : Defn}, s.defns[id]? = some d →
    ∃ e, p.defns[id]? = some e ∧ d = { e with replacedBy := d.replacedBy }
  marked : ∀ {id k : DefnId} {d : Defn}, s.defns[id]? = some d → d.replacedBy = some k →
    id ∉ todo ∧ Stands p k d ∧ ∃ g, t.Holds g k
  table : ∀ {g : Fingerprint} {k : DefnId}, t.Holds g k →
    k ∉ todo ∧ k ∈ p.reachable ∧
      ∃ d, s.defns[k]? = some d ∧ d.replacedBy = none ∧ Fingerprint.of? d.body = some g

theorem verdict_merge {cands : List DefnId} (h : verdict s d cands = .merge k) :
    k ∈ cands ∧ d.entry = false ∧ ∃ e, s.defns[k]? = some e ∧ e.body.sameCode d.body = true := by
  induction cands with
  | nil => cases h
  | cons c cands ih =>
      have hrest (h : verdict s d cands = .merge k) := (ih h).imp_left (List.mem_cons_of_mem c)
      rw [verdict] at h
      split at h
      · exact hrest h
      · rename_i e he
        split at h
        · exact hrest h
        · rename_i hsame
          split at h
          · cases h
          · rename_i hentry
            split at h
            · cases h
              exact ⟨.head _, by simpa using hentry, e, he, by simpa using hsame⟩
            · exact hrest h

theorem params_of_fingerprint {b : DefnBody} (h : Fingerprint.of? b = some g) :
    g.params = b.params.length := by
  cases b with
  | block b =>
      rw [Fingerprint.of?] at h
      split at h
      · cases h
      · rw [← Option.some.inj h]
        rfl
  | closure k =>
      rw [Fingerprint.of?] at h
      split at h
      · cases h
      · rw [← Option.some.inj h]
        rfl
  | _ => cases h

theorem merging_start (h : ∀ {id : DefnId} {d : Defn}, p.defns[id]? = some d → d.replacedBy = none)
    (size : Int) : Merging p p.reachable (MergeTable.new size) p where
  nodup := List.nodup_range.filter _
  reach _ hid := hid
  size := rfl
  entries := rfl
  defns {id d} hd := ⟨d, hd, rfl⟩
  marked hd hk := by
    rw [h hd] at hk
    cases hk
  table hg := absurd hg (not_holds_new size)

/-- A definition that is left as it is, and does not enter the table. -/
theorem Merging.pass (h : Merging p (id :: todo) t s) : Merging p todo t s where
  nodup := (List.nodup_cons.mp h.nodup).2
  reach i hi := h.reach i (.tail _ hi)
  size := h.size
  entries := h.entries
  defns := h.defns
  marked hd hk := by
    obtain ⟨hid, hrest⟩ := h.marked hd hk
    exact ⟨fun hmem => hid (.tail _ hmem), hrest⟩
  table hg := by
    obtain ⟨hk, hrest⟩ := h.table hg
    exact ⟨fun hmem => hk (.tail _ hmem), hrest⟩

/-- A definition that has not been looked at is not replaced. -/
theorem Merging.unmarked (h : Merging p (id :: todo) t s) (hd : s.defns[id]? = some d) :
    d.replacedBy = none := by
  cases hk : d.replacedBy with
  | none => rfl
  | some k => exact absurd (.head _) (h.marked hd hk).1

theorem Merging.enter (h : Merging p (id :: todo) t s) (hd : s.defns[id]? = some d)
    (hg : Fingerprint.of? d.body = some g) : Merging p todo (t.insert g id) s where
  nodup := h.pass.nodup
  reach := h.pass.reach
  size := h.size
  entries := h.entries
  defns := h.defns
  marked hd hk := by
    obtain ⟨hid, hstands, g', hg'⟩ := h.pass.marked hd hk
    exact ⟨hid, hstands, g', hg'.insert _ _⟩
  table hg' := by
    rcases holds_insert hg' with hg' | ⟨rfl, rfl⟩
    · exact h.pass.table hg'
    · exact ⟨(List.nodup_cons.mp h.nodup).1, h.reach _ (.head _), d, hd, h.unmarked hd, hg⟩

theorem getElem?_modify (s : Program) (id : DefnId) (f : Defn → Defn) (i : DefnId) :
    (s.modify id f).defns[i]? = if id = i then (s.defns[i]?).map f else s.defns[i]? :=
  Array.getElem?_modify

theorem Merging.merge (h : Merging p (id :: todo) t s) (hd : s.defns[id]? = some d)
    (hentry : d.entry = false) (hk : t.Holds g k) (hg : Fingerprint.of? d.body = some g) {e : Defn}
    (he : s.defns[k]? = some e) (hsame : e.body.sameCode d.body = true) :
    Merging p todo t (s.modify id fun d => { d with replacedBy := some k }) where
  nodup := h.pass.nodup
  reach := h.pass.reach
  size := by
    rw [← h.size]
    exact Array.size_modify
  entries := h.entries
  defns {i d'} hd' := by
    rw [getElem?_modify] at hd'
    split at hd'
    · rename_i hi
      subst hi
      rw [hd] at hd'
      cases hd'
      obtain ⟨d₀, hd₀, heq⟩ := h.defns hd
      exact ⟨d₀, hd₀, by rw [heq]⟩
    · exact h.defns hd'
  marked {i j d'} hd' hj := by
    rw [getElem?_modify] at hd'
    split at hd'
    · rename_i hi
      subst hi
      rw [hd] at hd'
      cases hd'
      cases hj
      refine ⟨(List.nodup_cons.mp h.nodup).1, ⟨hentry, ?_⟩, g, hk⟩
      obtain ⟨e', he', -, hge⟩ := (h.table hk).2.2
      rw [he] at he'
      cases he'
      obtain ⟨e₀, he₀, heq⟩ := h.defns he
      refine ⟨e₀, he₀, ?_⟩
      rw [heq] at hsame hge
      exact ⟨hsame, (params_of_fingerprint hge).symm.trans (params_of_fingerprint hg)⟩
    · exact h.pass.marked hd' hj
  table {g' j} hg' := by
    obtain ⟨hj, hreach, d', hd', hrest⟩ := h.table hg'
    have hne : id ≠ j := fun heq => hj (heq ▸ .head _)
    exact ⟨fun hmem => hj (.tail _ hmem), hreach, d', by rw [getElem?_modify, if_neg hne, hd'], hrest⟩

/-! ### The pass -/

theorem gets_foldlM {β γ : Type} {f : β → γ → PassM β} {as : List γ} {I : List γ → β → Progress → Prop}
    (hf : ∀ b a as s, I (a :: as) b s → Gets (f b a) s (I as)) {b : β} {s : Progress} (hs : I as b s) :
    Gets (as.foldlM f b) s (I []) := by
  induction as generalizing b s with
  | nil => exact .pure hs
  | cons a as ih => exact (hf b a as s hs).bind fun b' s' hs' => ih hs'

/-- One definition is looked at. -/
theorem gets_mergeOne {s : Progress} (h : Merging p (id :: todo) t s.program) :
    Gets (mergeOne t id) s fun t' s' => Merging p todo t' s'.program := by
  obtain ⟨d, hd⟩ : ∃ d, s.program.defns[id]? = some d :=
    ⟨_, Array.getElem?_eq_getElem (h.size ▸ Program.lt_of_reachable (h.reach id (.head _)))⟩
  unfold mergeOne
  refine Gets.bind (Q := fun a s' => a = s ∧ s' = s) ⟨s, s, gives_get.mpr ⟨rfl, rfl⟩, rfl, rfl⟩ ?_
  rintro _ _ ⟨rfl, rfl⟩
  refine (gets_definition hd).bind ?_
  rintro _ _ ⟨rfl, rfl⟩
  split
  · exact .pure h.pass
  · rename_i g hg
    split
    · rename_i k hverdict
      obtain ⟨hk, hentry, e, he, hsame⟩ := verdict_merge hverdict
      refine (gets_changed _).bind fun _ s₁ hs₁ => ?_
      refine (gets_onProgram _ s₁).mono fun t' s₂ hs₂ => ?_
      rw [hs₂.1, hs₂.2, hs₁]
      exact h.merge hd hentry (holds_of_mem_candidates hk) hg he hsame
    · exact .pure h.pass
    · exact .pure (h.enter hd hg)

theorem exists_merging (h : ∀ {id : DefnId} {d : Defn}, p.defns[id]? = some d → d.replacedBy = none)
    (size : Int) :
    ∃ merged t s, mergeDuplicates size p = .ok (merged, if merged then s.redirect else s) ∧
      Merging p [] t s := by
  have hfold : Gets (p.reachable.foldlM mergeOne (MergeTable.new size)) ⟨p, 0⟩ fun t s =>
      Merging p [] t s.program :=
    gets_foldlM (I := fun todo t s => Merging p todo t s.program)
      (fun _ _ _ _ hs => gets_mergeOne hs) (merging_start h size)
  have hrun : Gets (discard (p.reachable.foldlM mergeOne (MergeTable.new size))) ⟨p, 0⟩ fun _ s =>
      ∃ t, Merging p [] t s.program :=
    hfold.bind fun t s hs => .pure ⟨t, hs⟩
  obtain ⟨merged, s, hpass, t, hs⟩ := hrun.run
  refine ⟨merged, t, s.program, ?_, hs⟩
  unfold mergeDuplicates
  dsimp only
  rw [hpass]
  rfl

/-! ### What is kept -/

/-- A definition keeps its name, its position and its part as an entrypoint, and an entrypoint is not
replaced. -/
structure Kept (d d' : Defn) : Prop where
  name : d'.name = d.name
  pos : d'.pos = d.pos
  entry : d'.entry = d.entry
  unreplaced : d.entry = true → d'.replacedBy = none

theorem Merging.kept (h : Merging p todo t s) (id : DefnId) :
    Option.Rel Kept (p.defns[id]?) (s.defns[id]?) := by
  cases hd' : s.defns[id]? with
  | none =>
      rw [Array.getElem?_eq_none_iff, h.size, ← Array.getElem?_eq_none_iff] at hd'
      rw [hd']
      exact .none
  | some d' =>
      obtain ⟨d, hd, heq⟩ := h.defns hd'
      rw [hd]
      refine .some ⟨by rw [heq], by rw [heq], by rw [heq], fun hentry => ?_⟩
      cases hk : d'.replacedBy with
      | none => rfl
      | some k =>
          have hnot := (h.marked hd' hk).2.1.entry
          rw [heq, hentry] at hnot
          cases hnot

theorem Merging.kept_redirect (h : Merging p todo t s) (id : DefnId) :
    Option.Rel Kept (p.defns[id]?) (s.redirect.defns[id]?) := by
  have hkept := h.kept id
  rw [Program.redirect, Array.getElem?_map]
  generalize p.defns[id]? = x, s.defns[id]? = x' at hkept ⊢
  cases hkept with
  | none => exact .none
  | some hkept => exact .some ⟨hkept.name, hkept.pos, hkept.entry, hkept.unreplaced⟩

/-! ### Replacements -/

theorem resolveWith_of_none (h : (s.defns[id]?).bind Defn.replacedBy = none) (fuel : Nat) :
    s.resolveWith fuel id = id := by
  cases fuel with
  | zero => rfl
  | succ fuel => rw [Program.resolveWith, h]

theorem resolve_of_none (h : ∀ d, s.defns[id]? = some d → d.replacedBy = none) : s.resolve id = id := by
  refine resolveWith_of_none ?_ _
  cases hd : s.defns[id]? with
  | none => rfl
  | some d => exact h d hd

theorem Merging.exists_kept (h : Merging p todo t s) (hd : s.defns[id]? = some d)
    (hk : d.replacedBy = some k) : ∃ e, s.defns[k]? = some e ∧ e.replacedBy = none := by
  obtain ⟨-, -, g, hg⟩ := h.marked hd hk
  obtain ⟨-, -, e, he, hnone, -⟩ := h.table hg
  exact ⟨e, he, hnone⟩

/-- What stands for a definition is not replaced itself. -/
theorem Merging.ne_of_marked (h : Merging p todo t s) (hd : s.defns[id]? = some d)
    (hk : d.replacedBy = some k) : k ≠ id := by
  rintro rfl
  obtain ⟨e, he, hnone⟩ := h.exists_kept hd hk
  rw [hd] at he
  cases he
  rw [hk] at hnone
  cases hnone

theorem Merging.resolve_marked (h : Merging p todo t s) (hd : s.defns[id]? = some d)
    (hk : d.replacedBy = some k) : s.resolve id = k := by
  obtain ⟨e, he, hnone⟩ := h.exists_kept hd hk
  obtain ⟨n, hn⟩ : ∃ n, s.defns.size = n + 1 :=
    ⟨s.defns.size - 1, by have := (Array.getElem?_eq_some_iff.mp hd).1; omega⟩
  rw [Program.resolve, hn, Program.resolveWith, hd, Option.bind_some, hk]
  dsimp only
  rw [if_neg (h.ne_of_marked hd hk)]
  refine resolveWith_of_none ?_ n
  rw [he]
  exact hnone

/-- Replacements are one step long. -/
theorem Merging.resolve_resolve (h : Merging p todo t s) (id : DefnId) :
    s.resolve (s.resolve id) = s.resolve id := by
  by_cases hkept : ∀ d, s.defns[id]? = some d → d.replacedBy = none
  · rw [resolve_of_none hkept, resolve_of_none hkept]
  · push Not at hkept
    obtain ⟨d, hd, hmarked⟩ := hkept
    obtain ⟨k, hk⟩ := Option.ne_none_iff_exists'.mp hmarked
    obtain ⟨e, he, hnone⟩ := h.exists_kept hd hk
    rw [h.resolve_marked hd hk, resolve_of_none fun e' he' => ?_]
    rw [he] at he'
    cases he'
    exact hnone

theorem Merging.defns_eq_none (h : Merging p todo t s) : s.defns[id]? = none ↔ p.defns[id]? = none := by
  rw [Array.getElem?_eq_none_iff, Array.getElem?_eq_none_iff, h.size]

/-- What stands for a definition is the definition itself or has the same code. -/
theorem Merging.exists_standing (h : Merging p todo t s) (hd : p.defns[id]? = some d) :
    ∃ e e', p.defns[s.resolve id]? = some e ∧ s.defns[s.resolve id]? = some e' ∧ e'.body = e.body ∧
      (s.resolve id = id ∨ s.resolve id ≠ id ∧ d.entry = false ∧ e.body.sameCode d.body = true ∧
        e.body.params.length = d.body.params.length) := by
  obtain ⟨d', hd'⟩ : ∃ d', s.defns[id]? = some d' := by
    refine Option.ne_none_iff_exists'.mp fun hnone => ?_
    rw [h.defns_eq_none.mp hnone] at hd
    cases hd
  obtain ⟨d₀, hd₀, heq⟩ := h.defns hd'
  rw [hd] at hd₀
  cases hd₀
  cases hk : d'.replacedBy with
  | none =>
      have hid : s.resolve id = id := resolve_of_none fun e he => by
        rw [hd'] at he
        cases he
        exact hk
      rw [hid]
      exact ⟨d, d', hd, hd', by rw [heq], .inl rfl⟩
  | some k =>
      obtain ⟨-, ⟨hentry, e, he, hsame, hlen⟩, -⟩ := h.marked hd' hk
      obtain ⟨e', he', -⟩ := h.exists_kept hd' hk
      obtain ⟨e₀, he₀, heq'⟩ := h.defns he'
      rw [he] at he₀
      cases he₀
      rw [heq] at hentry hsame hlen
      rw [h.resolve_marked hd' hk]
      exact ⟨e, e', he, he', by rw [heq'], .inr ⟨h.ne_of_marked hd' hk, hentry, hsame, hlen⟩⟩

/-- What the pass leaves is a twin of the program, whether its references follow replacements or not. -/
theorem Merging.twins (h : Merging p [] t s) (hp : p.Distinguishes)
    (hwhole : ∀ {id : DefnId} {d : Defn}, p.defns[id]? = some d → d.replacedBy = none) {q : Program}
    (hresolve : ∀ i, q.resolve i = s.resolve i)
    (hkept : ∀ i : DefnId, Option.Rel Kept (p.defns[i]?) (q.defns[i]?))
    (hbody : ∀ {i : DefnId} {d : Defn}, s.defns[i]? = some d →
      ∃ d', q.defns[i]? = some d' ∧ ∀ b, BodyTwin p q b d.body → BodyTwin p q b d'.body) :
    Twins p q where
  whole := p.resolve_of_whole hwhole
  resolved i := by
    rw [hresolve, hresolve]
    exact h.resolve_resolve i
  defns i := by
    rw [hresolve]
    cases hd : p.defns[i]? with
    | none =>
        have hq := hkept i
        rw [hd] at hq
        rw [resolve_of_none (by simp [h.defns_eq_none.mpr hd])]
        generalize q.defns[i]? = x at hq ⊢
        cases hq
        exact .none
    | some d =>
        obtain ⟨e, e', he, he', hsame, hor⟩ := h.exists_standing hd
        obtain ⟨d', hd', htwin⟩ := hbody he'
        rw [hd']
        refine .some (htwin _ ?_)
        rw [hsame]
        rcases hor with heq | ⟨hne, -, hcode, hlen⟩
        · rw [heq, hd] at he
          cases he
          exact bodyTwin_self _
        · have hnames : ∀ y ∈ d.body.inputs ++ d.body.binders, ∀ x, Renamed p q y x :=
            fun y hy x => .inr ⟨i, d, hd, by rwa [hresolve], hy⟩
          exact bodyTwin_of_sameCode hnames hcode hlen (List.Subset.refl _) (hp he hd)
  pos {i d d'} hd hd' := by
    have hq := hkept i
    rw [hd, hd'] at hq
    cases hq with
    | some hkept => exact hkept.pos.symm
  tops {i d l} hd hl j hj := by
    rw [hresolve, hresolve] at hj
    -- nothing has the code of a top-level definition
    have hnot : ∀ b, (DefnBody.top l).sameCode b = false ∧ b.sameCode (.top l) = false := fun b => by
      cases b <;> exact ⟨rfl, rfl⟩
    have hi : s.resolve i = i := by
      obtain ⟨e, _, -, -, -, heq | ⟨-, -, hcode, -⟩⟩ := h.exists_standing hd
      · exact heq
      · rw [hl, (hnot _).2] at hcode
        cases hcode
    rw [hi] at hj
    cases hd' : p.defns[j]? with
    | none =>
        rw [resolve_of_none (by simp [h.defns_eq_none.mpr hd'])] at hj
        exact hj
    | some d' =>
        obtain ⟨e, _, he, -, -, heq | ⟨-, -, hcode, -⟩⟩ := h.exists_standing hd'
        · exact heq.symm.trans hj
        · rw [hj, hd] at he
          cases he
          rw [hl, (hnot _).1] at hcode
          cases hcode

theorem resolve_redirect (s : Program) (i : DefnId) : s.redirect.resolve i = s.resolve i := by
  have hmap : ∀ j : DefnId,
      (s.redirect.defns[j]?).bind Defn.replacedBy = (s.defns[j]?).bind Defn.replacedBy :=
    fun j => by
      rw [Program.redirect, Array.getElem?_map, Option.bind_map]
      rfl
  have hfuel : ∀ fuel i, s.redirect.resolveWith fuel i = s.resolveWith fuel i := by
    intro fuel
    induction fuel with
    | zero => exact fun i => rfl
    | succ fuel ih =>
        intro i
        rw [Program.resolveWith, Program.resolveWith, hmap]
        simp only [ih]
  rw [Program.resolve, Program.resolve, hfuel, Program.redirect, Array.size_map]

theorem Merging.twins_redirect (h : Merging p [] t s) (hp : p.Distinguishes)
    (hwhole : ∀ {id : DefnId} {d : Defn}, p.defns[id]? = some d → d.replacedBy = none) :
    Twins p s.redirect := by
  refine h.twins hp hwhole (resolve_redirect s) h.kept_redirect fun {i d} hd => ?_
  refine ⟨{ d with body := d.body.mapDefns s.resolve }, ?_, fun b hb => hb.mapDefns fun j => ?_⟩
  · rw [Program.redirect, Array.getElem?_map, hd]
    rfl
  · rw [Program.Joins, resolve_redirect, resolve_redirect]
    exact (h.resolve_resolve j).symm

theorem Merging.twins_self (h : Merging p [] t s) (hp : p.Distinguishes)
    (hwhole : ∀ {id : DefnId} {d : Defn}, p.defns[id]? = some d → d.replacedBy = none) : Twins p s :=
  h.twins hp hwhole (fun _ => rfl) h.kept fun {_ d} hd => ⟨d, hd, fun _ hb => hb⟩

/-- Merging of duplicates preserves behaviour, if nothing has been replaced before. It goes through and
replaces no entrypoint; and whatever is run on a fresh machine, with any fuel, it ends as it did: with
the same values, but for which of the merged definitions a closure is of, or with the same failure, but
for positions of merged definitions and for their names and numbers. It prints the same words, leaves
the same memory and takes as many steps. -/
theorem mergeDuplicates_run (hp : p.Distinguishes)
    (hwhole : ∀ {id : DefnId} {d : Defn}, p.defns[id]? = some d → d.replacedBy = none) (size : Int) :
    ∃ merged q, mergeDuplicates size p = .ok (merged, q) ∧
      (∀ id : DefnId, Option.Rel Kept (p.defns[id]?) (q.defns[id]?)) ∧
      ∀ (width fuel : Int) (id : DefnId) (args : List Value),
        EndTwin p q (run p (.new width fuel) id args).1 (run q (.new width fuel) id args).1 ∧
        (run q (.new width fuel) id args).2.printed = (run p (.new width fuel) id args).2.printed ∧
        (run q (.new width fuel) id args).2.memory = (run p (.new width fuel) id args).2.memory ∧
        (run q (.new width fuel) id args).2.steps = (run p (.new width fuel) id args).2.steps := by
  obtain ⟨merged, t, s, hmerge, hs⟩ := exists_merging hwhole size
  have hrun {q : Program} (hq : Twins p q) (width fuel : Int) (id : DefnId) (args : List Value) :
      EndTwin p q (run p (.new width fuel) id args).1 (run q (.new width fuel) id args).1 ∧
        MachineTwin p q (run p (.new width fuel) id args).2 (run q (.new width fuel) id args).2 :=
    run_twin hq ⟨.inl rfl, rfl, rfl, rfl, rfl, rfl, rfl, fun _ => .none⟩ id
      (valuesCopy_refl (S := q.Joins) (fun _ => rfl) args)
  cases merged with
  | false =>
      refine ⟨false, s, hmerge, hs.kept, fun width fuel id args => ?_⟩
      obtain ⟨hend, hm⟩ := hrun (hs.twins_self hp hwhole) width fuel id args
      exact ⟨hend, hm.printed, hm.memory, hm.steps⟩
  | true =>
      refine ⟨true, s.redirect, hmerge, hs.kept_redirect, fun width fuel id args => ?_⟩
      obtain ⟨hend, hm⟩ := hrun (hs.twins_redirect hp hwhole) width fuel id args
      exact ⟨hend, hm.printed, hm.memory, hm.steps⟩

/-- A body that returns a parameter plus one. -/
def plusOne (x y : Temp) : DefnBody :=
  .block (.new [x] (some (.bind [y] (.prim (.builtin .add) [.temp x, .word 1] none)
    (.done (.ret [.temp y])))))

/-- A program that adds one and one, each in a block of its own. -/
def plusTwo : Program :=
  { Program.empty with
    defns := #[
      { Defn.new "main" .unknown (.block (.new [0] (some (.bind [1] (.call ⟨1, [.temp 0], none⟩)
          (.done (.call ⟨2, [.temp 1], none⟩)))))) with entry := true },
      .new "f" .unknown (plusOne 2 3), .new "g" .unknown (plusOne 4 5)]
    entries := [0] }

/-- Does the pass find one definition to merge, so that the second one stands for the third? -/
def mergesThird : Bool :=
  match mergeDuplicates 16 plusTwo with
  | .ok (merged, q) => merged && q.resolve 2 == 1
  | .error _ => false

theorem plusOne_formed (x y : Temp) : (plusOne x y).Formed plusTwo.env plusTwo.prims := by
  rintro _ ⟨⟩
  refine ⟨⟨fun v hv => ?_, .inr ⟨rfl, rfl⟩, rfl⟩, fun v hv => ?_, trivial⟩
  · have hv : v = x := by simpa [Tail.atoms, Atom.word] using hv
    exact hv ▸ .head _
  · have hv : v = y := by simpa [Tail.atoms] using hv
    exact hv ▸ .head _

theorem plusTwo_defns {d : Defn} (hd : plusTwo.defns[id]? = some d) :
    d.replacedBy = none ∧ d.body.Formed plusTwo.env plusTwo.prims := by
  match id with
  | 0 =>
      cases hd
      refine ⟨rfl, ?_⟩
      rintro _ ⟨⟩
      refine ⟨⟨fun v hv => ?_, trivial⟩, fun v hv => ?_, trivial⟩
      · have hv : v = 0 := by simpa [Tail.atoms] using hv
        exact hv ▸ .head _
      · have hv : v = 1 := by simpa [Tail.atoms] using hv
        exact hv ▸ .head _
  | 1 =>
      cases hd
      exact ⟨rfl, plusOne_formed 2 3⟩
  | 2 =>
      cases hd
      exact ⟨rfl, plusOne_formed 4 5⟩
  | id + 3 => cases hd

theorem mergeDuplicates_run_plusTwo : ∃ q, mergeDuplicates 16 plusTwo = .ok (true, q) ∧ q.resolve 2 = 1 ∧
    (run plusTwo (.new 64 9) 0 [.word 3]).1 = .ok [.word 5] ∧
    EndTwin plusTwo q (.ok [.word 5]) (run q (.new 64 9) 0 [.word 3]).1 ∧
    (run q (.new 64 9) 0 [.word 3]).2.steps = 6 := by
  obtain ⟨merged, q, hmerge, -, hrun⟩ :=
    mergeDuplicates_run (Program.distinguishes_of_formed fun hd => (plusTwo_defns hd).2)
      (fun hd => (plusTwo_defns hd).1) 16
  have hfinds : mergesThird = true := by decide +kernel
  unfold mergesThird at hfinds
  rw [hmerge] at hfinds
  obtain ⟨rfl, hthird⟩ : merged = true ∧ q.resolve 2 = 1 := by simpa using hfinds
  have hbefore : (run plusTwo (.new 64 9) 0 [.word 3]).1 = .ok [.word 5] := by rfl
  obtain ⟨hend, -, -, hsteps⟩ := hrun 64 9 0 [.word 3]
  refine ⟨q, hmerge, hthird, hbefore, hbefore ▸ hend, hsteps.trans ?_⟩
  rfl

end Optimize

end Mil
