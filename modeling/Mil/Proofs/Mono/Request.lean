import Mil.Proofs.Mono.Track

/-!
Requests. Whatever is asked for, the answer serves it, and what specialisation keeps true stays true.
A definition that still quantifies something is as it was at the start, so the copies that are asked
for it are copies of the right thing.
-/

namespace Mil.Mono

section Steps

variable {s s' : State}

theorem run_eq_ok {α : Type} {x : MonoM α} {a : α} : x.run s = .ok (a, s') ↔ Yields x s a s' := by
  have hrun : x.run s = (x s).1.map fun a => (a, (x s).2) := rfl
  rw [hrun]
  unfold Yields
  rcases x s with ⟨e | b, s₁⟩
  · exact ⟨nofun, nofun⟩
  · exact ⟨fun h => by cases h; rfl, fun h => by cases h; rfl⟩

theorem exists_of_specialize {p q : Program} (h : p.specialize = .ok q) :
    ∃ s, Yields program (.start p) () s ∧ s.program = q := by
  obtain ⟨⟨⟨⟩, s⟩, hrun, hq⟩ := Except.map_eq_ok h
  exact ⟨s, run_eq_ok.mp hrun, hq⟩

theorem not_yields_broken {α : Type} {d : Defect} {a : α} : ¬ Yields (broken d) s a s' :=
  not_yields_throw

theorem yields_definition {id : DefnId} {d : Defn} (h : Yields (definition id) s d s') :
    s.program.defns[id]? = some d ∧ s' = s := by
  rw [definition, yields_bind] at h
  obtain ⟨q, s₁, hget, h⟩ := h
  obtain ⟨rfl, rfl⟩ := yields_get.mp hget
  unfold Program.defn at h
  cases hd : s₁.program.defns[id]? with
  | none =>
      rw [hd] at h
      exact absurd h not_yields_broken
  | some d' =>
      rw [hd] at h
      obtain ⟨rfl, rfl⟩ := yields_pure.mp h
      exact ⟨rfl, rfl⟩

theorem yields_store {st : Store} (h : Yields store s st s') : st = s.program.store ∧ s' = s := by
  rw [store, yields_bind] at h
  obtain ⟨q, s₁, hget, h⟩ := h
  obtain ⟨rfl, rfl⟩ := yields_get.mp hget
  obtain ⟨rfl, rfl⟩ := yields_pure.mp h
  exact ⟨rfl, rfl⟩

theorem yields_known? {k : CloneKey} {r : Option DefnId} (h : Yields (known? k) s r s') :
    r = s.clones.lookup k ∧ s' = s := by
  rw [known?, yields_bind] at h
  obtain ⟨q, s₁, hget, h⟩ := h
  obtain ⟨rfl, rfl⟩ := yields_get.mp hget
  obtain ⟨rfl, rfl⟩ := yields_pure.mp h
  exact ⟨rfl, rfl⟩

theorem yields_add {d : Defn} {id : DefnId} (h : Yields (add d) s id s') :
    id = s.program.defns.size ∧
      s' = { s with program := { s.program with defns := s.program.defns.push d } } := by
  rw [add, yields_bind] at h
  obtain ⟨q, s₁, hget, h⟩ := h
  obtain ⟨rfl, rfl⟩ := yields_get.mp hget
  rw [yields_bind] at h
  obtain ⟨_, s₂, hset, h⟩ := h
  obtain rfl := yields_set.mp hset
  obtain ⟨rfl, rfl⟩ := yields_pure.mp h
  exact ⟨rfl, rfl⟩

theorem yields_nextNumber {id : DefnId} {n : Nat} (h : Yields (nextNumber id) s n s') :
    ∃ counts, s' = { s with counts } := by
  rw [nextNumber, yields_bind] at h
  obtain ⟨q, s₁, hget, h⟩ := h
  obtain ⟨rfl, rfl⟩ := yields_get.mp hget
  rw [yields_bind] at h
  obtain ⟨_, s₂, hset, h⟩ := h
  obtain rfl := yields_modify.mp hset
  obtain ⟨rfl, rfl⟩ := yields_pure.mp h
  exact ⟨_, rfl⟩

theorem yields_specializing {vars : List Nat} {slots : Slots} {sub : TySubst}
    (h : Yields (specializing vars slots) s sub s') : s' = s := by
  rw [specializing, yields_bind] at h
  obtain ⟨st, s₁, hstore, h⟩ := h
  obtain ⟨rfl, rfl⟩ := yields_store hstore
  split at h
  · exact (yields_pure.mp h).2.symm
  · exact absurd h not_yields_broken

end Steps

section Requests

variable {p : Program} {extra : List Pending} {s s' : State} {id j : DefnId}

theorem mem_clones_of_lookup {k : CloneKey} (h : s.clones.lookup k = some j) :
    (k, j) ∈ s.clones := by
  obtain ⟨before, after, heq, -⟩ := List.lookup_eq_some_iff.mp h
  rw [heq]
  simp

theorem not_mem_clones_of_lookup {k : CloneKey} (h : s.clones.lookup k = none) :
    (k, j) ∉ s.clones := by
  intro hmem
  have hne := List.lookup_eq_none_iff.mp h (k, j) hmem
  simp at hne

/-- A definition is as it was at the start, or was filled in where it stands. -/
theorem Tracks.standing (h : Tracks p extra s) {d₀ d : Defn} (hd₀ : p.defns[id]? = some d₀)
    (hd : s.program.defns[id]? = some d) :
    d = d₀ ∨ (d₀.body.isPolymorphic = false ∧ BodyCopy p (s.Serves p) d₀.body d.body) := by
  by_cases hown : (.own id, id) ∈ s.clones
  · rcases h.served hown hd₀ with hw | ⟨d', hd', hcopy⟩
    · have hsame := h.untouched hd₀ (.inl hw)
      rw [hd] at hsame
      exact .inl (Option.some.inj hsame)
    · rw [hd] at hd'
      cases hd'
      exact .inr ⟨h.own hown hd₀, hcopy⟩
  · have hsame := h.untouched hd₀ (.inr (.inr hown))
    rw [hd] at hsame
    exact .inl (Option.some.inj hsame)

/-- A definition that quantifies something is as it was at the start. -/
theorem Tracks.polymorphic (h : Tracks p extra s) {d₀ d : Defn} (hd₀ : p.defns[id]? = some d₀)
    (hd : s.program.defns[id]? = some d) :
    d₀.body.isPolymorphic = d.body.isPolymorphic ∧ (d.body.isPolymorphic = true → d₀ = d) := by
  rcases h.standing hd₀ hd with rfl | ⟨hmono, hcopy⟩
  · exact ⟨rfl, fun _ => rfl⟩
  · rw [hcopy.isPolymorphic, hmono]
    exact ⟨rfl, fun hpoly => nomatch hpoly⟩

/-- What is an external was one at the start. -/
theorem Tracks.external (h : Tracks p extra s) (hid : id < p.defns.size) {d : Defn}
    {e : Mil.External} (hd : s.program.defns[id]? = some d) (he : d.body = .external e) :
    External p id := by
  have hd₀ := Array.getElem?_eq_getElem hid
  rcases h.standing hd₀ hd with rfl | ⟨-, hcopy⟩
  · exact ⟨_, e, hd₀, he⟩
  · rw [he] at hcopy
    generalize hb : p.defns[id].body = b at hcopy
    cases hcopy
    exact ⟨_, _, hd₀, hb⟩

theorem Tracks.monoExternal (h : Tracks p extra s) (hid : id < p.defns.size) {d : Defn}
    {e : Mil.External} (hd : s.program.defns[id]? = some d) (he : d.body = .external e)
    (hmono : e.declared.isPolymorphic = false) : MonoExternal p id := by
  obtain ⟨d₀, e₀, hd₀, he₀⟩ := h.external hid hd he
  refine ⟨d₀, e₀, hd₀, he₀, ?_⟩
  have hpoly := (h.polymorphic hd₀ hd).1
  rw [he₀, he] at hpoly
  exact hpoly.trans hmono

/-- A definition that quantifies nothing is served by itself only. -/
theorem Tracks.eq_of_serves (h : Tracks p extra s) {i : DefnId} {d : Defn} (hserves : s.Serves p i j)
    (hd : p.defns[i]? = some d) (hmono : d.body.isPolymorphic = false) : j = i := by
  rcases hserves with ⟨k, hk, rfl⟩ | ⟨rfl, -⟩
  · rcases (h.asked hk).2.2 with ⟨hj, -⟩ | ⟨-, -, hpoly⟩
    · exact hj
    · rw [hpoly d hd] at hmono
      cases hmono
  · rfl

theorem mono_spec (h : Tracks p extra s) {d : Defn} (hd : s.program.defns[id]? = some d)
    (hid : id < p.defns.size) (hmono : d.body.isPolymorphic = false)
    (hy : Yields (mono id) s j s') : Grows s s' ∧ Tracks p extra s' ∧ s'.Serves p id j := by
  rw [mono, yields_bind] at hy
  obtain ⟨r, s₁, hknown, hy⟩ := hy
  obtain ⟨rfl, rfl⟩ := yields_known? hknown
  split at hy
  · rename_i hnone
    rw [yields_bind] at hy
    obtain ⟨_, s₂, hrem, hy⟩ := hy
    obtain rfl := yields_modify.mp hrem
    rw [yields_bind] at hy
    obtain ⟨_, s₃, henq, hy⟩ := hy
    obtain rfl := yields_modify.mp henq
    obtain ⟨rfl, rfl⟩ := yields_pure.mp hy
    have hfresh : ((.own id, id) : CloneKey × DefnId) ∉ s₁.clones :=
      not_mem_clones_of_lookup (Option.isNone_iff_eq_none.mp hnone)
    refine ⟨⟨Nat.le_refl _, fun x hx => .tail _ hx⟩, ?_, .inl ⟨.own id, .head _, rfl⟩⟩
    refine h.ask (.own id) id (some ⟨id, id, []⟩) rfl h.whole (fun hd => hd) rfl rfl rfl hid
      (Nat.lt_of_lt_of_le hid h.size) (.inl ⟨rfl, rfl, hfresh, fun d₀ hd₀ => ?_⟩) ?_
      (fun hnone => nomatch hnone)
    · exact (h.polymorphic hd₀ hd).1.trans hmono
    · rintro q heq
      cases heq
      exact ⟨rfl, rfl⟩
  · rename_i hsome
    obtain ⟨rfl, rfl⟩ := yields_pure.mp hy
    obtain ⟨j, hj⟩ := Option.ne_none_iff_exists'.mp (mt Option.isNone_iff_eq_none.mpr hsome)
    have hmem : (.own id, j) ∈ s₁.clones := mem_clones_of_lookup hj
    obtain rfl : j = id := by
      rcases (h.asked hmem).2.2 with ⟨hj, -⟩ | ⟨-, hne, -⟩
      · exact hj
      · exact absurd rfl hne
    exact ⟨.refl _, h, .inl ⟨.own j, hmem, rfl⟩⟩

/-- A new definition is remembered as the copy of one that quantifies something. -/
theorem Tracks.clone (h : Tracks p extra s) (k : CloneKey) {d d' : Defn} (added : Option Pending)
    (hk : k.defn < p.defns.size) (hinst : k.inst ≠ none) (hd : s.program.defns[k.defn]? = some d)
    (hpoly : d.body.isPolymorphic = true) (hwhole : d'.replacedBy = none)
    (henv : s'.program.env = s.program.env)
    (hdefns : s'.program.defns = s.program.defns.push d')
    (htemps : s'.program.temps = s.program.temps)
    (hclones : s'.clones = (k, s.program.defns.size) :: s.clones)
    (hqueue : s'.queue = s.queue ++ added.toList) (hprims : s'.prims = s.prims)
    (hadded : ∀ q, added = some q → q.clone = s.program.defns.size ∧ q.source = k.defn)
    (hserved : added = none → BodyCopy p (s'.Serves p) d.body d'.body) :
    Grows s s' ∧ Tracks p extra s' ∧ s'.Serves p k.defn s.program.defns.size := by
  have hself (d₀ : Defn) (hd₀ : p.defns[k.defn]? = some d₀) : d₀ = d :=
    (h.polymorphic hd₀ hd).2 hpoly
  refine ⟨⟨htemps ▸ Nat.le_refl _, fun x hx => hclones ▸ .tail _ hx⟩, ?_,
    .inl ⟨k, hclones ▸ .head _, rfl⟩⟩
  refine h.ask k s.program.defns.size added henv ?_ ?_ hclones hqueue hprims hk ?_
    (.inr ⟨Nat.le_refl _, ?_, ?_⟩) hadded ?_
  · intro j e he
    rw [hdefns, Array.getElem?_push] at he
    split at he
    · cases he
      exact hwhole
    · exact h.whole he
  · intro j e he
    rw [hdefns]
    exact getElem?_push_of_some he d'
  · rw [hdefns, Array.size_push]
    exact Nat.lt_succ_self _
  · intro hown
    rw [hown] at hinst
    exact hinst rfl
  · intro d₀ hd₀
    rw [hself d₀ hd₀]
    exact hpoly
  · intro hnone d₀ hd₀
    rw [hself d₀ hd₀]
    exact ⟨d', by rw [hdefns, Array.getElem?_push_size], hserved hnone⟩

/-- What is known serves what it was asked for. -/
theorem serves_of_lookup {k : CloneKey} (h : s.clones.lookup k = some j) : s.Serves p k.defn j :=
  .inl ⟨k, mem_clones_of_lookup h, rfl⟩

theorem yields_enqueue {q : Pending} {c : DefnId}
    (hy : Yields (do
      enqueue q
      pure c) s j s') : j = c ∧ s' = { s with queue := s.queue ++ [q] } := by
  rw [yields_bind] at hy
  obtain ⟨_, s₁, henq, hy⟩ := hy
  obtain rfl := yields_modify.mp henq
  obtain ⟨rfl, rfl⟩ := yields_pure.mp hy
  exact ⟨rfl, rfl⟩

/-- The types for a copy are found before its request goes into the queue. -/
theorem yields_specializing_enqueue {vars : List Nat} {slots : Slots} {c : DefnId}
    (hy : Yields (do
      let sub ← specializing vars slots
      enqueue ⟨id, c, sub⟩
      pure c) s j s') : j = c ∧ ∃ sub, s' = { s with queue := s.queue ++ [⟨id, c, sub⟩] } := by
  rw [yields_bind] at hy
  obtain ⟨sub, s₁, hsub, hy⟩ := hy
  obtain rfl := yields_specializing hsub
  obtain ⟨rfl, rfl⟩ := yields_enqueue hy
  exact ⟨rfl, sub, rfl⟩

/-- A request for a new copy of a definition that quantifies something. -/
theorem request_spec (h : Tracks p extra s) (hid : id < p.defns.size) {d : Defn}
    {inst : String} {index : Nat} {make : Nat → Defn} {finish : DefnId → MonoM DefnId}
    (hd : s.program.defns[id]? = some d) (hpoly : d.body.isPolymorphic = true)
    (hwhole : ∀ n, (make n).replacedBy = none)
    (hfinish : ∀ {c s j s'}, Yields (finish c) s j s' →
      j = c ∧ ∃ sub, s' = { s with queue := s.queue ++ [⟨id, c, sub⟩] })
    (hy : Yields (do
      let n ← nextNumber id
      let c ← add (make n)
      remember ⟨id, index, some inst⟩ c
      finish c) s j s') : Grows s s' ∧ Tracks p extra s' ∧ s'.Serves p id j := by
  rw [yields_bind] at hy
  obtain ⟨n, s₁, hnumber, hy⟩ := hy
  obtain ⟨counts, rfl⟩ := yields_nextNumber hnumber
  rw [yields_bind] at hy
  obtain ⟨c, s₂, hadd, hy⟩ := hy
  obtain ⟨rfl, rfl⟩ := yields_add hadd
  rw [yields_bind] at hy
  obtain ⟨_, s₃, hrem, hy⟩ := hy
  obtain rfl := yields_modify.mp hrem
  obtain ⟨rfl, sub, rfl⟩ := hfinish hy
  refine h.clone ⟨id, index, some inst⟩ (some ⟨id, _, sub⟩) hid (fun hnone => nomatch hnone) hd
    hpoly (hwhole n) rfl rfl rfl rfl rfl rfl ?_ fun hnone => nomatch hnone
  intro q hq
  cases hq
  exact ⟨rfl, rfl⟩

theorem block_spec (h : Tracks p extra s) (hid : id < p.defns.size) {inst : BlockType}
    (hy : Yields (block id inst) s j s') : Grows s s' ∧ Tracks p extra s' ∧ s'.Serves p id j := by
  rw [block, yields_bind] at hy
  obtain ⟨d, s₁, hdefn, hy⟩ := hy
  obtain ⟨hd, rfl⟩ := yields_definition hdefn
  split at hy
  · rename_i b hb
    split at hy
    · rename_i hmono
      refine mono_spec h hd hid ?_ hy
      rw [hb, DefnBody.isPolymorphic, hmono]
      rfl
    · rename_i hmono
      rw [yields_bind] at hy
      obtain ⟨st, s₂, hstore, hy⟩ := hy
      obtain ⟨rfl, rfl⟩ := yields_store hstore
      dsimp only at hy
      rw [yields_bind] at hy
      obtain ⟨r, s₃, hknown, hy⟩ := hy
      obtain ⟨hr, rfl⟩ := yields_known? hknown
      split at hy
      · obtain ⟨rfl, rfl⟩ := yields_pure.mp hy
        exact ⟨.refl _, h, serves_of_lookup hr.symm⟩
      · split at hy
        · rw [yields_bind] at hy
          obtain ⟨_, _, hbroken, -⟩ := hy
          exact absurd hbroken not_yields_broken
        · refine request_spec h hid hd ?_ (fun _ => rfl)
            (fun hy => yields_specializing_enqueue hy) hy
          rw [hb, DefnBody.isPolymorphic, Bool.eq_false_iff.mpr hmono]
          rfl
  · exact absurd hy not_yields_broken

theorem closure_spec (h : Tracks p extra s) (hid : id < p.defns.size) {inst : AllocType}
    (hy : Yields (closure id inst) s j s') : Grows s s' ∧ Tracks p extra s' ∧ s'.Serves p id j := by
  rw [closure, yields_bind] at hy
  obtain ⟨d, s₁, hdefn, hy⟩ := hy
  obtain ⟨hd, rfl⟩ := yields_definition hdefn
  split at hy
  · rename_i b hb
    split at hy
    · rename_i hmono
      refine mono_spec h hd hid ?_ hy
      rw [hb, DefnBody.isPolymorphic, hmono]
      rfl
    · rename_i hmono
      rw [yields_bind] at hy
      obtain ⟨st, s₂, hstore, hy⟩ := hy
      obtain ⟨rfl, rfl⟩ := yields_store hstore
      dsimp only at hy
      rw [yields_bind] at hy
      obtain ⟨r, s₃, hknown, hy⟩ := hy
      obtain ⟨hr, rfl⟩ := yields_known? hknown
      split at hy
      · obtain ⟨rfl, rfl⟩ := yields_pure.mp hy
        exact ⟨.refl _, h, serves_of_lookup hr.symm⟩
      · split at hy
        · rw [yields_bind] at hy
          obtain ⟨_, _, hbroken, -⟩ := hy
          exact absurd hbroken not_yields_broken
        · refine request_spec h hid hd ?_ (fun _ => rfl)
            (fun hy => yields_specializing_enqueue hy) hy
          rw [hb, DefnBody.isPolymorphic, Bool.eq_false_iff.mpr hmono]
          rfl
  · exact absurd hy not_yields_broken

theorem topLevel_spec (h : Tracks p extra s) (hid : id < p.defns.size) {d : Defn} {t : TopLevel}
    {index : Nat} {inst : Option Ty} (hd : s.program.defns[id]? = some d) (ht : d.body = .top t)
    (hy : Yields (topLevel id d t index inst) s j s') :
    Grows s s' ∧ Tracks p extra s' ∧ s'.Serves p id j := by
  unfold topLevel at hy
  split at hy
  · rename_i hmono
    refine mono_spec h hd hid ?_ hy
    rw [ht, DefnBody.isPolymorphic, hmono]
    rfl
  · rename_i hmono
    rw [yields_bind] at hy
    obtain ⟨st, s₂, hstore, hy⟩ := hy
    obtain ⟨rfl, rfl⟩ := yields_store hstore
    dsimp only at hy
    rw [yields_bind] at hy
    obtain ⟨r, s₃, hknown, hy⟩ := hy
    obtain ⟨hr, rfl⟩ := yields_known? hknown
    split at hy
    · obtain ⟨rfl, rfl⟩ := yields_pure.mp hy
      exact ⟨.refl _, h, serves_of_lookup hr.symm⟩
    · split at hy
      · exact absurd hy not_yields_broken
      · split at hy
        · rw [yields_bind] at hy
          obtain ⟨_, _, hbroken, -⟩ := hy
          exact absurd hbroken not_yields_broken
        · rw [yields_bind] at hy
          obtain ⟨sub, s₄, hsub, hy⟩ := hy
          obtain rfl := yields_specializing hsub
          refine request_spec h hid hd ?_ (fun _ => rfl)
            (fun hy => ⟨(yields_enqueue hy).1, _, (yields_enqueue hy).2⟩) hy
          rw [ht, DefnBody.isPolymorphic, Bool.eq_false_iff.mpr hmono]
          rfl

theorem external_spec (h : Tracks p extra s) (hid : id < p.defns.size) {d : Defn}
    {e : Mil.External} {inst : Option Ty} (hd : s.program.defns[id]? = some d)
    (he : d.body = .external e) (hy : Yields (external id d e inst) s j s') :
    Grows s s' ∧ Tracks p extra s' ∧ s'.Serves p id j := by
  unfold external at hy
  split at hy
  · rename_i hmono
    obtain ⟨rfl, rfl⟩ := yields_pure.mp hy
    exact ⟨.refl _, h, .inr ⟨rfl, h.monoExternal hid hd he (by simpa using hmono)⟩⟩
  · rename_i hpoly
    rw [yields_bind] at hy
    obtain ⟨st, s₂, hstore, hy⟩ := hy
    obtain ⟨rfl, rfl⟩ := yields_store hstore
    dsimp only at hy
    rw [yields_bind] at hy
    obtain ⟨r, s₃, hknown, hy⟩ := hy
    obtain ⟨hr, rfl⟩ := yields_known? hknown
    split at hy
    · obtain ⟨rfl, rfl⟩ := yields_pure.mp hy
      exact ⟨.refl _, h, serves_of_lookup hr.symm⟩
    · split at hy
      · rw [yields_bind] at hy
        obtain ⟨_, _, hbroken, -⟩ := hy
        exact absurd hbroken not_yields_broken
      · rw [yields_bind] at hy
        obtain ⟨n, s₁, hnumber, hy⟩ := hy
        obtain ⟨counts, rfl⟩ := yields_nextNumber hnumber
        rw [yields_bind] at hy
        obtain ⟨c, s₂, hadd, hy⟩ := hy
        obtain ⟨rfl, rfl⟩ := yields_add hadd
        rw [yields_bind] at hy
        obtain ⟨_, s₃, hrem, hy⟩ := hy
        obtain rfl := yields_modify.mp hrem
        obtain ⟨rfl, rfl⟩ := yields_pure.mp hy
        refine h.clone ⟨id, 0, some _⟩ none hid (fun hnone => nomatch hnone) hd ?_ rfl rfl rfl rfl
          rfl (List.append_nil _).symm rfl (fun _ hnone => nomatch hnone) fun _ => ?_
        · rw [he]
          show e.declared.isPolymorphic = true
          simpa using hpoly
        · rw [he]
          exact .external rfl rfl

theorem topRef_spec (h : Tracks p extra s) (hid : id < p.defns.size) {index index' : Nat}
    {inst : Option Ty} (hy : Yields (topRef id index inst) s (j, index') s') :
    Grows s s' ∧ Tracks p extra s' ∧ s'.Serves p id j ∧ (index' = index ∨ External p id) := by
  rw [topRef, yields_bind] at hy
  obtain ⟨d, s₁, hdefn, hy⟩ := hy
  obtain ⟨hd, rfl⟩ := yields_definition hdefn
  split at hy
  · rename_i t ht
    rw [yields_bind] at hy
    obtain ⟨c, s₂, htop, hy⟩ := hy
    obtain ⟨heq, rfl⟩ := yields_pure.mp hy
    cases heq
    obtain ⟨hg, ht', hserves⟩ := topLevel_spec h hid hd ht htop
    exact ⟨hg, ht', hserves, .inl rfl⟩
  · rename_i e he
    rw [yields_bind] at hy
    obtain ⟨c, s₂, hext, hy⟩ := hy
    obtain ⟨heq, rfl⟩ := yields_pure.mp hy
    cases heq
    obtain ⟨hg, ht', hserves⟩ := external_spec h hid hd he hext
    exact ⟨hg, ht', hserves, .inr (h.external hid hd he)⟩
  · exact absurd hy not_yields_broken

theorem prim_spec (h : Tracks p extra s) {q q' : Prim} {inst : BlockType}
    (hq : p.prims.prims[q.index]? = some q) (hy : Yields (prim q inst) s q' s') :
    Grows s s' ∧ Tracks p extra s' ∧ PrimCopy q q' := by
  unfold prim at hy
  split at hy
  · obtain ⟨rfl, rfl⟩ := yields_pure.mp hy
    exact ⟨.refl _, h, rfl, rfl, rfl⟩
  · rw [yields_bind] at hy
    obtain ⟨st, s₁, hget, hy⟩ := hy
    obtain ⟨rfl, rfl⟩ := yields_get.mp hget
    dsimp only at hy
    split at hy
    · rename_i i q₁ hfind
      obtain ⟨rfl, rfl⟩ := yields_pure.mp hy
      obtain ⟨q₀, hq₀, hcopy⟩ := h.prims (List.mem_of_find?_eq_some hfind)
      have hi := List.find?_some hfind
      rw [Bool.and_eq_true, decide_eq_true_eq] at hi
      have hi : i = q.index := hi.1
      rw [hi, hq] at hq₀
      cases hq₀
      exact ⟨.refl _, h, hcopy⟩
    · rw [yields_bind] at hy
      obtain ⟨_, s₂, hset, hy⟩ := hy
      obtain rfl := yields_set.mp hset
      obtain ⟨rfl, rfl⟩ := yields_pure.mp hy
      refine ⟨⟨Nat.le_refl _, fun x hx => hx⟩, ?_, rfl, rfl, rfl⟩
      refine ⟨h.env, h.whole, h.size, h.asked, h.own, h.source, h.request, h.nodup, h.untouched,
        h.served, fun hmem => ?_⟩
      rcases List.mem_append.mp hmem with hmem | hmem
      · exact h.prims hmem
      · cases List.mem_singleton.mp hmem
        exact ⟨q, hq, rfl, rfl, rfl⟩

end Requests

end Mil.Mono
