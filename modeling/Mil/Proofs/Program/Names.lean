import Mathlib.Data.List.Nodup
import Mil.Program.Basic

/-!
Association lists: what is found after an entry is added or changed, and what it means that an entry
is there.
-/

namespace Mil

section Lookup

variable {α β : Type} [BEq α] [LawfulBEq α] {l : List (α × β)} {a : α} {b : β}

theorem lookup_cons_ite [DecidableEq α] (a k : α) (b : β) (l : List (α × β)) :
    ((k, b) :: l).lookup a = if a = k then some b else l.lookup a := by
  rw [List.lookup_cons]
  by_cases h : a = k
  · rw [if_pos h, beq_iff_eq.mpr h]
  · rw [if_neg h, beq_eq_false_iff_ne.mpr h]

theorem lookup_cons_eq_some [DecidableEq α] {k : α} {c : β} (h : ((k, b) :: l).lookup a = some c) :
    (a = k ∧ c = b) ∨ l.lookup a = some c := by
  rw [lookup_cons_ite] at h
  split at h
  · rename_i hk
    exact .inl ⟨hk, (Option.some.inj h).symm⟩
  · exact .inr h

/-- A new key hides no other. -/
theorem lookup_cons_of_none [DecidableEq α] {k : α} {c : β} (hnone : l.lookup k = none)
    (h : l.lookup a = some c) : ((k, b) :: l).lookup a = some c := by
  rw [lookup_cons_ite, if_neg fun he => by rw [he, hnone] at h; cases h]
  exact h

theorem mem_of_lookup (h : l.lookup a = some b) : (a, b) ∈ l := by
  obtain ⟨l₁, l₂, rfl, -⟩ := List.lookup_eq_some_iff.mp h
  exact List.mem_append_right _ (.head _)

theorem lookup_of_mem (hnodup : (l.map Prod.fst).Nodup) (h : (a, b) ∈ l) : l.lookup a = some b := by
  obtain ⟨l₁, l₂, rfl⟩ := List.append_of_mem h
  refine List.lookup_eq_some_iff.mpr ⟨l₁, l₂, rfl, fun q hq => ?_⟩
  rw [List.map_append, List.map_cons] at hnodup
  have hne := (List.nodup_append.mp hnodup).2.2 q.1 (List.mem_map_of_mem hq) a (.head _)
  simpa using Ne.symm hne

theorem lookup_isSome_iff_mem : (l.lookup a).isSome ↔ a ∈ l.map Prod.fst := by
  simp [List.lookup_isSome_iff]

theorem lookup_eq_none_iff_not_mem : l.lookup a = none ↔ a ∉ l.map Prod.fst := by
  rw [← lookup_isSome_iff_mem, Bool.not_eq_true, Option.isSome_eq_false_iff, Option.isNone_iff_eq_none]

/-- The order of entries with different keys does not matter. -/
theorem lookup_perm {l' : List (α × β)} (h : l.Perm l') (hnodup : (l.map Prod.fst).Nodup) (a : α) :
    l.lookup a = l'.lookup a := by
  cases hl : l'.lookup a with
  | some b => exact lookup_of_mem hnodup (h.mem_iff.mpr (mem_of_lookup hl))
  | none =>
      rw [lookup_eq_none_iff_not_mem] at hl ⊢
      exact fun hmem => hl ((h.map Prod.fst).mem_iff.mp hmem)

/-- Lookup after a change of what is found, key by key. -/
theorem lookup_map_snd {γ : Type} (f : α × β → γ) (a : α) :
    (l.map fun q => (q.1, f q)).lookup a = (l.lookup a).map fun b => f (a, b) := by
  induction l with
  | nil => rfl
  | cons q l ih =>
      rw [List.map_cons, List.lookup_cons, List.lookup_cons]
      split
      · rename_i h
        rw [eq_of_beq h]
        rfl
      · exact ih

/-- Lookup of what a function gives for the keys of a list. -/
theorem lookup_filterMap_key [DecidableEq α] (f : α → Option β) (as : List α) (a : α) :
    (as.filterMap fun k => (f k).map fun b => (k, b)).lookup a = if a ∈ as then f a else none := by
  induction as with
  | nil => rfl
  | cons k as ih =>
      rw [List.filterMap_cons]
      by_cases h : a = k
      · subst h
        cases hf : f a with
        | none =>
            rw [Option.map_none, ih, hf]
            simp
        | some b =>
            rw [Option.map_some, lookup_cons_ite, if_pos rfl, if_pos (.head _)]
      · cases hf : f k with
        | none =>
            rw [Option.map_none, ih]
            simp [h]
        | some b =>
            rw [Option.map_some, lookup_cons_ite, if_neg h, ih]
            simp [h]

end Lookup

end Mil

/-!
Names. Definitions of all kinds have their names in one table, and a top-level definition has several
names. While a program is loaded, its table has exactly the names that its definitions bind: a
definition is taken up only if none of its names is in the table, and is turned away before anything
is changed. The names of one definition are not compared with each other, so a definition can bind a
name at two positions.
-/

namespace Mil

namespace Program

section Names

variable {p p' : Program} {d : Defn} {name : String} {id id' : DefnId} {i j : Nat}

/-- A definition binds a name, at a position among its names. -/
def Binds (p : Program) (name : String) (id : DefnId) (i : Nat) : Prop :=
  ∃ d, p.defns[id]? = some d ∧ d.boundNames[i]? = some name

/-- The names that are bound, definition by definition. -/
def boundNames (p : Program) : List (List String) := p.defns.toList.map Defn.boundNames

theorem getElem?_boundNames (p : Program) (id : DefnId) :
    p.boundNames[id]? = (p.defns[id]?).map Defn.boundNames := by
  rw [boundNames, List.getElem?_map, Array.getElem?_toList]

theorem binds_iff :
    p.Binds name id i ↔ ∃ ns, p.boundNames[id]? = some ns ∧ ns[i]? = some name := by
  simp only [getElem?_boundNames, Option.map_eq_some_iff, exists_exists_and_eq_and]
  rfl

theorem exists_binds_iff :
    (∃ i, p.Binds name id i) ↔ ∃ d, p.defns[id]? = some d ∧ name ∈ d.boundNames := by
  simp only [Binds, List.mem_iff_getElem?]
  exact ⟨fun ⟨i, d, hd, hi⟩ => ⟨d, hd, i, hi⟩, fun ⟨d, hd, i, hi⟩ => ⟨i, d, hd, hi⟩⟩

/-- The table has exactly the names that are bound, each with the definition that binds it. -/
def Named (p : Program) : Prop := ∀ name id, p.lookup? name = some id ↔ ∃ i, p.Binds name id i

/-- All bindings of a name are in one definition. -/
theorem Named.unique (h : p.Named) (hi : p.Binds name id i) (hj : p.Binds name id' j) : id = id' :=
  Option.some.inj (((h name id).mpr ⟨i, hi⟩).symm.trans ((h name id').mpr ⟨j, hj⟩))

/-- The first binding of a name, to which references lead. -/
def Denotes (p : Program) (name : String) (id : DefnId) (i : Nat) : Prop :=
  p.Binds name id i ∧ ∀ id' j, p.Binds name id' j → id' = id ∧ i ≤ j

theorem idxOf_le_of_getElem? {ns : List String} (h : ns[j]? = some name) : ns.idxOf name ≤ j := by
  obtain ⟨hj, h⟩ := List.getElem?_eq_some_iff.mp h
  by_contra hlt
  simpa [h] using List.not_of_lt_findIdx (Nat.not_le.mp hlt)

/-- The first binding is where the search through the names of the definition ends. -/
theorem Named.denotes_iff (h : p.Named) : p.Denotes name id i ↔
    ∃ d, p.defns[id]? = some d ∧ name ∈ d.boundNames ∧ d.boundNames.idxOf name = i := by
  constructor
  · rintro ⟨⟨d, hd, hi⟩, hfirst⟩
    have hname := List.mem_of_getElem? hi
    have hle := (hfirst id _ ⟨d, hd, List.getElem?_idxOf hname⟩).2
    exact ⟨d, hd, hname, Nat.le_antisymm (idxOf_le_of_getElem? hi) hle⟩
  · rintro ⟨d, hd, hname, rfl⟩
    have hbinds : p.Binds name id (d.boundNames.idxOf name) := ⟨d, hd, List.getElem?_idxOf hname⟩
    refine ⟨hbinds, fun id' j hj => ?_⟩
    obtain rfl := h.unique hj hbinds
    obtain ⟨e, he, hj⟩ := hj
    obtain rfl := Option.some.inj (hd.symm.trans he)
    exact ⟨rfl, idxOf_le_of_getElem? hj⟩

/-- The table leads to the definition with the first binding. -/
theorem Named.lookup?_eq_some (h : p.Named) :
    p.lookup? name = some id ↔ ∃ i, p.Denotes name id i := by
  rw [h name id, exists_binds_iff]
  simp only [h.denotes_iff]
  exact ⟨fun ⟨d, hd, hname⟩ => ⟨_, d, hd, hname, rfl⟩, fun ⟨_, d, hd, hname, _⟩ => ⟨d, hd, hname⟩⟩

/-- A definition that binds a name at two positions has two names at least, so it is a top-level
definition, and its names are not all different. -/
theorem Binds.repeats (hi : p.Binds name id i) (hj : p.Binds name id j) (hne : i ≠ j) :
    ∃ d t, p.defns[id]? = some d ∧ d.body = .top t ∧ ¬ d.boundNames.Nodup := by
  obtain ⟨d, hd, hi⟩ := hi
  obtain ⟨e, he, hj⟩ := hj
  obtain rfl := Option.some.inj (hd.symm.trans he)
  have hdup : ¬ d.boundNames.Nodup := fun hnodup => by
    obtain ⟨hil, hi⟩ := List.getElem?_eq_some_iff.mp hi
    obtain ⟨hjl, hj⟩ := List.getElem?_eq_some_iff.mp hj
    exact hne (hnodup.getElem_inj_iff.mp (hi.trans hj.symm))
  cases hbody : d.body with
  | top t => exact ⟨d, t, hd, hbody, hdup⟩
  | block b => simp [Defn.boundNames, hbody] at hdup
  | closure k => simp [Defn.boundNames, hbody] at hdup
  | external e => simp [Defn.boundNames, hbody] at hdup

theorem named_empty : Program.empty.Named := by
  intro name id
  rw [exists_binds_iff]
  simp [Program.empty, lookup?]

/-- Only the table and the names of definitions matter. -/
theorem Named.congr (h : p.Named) (hnames : p'.names = p.names)
    (hbound : p'.boundNames = p.boundNames) : p'.Named := by
  intro name id
  simp only [binds_iff, hbound]
  simp only [← binds_iff, ← h name id]
  rw [lookup?, lookup?, hnames]

theorem Named.modify (h : p.Named) {f : Defn → Defn}
    (hf : ∀ {d}, p.defns[id]? = some d → (f d).boundNames = d.boundNames) : (p.modify id f).Named := by
  refine h.congr rfl (List.ext_getElem? fun j => ?_)
  rw [getElem?_boundNames, getElem?_boundNames, Program.modify, Array.getElem?_modify]
  split
  · rename_i hj
    cases hd : p.defns[j]? with
    | none => rfl
    | some d => exact congrArg some (hf (hj ▸ hd))
  · rfl

theorem lookup_map_const (ns : List String) (name : String) (id : DefnId) :
    (ns.map fun n => (n, id)).lookup name = if name ∈ ns then some id else none := by
  simpa using lookup_filterMap_key (fun _ => some id) ns name

theorem define_eq_ok (h : p.define d = .ok (id, p')) :
    (∀ n ∈ d.boundNames, p.lookup? n = none) ∧ id = p.defns.size ∧
      p' = { p with
        defns := p.defns.push d
        names := p.names ++ d.boundNames.map fun n => (n, p.defns.size) } := by
  unfold define at h
  split at h
  · cases h
  · rename_i hfind
    cases h
    exact ⟨by simpa using List.find?_eq_none.mp hfind, rfl, rfl⟩

/-- A definition that is taken up is the only one that binds its names. -/
theorem Named.define (h : p.Named) (hdefine : p.define d = .ok (id, p')) : p'.Named := by
  obtain ⟨hnew, -, rfl⟩ := define_eq_ok hdefine
  intro name id
  rw [exists_binds_iff]
  show (p.names ++ _).lookup name = some id ↔ ∃ e, (p.defns.push d)[id]? = some e ∧ _
  rw [List.lookup_append, lookup_map_const, Array.getElem?_push]
  have hold : p.lookup? name = some id ↔ ∃ e, p.defns[id]? = some e ∧ name ∈ e.boundNames :=
    (h name id).trans exists_binds_iff
  change List.lookup name p.names = _ ↔ _ at hold
  by_cases hid : id = p.defns.size
  · -- the new definition: its names were not in the table, and no others lead to it
    subst hid
    rw [if_pos rfl]
    have hother : List.lookup name p.names ≠ some p.defns.size := fun hl => by
      obtain ⟨e, he, -⟩ := hold.mp hl
      simp at he
    by_cases hname : name ∈ d.boundNames
    · have hnone : List.lookup name p.names = none := hnew name hname
      simp [hname, hnone]
    · simp [hname, hother]
  · rw [if_neg hid, ← hold]
    by_cases hname : name ∈ d.boundNames
    · have hnone : List.lookup name p.names = none := hnew name hname
      simp [hname, hnone, Ne.symm hid]
    · simp [hname]

/-- A definition is turned away if and only if one of its names is bound. -/
theorem Named.define_eq_error (h : p.Named) :
    (∃ f, p.define d = .error f) ↔ ∃ name ∈ d.boundNames, ∃ id i, p.Binds name id i := by
  have htaken : ∀ name, (p.lookup? name).isSome ↔ ∃ id i, p.Binds name id i := fun name => by
    simp only [Option.isSome_iff_exists, h name]
  simp only [← htaken]
  unfold Program.define
  split
  · rename_i n hfind
    exact ⟨fun _ => ⟨n, List.mem_of_find?_eq_some hfind, by simpa using List.find?_some hfind⟩,
      fun _ => ⟨_, rfl⟩⟩
  · rename_i hfind
    refine ⟨fun ⟨f, hf⟩ => (nomatch hf), fun ⟨n, hn, htaken⟩ => ?_⟩
    exact absurd htaken (List.find?_eq_none.mp hfind n hn)

end Names

/-! ### Definitions in place -/

section InPlace

variable {p : Program} {d : Defn}

/-- Fails if a name is in the table. -/
def checkName (pos : Position) (name : String) : ExceptT Failure (StateM Program) Unit := do
  if ((← get).lookup? name).isSome then
    throw ⟨pos, .structural, "multiple definitions for " ++ name⟩

/-- Enters a name in the table. -/
def enterName (id : DefnId) (name : String) : ExceptT Failure (StateM Program) Unit :=
  modifyThe Program fun p => { p with names := p.names ++ [(name, id)] }

/-- Appends a definition in place, name by name: what was changed before a failure stays changed. -/
def defineInPlace (d : Defn) : ExceptT Failure (StateM Program) DefnId := do
  d.boundNames.forM (checkName d.pos)
  let id ← modifyGet fun p => p.add d
  d.boundNames.forM (enterName id)
  return id

section Run

variable {ε σ α β : Type} {x : ExceptT ε (StateM σ) α} {f : α → ExceptT ε (StateM σ) β} {s s' : σ}

theorem run_bind_ok {a : α} (h : x.run s = (.ok a, s')) : (x >>= f).run s = (f a).run s' := by
  have hbind : (x >>= f).run s = ExceptT.bindCont f (x.run s).1 (x.run s).2 := rfl
  rw [hbind, h]
  rfl

theorem run_bind_error {e : ε} (h : x.run s = (.error e, s')) :
    (x >>= f).run s = (.error e, s') := by
  have hbind : (x >>= f).run s = ExceptT.bindCont f (x.run s).1 (x.run s).2 := rfl
  rw [hbind, h]
  rfl

end Run

theorem checkName_run (pos : Position) (name : String) : (checkName pos name).run p =
    if (p.lookup? name).isSome then
      (.error ⟨pos, .structural, "multiple definitions for " ++ name⟩, p)
    else (.ok (), p) := by
  have hget : (get : ExceptT Failure (StateM Program) Program).run p = (.ok p, p) := rfl
  rw [checkName, run_bind_ok hget]
  split
  · rfl
  · rfl

/-- The check ends at the first name that is taken, and leaves the program as it was. -/
theorem checkNames_run (pos : Position) (ns : List String) : (ns.forM (checkName pos)).run p =
    match ns.find? fun n => (p.lookup? n).isSome with
    | some n => (.error ⟨pos, .structural, "multiple definitions for " ++ n⟩, p)
    | none => (.ok (), p) := by
  induction ns with
  | nil => rfl
  | cons n ns ih =>
      have hfirst := checkName_run (p := p) pos n
      show (checkName pos n >>= fun _ => ns.forM (checkName pos)).run p = _
      rw [List.find?_cons]
      cases htaken : (p.lookup? n).isSome with
      | true => exact run_bind_error (hfirst.trans (if_pos htaken))
      | false =>
          rw [run_bind_ok (hfirst.trans (if_neg (by rw [htaken]; exact Bool.false_ne_true)))]
          exact ih

theorem enterNames_run (id : DefnId) (ns : List String) : (ns.forM (enterName id)).run p =
    (.ok (), { p with names := p.names ++ ns.map fun n => (n, id) }) := by
  induction ns generalizing p with
  | nil =>
      rw [List.map_nil, List.append_nil]
      rfl
  | cons n ns ih =>
      have hfirst : (enterName id n).run p = (.ok (), { p with names := p.names ++ [(n, id)] }) := rfl
      show (enterName id n >>= fun _ => ns.forM (enterName id)).run p = _
      rw [run_bind_ok hfirst, ih, List.append_assoc]
      rfl

/-- In place a definition does what it does to a program that is given back, and a failure leaves
the program as it was. -/
theorem defineInPlace_run (d : Defn) (p : Program) : (defineInPlace d).run p =
    match p.define d with
    | .ok (id, p') => (.ok id, p')
    | .error f => (.error f, p) := by
  have hcheck := checkNames_run (p := p) d.pos d.boundNames
  unfold Program.define defineInPlace
  cases hfind : d.boundNames.find? fun n => (p.lookup? n).isSome with
  | some n =>
      rw [hfind] at hcheck
      exact run_bind_error hcheck
  | none =>
      rw [hfind] at hcheck
      have hadd : (modifyGet fun p => p.add d : ExceptT Failure (StateM Program) DefnId).run p =
          (.ok p.defns.size, { p with defns := p.defns.push d }) := rfl
      rw [run_bind_ok hcheck, run_bind_ok hadd, run_bind_ok (enterNames_run _ _)]
      rfl

theorem defineInPlace_eq_error {q : Program} {f : Failure} :
    (defineInPlace d).run p = (.error f, q) ↔ p.define d = .error f ∧ q = p := by
  rw [defineInPlace_run]
  constructor
  · intro h
    split at h
    · cases h
    · cases h
      exact ⟨‹_›, rfl⟩
  · rintro ⟨h, rfl⟩
    rw [h]

end InPlace

end Program

end Mil
