import Mil.Proofs.Program.Linked
import Mil.Proofs.Program.Names

/-!
Copies of code. The temporaries that a copy binds are new, so those that it reads are below the number
of temporaries that there are after it. It refers to the definitions that the code refers to.
-/

namespace Mil

/-- Temporaries are replaced only by temporaries below a number. -/
def Below (ρ : Replacement) (n : Nat) : Prop := ∀ t y, ρ.lookup t = some (.temp y) → y < n

/-- Temporaries are replaced only by temporaries. -/
def TempsOnly (ρ : Replacement) : Prop := ∀ t a, ρ.lookup t = some a → ∃ y, a = .temp y

section Replacements

variable {ρ : Replacement} {n : Nat} {ts : List Temp} {as : List Atom}

theorem AtomsBelow.mono {k : Nat} (h : AtomsBelow n as) (hk : n ≤ k) : AtomsBelow k as :=
  fun t ht => Nat.lt_of_lt_of_le (h t ht) hk

theorem AtomsBelow.append {bs : List Atom} (ha : AtomsBelow n as) (hb : AtomsBelow n bs) :
    AtomsBelow n (as ++ bs) :=
  fun t ht => (List.mem_append.mp ht).elim (ha t) (hb t)

theorem Replacement.extend_cons (ρ : Replacement) (t : Temp) (a : Atom) (ts : List Temp) (as : List Atom) :
    ρ.extend (t :: ts) (a :: as) = Replacement.extend ((t, a) :: ρ) ts as := by
  simp [Replacement.extend]

theorem mem_or_of_lookup_extend {t : Temp} {a : Atom} (h : (ρ.extend ts as).lookup t = some a) :
    a ∈ as ∨ ρ.lookup t = some a := by
  rw [Replacement.extend, List.lookup_append] at h
  cases hlookup : (ts.zip as).reverse.lookup t with
  | none =>
      rw [hlookup] at h
      exact .inr h
  | some b =>
      rw [hlookup] at h
      cases h
      exact .inl (List.of_mem_zip (List.mem_reverse.mp (mem_of_lookup hlookup))).2

theorem Below.extend (h : Below ρ n) (ts : List Temp) (k : Nat) :
    Below (ρ.extend ts ((List.range' n k).map .temp)) (n + k) := by
  intro t y hy
  rcases mem_or_of_lookup_extend hy with hmem | hy
  · obtain ⟨z, hz, heq⟩ := List.mem_map.mp hmem
    cases heq
    exact (List.mem_range'_1.mp hz).2
  · exact Nat.lt_add_right k (h t y hy)

theorem TempsOnly.extend (h : TempsOnly ρ) (ts vs : List Temp) :
    TempsOnly (ρ.extend ts (vs.map .temp)) := by
  intro t a ha
  rcases mem_or_of_lookup_extend ha with hmem | ha
  · obtain ⟨y, -, rfl⟩ := List.mem_map.mp hmem
    exact ⟨y, rfl⟩
  · exact h t a ha

/-- References are not replaced. -/
theorem TempsOnly.defn?_atom (h : TempsOnly ρ) (a : Atom) : (ρ.atom a).defn? = a.defn? := by
  cases a with
  | temp t =>
      unfold Replacement.atom
      dsimp only
      cases hlookup : ρ.lookup t with
      | none => rfl
      | some b =>
          obtain ⟨y, rfl⟩ := h t b hlookup
          rfl
  | lit l => rfl
  | top id index site => rfl

theorem AtomsBelow.map_atom (h : AtomsBelow n as) (hρ : Below ρ n) : AtomsBelow n (as.map ρ.atom) := by
  intro t ht
  obtain ⟨a, ha, heq⟩ := List.mem_map.mp ht
  cases a with
  | temp u =>
      unfold Replacement.atom at heq
      dsimp only at heq
      cases hlookup : ρ.lookup u with
      | none =>
          rw [hlookup] at heq
          cases heq
          exact h t ha
      | some b =>
          rw [hlookup] at heq
          cases heq
          exact hρ u t hlookup
  | lit l => cases heq
  | top id index site => cases heq

end Replacements

/-! ### Code with other operands -/

section Operands

variable {f : Atom → Atom}

theorem BlockCall.mapAtoms_id (c : BlockCall) : c.mapAtoms id = c := by rw [mapAtoms, List.map_id]

theorem Tail.mapAtoms_id (t : Tail) : t.mapAtoms id = t := by
  cases t <;> simp [mapAtoms, BlockCall.mapAtoms_id]

theorem Code.mapAtoms_id (c : Code) : c.mapAtoms id = c := by
  induction c with
  | bind vars t next ih => rw [mapAtoms, t.mapAtoms_id, ih]
  | done t => rw [mapAtoms, t.mapAtoms_id]
  | branch cond c d => rw [mapAtoms, c.mapAtoms_id, d.mapAtoms_id, id]
  | case scrut alts default => simp [mapAtoms, BlockCall.mapAtoms_id]

theorem Tail.atoms_mapAtoms (f : Atom → Atom) (t : Tail) : (t.mapAtoms f).atoms = t.atoms.map f := by
  cases t <;> rfl

theorem Tail.target?_mapAtoms (f : Atom → Atom) (t : Tail) : (t.mapAtoms f).target? = t.target? := by
  cases t <;> rfl

theorem Tail.refs_mapAtoms (hf : ∀ a, (f a).defn? = a.defn?) (t : Tail) :
    (t.mapAtoms f).refs = t.refs := by
  have hcomp : Atom.defn? ∘ f = Atom.defn? := funext hf
  rw [refs, refs, atoms_mapAtoms, target?_mapAtoms, List.filterMap_map, hcomp]

theorem Code.calls_mapAtoms (f : Atom → Atom) (c : Code) :
    (c.mapAtoms f).calls = c.calls.map (·.mapAtoms f) := by
  cases c with
  | bind vars t next => rfl
  | done t => rfl
  | branch cond t e => rfl
  | case scrut alts default =>
      cases default with
      | none => simp [mapAtoms, calls]
      | some c => simp [mapAtoms, calls]

theorem Code.allCalls_mapAtoms (f : Atom → Atom) (c : Code) :
    (c.mapAtoms f).allCalls = c.allCalls.map (·.mapAtoms f) := by
  have htail (t : Tail) : (t.mapAtoms f).call?.toList = t.call?.toList.map (·.mapAtoms f) := by
    cases t <;> rfl
  induction c with
  | bind vars t next ih => rw [mapAtoms, allCalls, allCalls, ih, htail, List.map_append]
  | done t => exact htail t
  | branch cond t e => rfl
  | case scrut alts default => exact (Code.case scrut alts default).calls_mapAtoms f

theorem Code.atoms_mapAtoms (f : Atom → Atom) (c : Code) : (c.mapAtoms f).atoms = c.atoms.map f := by
  induction c with
  | bind vars t next ih => rw [mapAtoms, atoms, atoms, ih, t.atoms_mapAtoms, List.map_append]
  | done t => exact t.atoms_mapAtoms f
  | branch cond t e => simp [mapAtoms, atoms, BlockCall.mapAtoms]
  | case scrut alts default =>
      have hcalls := (Code.case scrut alts default).calls_mapAtoms f
      rw [mapAtoms] at hcalls ⊢
      rw [atoms, atoms, hcalls, List.map_cons, List.flatMap_map, List.map_flatMap]
      rfl

theorem Code.refs_mapAtoms (hf : ∀ a, (f a).defn? = a.defn?) (c : Code) :
    (c.mapAtoms f).refs = c.refs := by
  have hcall (c : BlockCall) : (Tail.call (c.mapAtoms f)).refs = (Tail.call c).refs :=
    (Tail.call c).refs_mapAtoms hf
  induction c with
  | bind vars t next ih => rw [mapAtoms, refs, refs, ih, t.refs_mapAtoms hf]
  | done t => exact t.refs_mapAtoms hf
  | branch cond t e => rw [mapAtoms, refs, refs, hf, hcall, hcall]
  | case scrut alts default =>
      have hcalls := (Code.case scrut alts default).calls_mapAtoms f
      rw [mapAtoms] at hcalls ⊢
      rw [refs, refs, hcalls, hf, List.flatMap_map]
      simp only [hcall]

end Operands

/-! ### Copies -/

theorem freshLike_spec (temps : TempTypes) (ts : List Temp) :
    (temps.freshLike ts).2.size = temps.size + ts.length ∧
      (temps.freshLike ts).1 = List.range' temps.size ts.length := by
  have h := temps.freshAll_spec (ts.map temps.typeOf)
  rw [List.length_map] at h
  exact h

theorem le_size_copy (c : Code) (ρ : Replacement) (temps : TempTypes) :
    temps.size ≤ (c.copy ρ temps).2.size := by
  induction c generalizing ρ temps with
  | bind vars t next ih =>
      unfold Code.copy
      refine Nat.le_trans ?_ (ih _ _)
      rw [(freshLike_spec temps vars).1]
      exact Nat.le_add_right _ _
  | done t => exact Nat.le_refl _
  | branch cond c d => exact Nat.le_refl _
  | case scrut alts default => exact Nat.le_refl _

theorem atomsBelow_copy {c : Code} {ρ : Replacement} {temps : TempTypes}
    (hc : AtomsBelow temps.size c.atoms) (hρ : Below ρ temps.size) :
    AtomsBelow (c.copy ρ temps).2.size (c.copy ρ temps).1.atoms := by
  have hsame (c : Code) (hc : AtomsBelow temps.size c.atoms) :
      AtomsBelow temps.size (c.mapAtoms ρ.atom).atoms := by
    rw [Code.atoms_mapAtoms]
    exact hc.map_atom hρ
  induction c generalizing ρ temps with
  | bind vars t next ih =>
      obtain ⟨hsize, hfresh⟩ := freshLike_spec temps vars
      have hle : temps.size ≤ (temps.freshLike vars).2.size := by omega
      have hρ' : Below (ρ.extend vars ((temps.freshLike vars).1.map .temp))
          (temps.freshLike vars).2.size := by
        rw [hfresh, hsize]
        exact hρ.extend vars vars.length
      have hnext : AtomsBelow temps.size next.atoms :=
        fun u hu => hc u (List.mem_append_right _ hu)
      unfold Code.copy
      refine AtomsBelow.append ?_ (ih (hnext.mono hle) hρ' fun c hc => ?_)
      · rw [Tail.atoms_mapAtoms]
        refine AtomsBelow.mono (AtomsBelow.map_atom (fun u hu => ?_) hρ)
          (Nat.le_trans hle (le_size_copy next _ _))
        exact hc u (List.mem_append_left _ hu)
      · rw [Code.atoms_mapAtoms]
        exact hc.map_atom hρ'
  | done t => exact hsame _ hc
  | branch cond c d => exact hsame _ hc
  | case scrut alts default => exact hsame _ hc

/-- A copy refers to what the code refers to, and calls what the code calls. -/
theorem refs_copy {ρ : Replacement} (hρ : TempsOnly ρ) (c : Code) (temps : TempTypes) :
    (c.copy ρ temps).1.refs = c.refs ∧
      (c.copy ρ temps).1.allCalls.map BlockCall.block = c.allCalls.map BlockCall.block := by
  have hsame {ρ : Replacement} (hρ : TempsOnly ρ) (c : Code) : (c.mapAtoms ρ.atom).refs = c.refs ∧
      (c.mapAtoms ρ.atom).allCalls.map BlockCall.block = c.allCalls.map BlockCall.block := by
    refine ⟨Code.refs_mapAtoms hρ.defn?_atom c, ?_⟩
    rw [Code.allCalls_mapAtoms, List.map_map]
    rfl
  induction c generalizing ρ temps with
  | bind vars t next ih =>
      obtain ⟨hrefs, hcalls⟩ := ih (hρ.extend vars (temps.freshLike vars).1) (temps.freshLike vars).2
      have htail : (t.mapAtoms ρ.atom).call?.toList.map BlockCall.block =
          t.call?.toList.map BlockCall.block := by
        cases t <;> rfl
      unfold Code.copy
      refine ⟨?_, ?_⟩
      · rw [Code.refs, Code.refs, hrefs, t.refs_mapAtoms hρ.defn?_atom]
      · rw [Code.allCalls, Code.allCalls, List.map_append, List.map_append, hcalls, htail]
  | done t => exact hsame hρ _
  | branch cond c d => exact hsame hρ _
  | case scrut alts default => exact hsame hρ _

end Mil
