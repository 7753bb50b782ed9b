import Mathlib.Data.List.Nodup
import Mil.Proofs.Rtl.Graph
import Mil.Rtl.Builder

/-!
Symbols. A symbol is given out once: the symbols of definitions, of the code of closures and those
that were taken before are all different. Later requests leave the symbols of earlier ones alone.
-/

namespace Mil.Rtl.Symbols

/-! ### A symbol that is not in use -/

/-- A number can be read back from its text. -/
theorem repr_injective {m n : Nat} (h : m.repr = n.repr) : m = n := by
  rw [Nat.repr_eq_ofList_toDigits, Nat.repr_eq_ofList_toDigits] at h
  have hdigits : Nat.toDigits 10 m = Nat.toDigits 10 n := by
    simpa using congrArg String.toList h
  rw [← Nat.ofDigitChars_toDigits (b := 10) (n := m) (by decide) (by decide), hdigits,
    Nat.ofDigitChars_toDigits (by decide) (by decide)]

theorem numbered_injective (name : String) : Function.Injective (numbered name) := by
  have hlength : ∀ n : Nat, (name ++ "_" ++ toString n).length ≠ name.length := by
    intro n
    rw [String.length_append, String.length_append]
    have : "_".length = 1 := rfl
    omega
  intro m n h
  unfold numbered at h
  split at h <;> split at h
  · omega
  · exact absurd (congrArg String.length h).symm (hlength n)
  · exact absurd (congrArg String.length h) (hlength m)
  · exact repr_injective ((String.append_right_inj _).mp h)

/-- Among more forms of a name than there are symbols in use, one is free. -/
theorem exists_numbered_not_mem (s : Symbols) (name : String) :
    ∃ n < s.used.length + 1, numbered name n ∉ s.used := by
  by_contra hall
  have hused : ∀ n < s.used.length + 1, numbered name n ∈ s.used := fun n hn => by
    by_contra hfree
    exact hall ⟨n, hn, hfree⟩
  have hnodup : ((List.range (s.used.length + 1)).map (numbered name)).Nodup :=
    List.nodup_range.map (numbered_injective name)
  have hle := hnodup.length_le_of_subset fun x hx => by
    obtain ⟨n, hn, rfl⟩ := List.mem_map.mp hx
    exact hused n (List.mem_range.mp hn)
  rw [List.length_map, List.length_range] at hle
  omega

theorem available_not_mem (s : Symbols) (name : String) : s.available name ∉ s.used := by
  obtain ⟨n, hn, hfree⟩ := s.exists_numbered_not_mem name
  unfold available
  cases hfind : ((List.range (s.used.length + 1)).map (numbered name)).find? fun n => n ∉ s.used with
  | none =>
      have := List.find?_eq_none.mp hfind _ (List.mem_map_of_mem (List.mem_range.mpr hn))
      simp [hfree] at this
  | some found => simpa using List.find?_some hfind

/-! ### Different symbols -/

/-- The symbols that were given out are in use, and different from each other and from those that
were taken before. -/
structure Sound (taken : List String) (s : Symbols) : Prop where
  reserved : ∀ {n}, n ∈ taken → n ∈ s.used
  names : ∀ {id n}, s.names.lookup id = some n → n ∈ s.used ∧ n ∉ taken
  codes : ∀ {id n}, s.codeNames.lookup id = some n → n ∈ s.used ∧ n ∉ taken
  names_inj : ∀ {i j n}, s.names.lookup i = some n → s.names.lookup j = some n → i = j
  codes_inj : ∀ {i j n}, s.codeNames.lookup i = some n → s.codeNames.lookup j = some n → i = j
  apart : ∀ {i j n}, s.names.lookup i = some n → s.codeNames.lookup j ≠ some n

/-- More symbols were given out, and those from before are as they were. -/
structure Le (s s' : Symbols) : Prop where
  names : ∀ {id n}, s.names.lookup id = some n → s'.names.lookup id = some n
  codes : ∀ {id n}, s.codeNames.lookup id = some n → s'.codeNames.lookup id = some n
  used : s.used ⊆ s'.used
  sound : ∀ {taken}, s.Sound taken → s'.Sound taken

theorem Le.refl (s : Symbols) : s.Le s := ⟨id, id, fun _ h => h, id⟩

theorem Le.trans {s₁ s₂ s₃ : Symbols} (h : s₁.Le s₂) (h' : s₂.Le s₃) : s₁.Le s₃ :=
  ⟨fun hn => h'.names (h.names hn), fun hn => h'.codes (h.codes hn), fun _ hn => h'.used (h.used hn),
    fun hs => h'.sound (h.sound hs)⟩

section Requests

variable {s : Symbols} {taken : List String} {id : DefnId} {name : String}

theorem le_reserve (s : Symbols) (name : String) : s.Le (s.reserve name).2 where
  names h := h
  codes h := h
  used _ h := .tail _ h
  sound h :=
    { h with
      reserved := fun hn => .tail _ (h.reserved hn)
      names := fun hn => ⟨.tail _ (h.names hn).1, (h.names hn).2⟩
      codes := fun hn => ⟨.tail _ (h.codes hn).1, (h.codes hn).2⟩ }

/-- A symbol that is made from a name is none of those that were given out. -/
theorem Sound.reserve (h : s.Sound taken) (name : String) :
    (s.reserve name).2.Sound ((s.reserve name).1 :: taken) := by
  have hfree := s.available_not_mem name
  have h' := (s.le_reserve name).sound h
  refine { h' with reserved := fun hn => ?_, names := fun hn => ?_, codes := fun hn => ?_ }
  · rcases List.mem_cons.mp hn with rfl | hn
    · exact .head _
    · exact h'.reserved hn
  · refine ⟨(h'.names hn).1, fun hmem => ?_⟩
    rcases List.mem_cons.mp hmem with rfl | hmem
    · exact hfree (h.names hn).1
    · exact (h'.names hn).2 hmem
  · refine ⟨(h'.codes hn).1, fun hmem => ?_⟩
    rcases List.mem_cons.mp hmem with rfl | hmem
    · exact hfree (h.codes hn).1
    · exact (h'.codes hn).2 hmem

/-- A definition gets a symbol that was not in use. -/
theorem le_addName (hnone : s.names.lookup id = none) (hfree : name ∉ s.used) :
    s.Le { s with names := (id, name) :: s.names, used := name :: s.used } where
  names hn := lookup_cons_of_none hnone hn
  codes hn := hn
  used _ h := .tail _ h
  sound {taken} h := by
    constructor
    · exact fun hn => .tail _ (h.reserved hn)
    · intro i n hn
      rcases lookup_cons_eq_some hn with ⟨-, rfl⟩ | hn
      · exact ⟨.head _, fun hmem => hfree (h.reserved hmem)⟩
      · exact ⟨.tail _ (h.names hn).1, (h.names hn).2⟩
    · exact fun hn => ⟨.tail _ (h.codes hn).1, (h.codes hn).2⟩
    · intro i j n hi hj
      rcases lookup_cons_eq_some hi with ⟨rfl, rfl⟩ | hi' <;>
        rcases lookup_cons_eq_some hj with ⟨rfl, hn⟩ | hj'
      · rfl
      · exact absurd (h.names hj').1 hfree
      · exact absurd (hn ▸ (h.names hi').1) hfree
      · exact h.names_inj hi' hj'
    · exact h.codes_inj
    · intro i j n hi hj
      rcases lookup_cons_eq_some hi with ⟨-, rfl⟩ | hi
      · exact hfree (h.codes hj).1
      · exact h.apart hi hj

/-- The code of a closure gets a symbol that was not in use. -/
theorem le_addCode (hnone : s.codeNames.lookup id = none) (hfree : name ∉ s.used) :
    s.Le { s with codeNames := (id, name) :: s.codeNames, used := name :: s.used } where
  names hn := hn
  codes hn := lookup_cons_of_none hnone hn
  used _ h := .tail _ h
  sound {taken} h := by
    constructor
    · exact fun hn => .tail _ (h.reserved hn)
    · exact fun hn => ⟨.tail _ (h.names hn).1, (h.names hn).2⟩
    · intro i n hn
      rcases lookup_cons_eq_some hn with ⟨-, rfl⟩ | hn
      · exact ⟨.head _, fun hmem => hfree (h.reserved hmem)⟩
      · exact ⟨.tail _ (h.codes hn).1, (h.codes hn).2⟩
    · exact h.names_inj
    · intro i j n hi hj
      rcases lookup_cons_eq_some hi with ⟨rfl, rfl⟩ | hi' <;>
        rcases lookup_cons_eq_some hj with ⟨rfl, hn⟩ | hj'
      · rfl
      · exact absurd (h.codes hj').1 hfree
      · exact absurd (hn ▸ (h.codes hi').1) hfree
      · exact h.codes_inj hi' hj'
    · intro i j n hi hj
      rcases lookup_cons_eq_some hj with ⟨-, rfl⟩ | hj
      · exact hfree (h.names hi).1
      · exact h.apart hi hj

end Requests

section Definitions

variable (s : Symbols) (p : Mil.Program) (id : DefnId)

theorem le_ofDefn : s.Le (s.ofDefn p id).2 := by
  unfold ofDefn
  split
  · exact .refl s
  · rename_i hnone
    exact le_addName hnone (s.available_not_mem _)

theorem lookup_ofDefn : (s.ofDefn p id).2.names.lookup id = some (s.ofDefn p id).1 := by
  unfold ofDefn
  split
  · assumption
  · exact (lookup_cons_ite id id _ _).trans (if_pos rfl)

theorem codeNames_ofDefn : (s.ofDefn p id).2.codeNames = s.codeNames := by
  unfold ofDefn
  split <;> rfl

theorem le_ofCode : s.Le (s.ofCode p id).2 := by
  unfold ofCode
  split
  · exact .refl s
  · rename_i hnone
    rw [← s.codeNames_ofDefn p id] at hnone
    exact (s.le_ofDefn p id).trans (le_addCode hnone (available_not_mem _ _))

theorem lookup_ofCode : (s.ofCode p id).2.codeNames.lookup id = some (s.ofCode p id).1 := by
  unfold ofCode
  split
  · assumption
  · exact (lookup_cons_ite id id _ _).trans (if_pos rfl)

end Definitions

end Mil.Rtl.Symbols
