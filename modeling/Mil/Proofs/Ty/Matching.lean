import Mil.Proofs.Ty.Descent
import Mil.Proofs.Ty.Instance

/-!
One-way matching decides whether a pattern has an instance, and finds the types that make it one. A
match that succeeds fills the slots of the quantified variables that occur in the pattern and no
others, and with the types of the filled slots in place of the variables the pattern is the instance.
Conversely the slots agree with all types that make the pattern the instance, so the types that are
found are the only ones.
-/

namespace Mil

open Ty (Occurs)

namespace Slots

/-- The slots that are filled stay as they are. -/
def Le (slots slots' : Slots) : Prop :=
  slots'.length = slots.length ∧
    ∀ (m : Nat) (u : Ty), slots[m]? = some (some u) → slots'[m]? = some (some u)

theorem Le.refl (slots : Slots) : slots.Le slots := ⟨rfl, fun _ _ h => h⟩

theorem Le.trans {a b c : Slots} (h : a.Le b) (h' : b.Le c) : a.Le c :=
  ⟨h'.1.trans h.1, fun m u hu => h'.2 m u (h.2 m u hu)⟩

theorem Le.agreesWith {a b : Slots} {types : List Ty} (h : a.Le b) (hb : Ty.AgreesWith b types) :
    Ty.AgreesWith a types :=
  ⟨h.1.symm.trans hb.1, fun m u hu => hb.2 m u (h.2 m u hu)⟩

/-- The slot holds a type. -/
def Filled (slots : Slots) (m : Nat) : Prop := ∃ u, slots[m]? = some (some u)

theorem filled_set {slots : Slots} {n : Nat} {t : Ty} (hn : n < slots.length) {m : Nat} :
    Filled (slots.set n (some t)) m ↔ slots.Filled m ∨ m = n := by
  by_cases hm : m = n
  · subst hm
    exact ⟨fun _ => .inr rfl, fun _ => ⟨t, List.getElem?_set_self hn⟩⟩
  · rw [Filled, List.getElem?_set_ne (Ne.symm hm)]
    exact (or_iff_left hm).symm

theorem not_filled_ofKinds (kinds : List Kind) (m : Nat) : ¬ (ofKinds kinds).Filled m := by
  rintro ⟨u, hu⟩
  rw [ofKinds, List.getElem?_map, Option.map_eq_some_iff] at hu
  obtain ⟨k, -, hk⟩ := hu
  cases hk

/-- Slots with defaults in place of the empty ones. -/
theorem agreesWith_fill {kinds : List Kind} {slots : Slots} (h : slots.length = kinds.length) :
    Ty.AgreesWith slots (slots.fill kinds) := by
  refine ⟨by rw [fill, List.length_map, List.length_zipIdx, h], fun m u hu => ?_⟩
  have hm : m < kinds.length := h ▸ (List.getElem?_eq_some_iff.mp hu).1
  rw [fill, List.getElem?_map, List.getElem?_zipIdx, List.getElem?_eq_getElem hm, Option.map_some,
    Option.map_some, Nat.zero_add]
  simp only [hu, Option.join_some, Option.getD_some]

end Slots

namespace Ty

mutual

/-- What a pattern was matched with is the pattern at the types of the slots. -/
theorem matchInto_sound : (p t : Ty) → {slots slots' : Slots} →
    matchInto p t slots = (true, slots') →
    slots.Le slots' ∧ ∀ types, AgreesWith slots' types → p.instantiate types = t
  | .gen n, t, slots, slots', h => by
    rw [matchInto] at h
    split at h
    · cases h
    · rename_i hnone
      cases h
      refine ⟨⟨List.length_set, fun m u hu => ?_⟩, fun types htypes => ?_⟩
      · rw [List.getElem?_set_ne, hu]
        rintro rfl
        rw [hnone] at hu
        cases hu
      · have hn : n < slots.length := (List.getElem?_eq_some_iff.mp hnone).1
        have hset := htypes.2 n t (by rw [List.getElem?_set_self hn])
        rw [instantiate, subst_gen, hset, Option.getD_some]
    · rename_i u hsome
      obtain ⟨hut, rfl⟩ := Prod.mk.inj h
      refine ⟨.refl _, fun types htypes => ?_⟩
      rw [instantiate, subst_gen, htypes.2 n u hsome, Option.getD_some]
      exact (beq_iff_eq _ _).mp hut
  | .ap f a, t, slots, slots', h => by
    cases t with
    | ap g b =>
        rw [matchInto] at h
        split at h
        · rename_i slots₁ hf
          obtain ⟨hle, hfun⟩ := matchInto_sound f g hf
          obtain ⟨hle', harg⟩ := matchInto_sound a b h
          refine ⟨hle.trans hle', fun types htypes => ?_⟩
          rw [instantiate, subst_ap]
          exact congrArg₂ Ty.ap (hfun types (hle'.agreesWith htypes)) (harg types htypes)
        · rename_i hnot
          exact absurd h (hnot _)
    | _ => cases congrArg Prod.fst h
  | .tuple ps, t, slots, slots', h => by
    cases t with
    | tuple ts =>
        rw [matchInto] at h
        split at h
        · cases h
        · rename_i hlen
          obtain ⟨hle, hlist⟩ := matchList_sound ps ts (not_not.mp hlen) h
          refine ⟨hle, fun types htypes => ?_⟩
          rw [instantiate, subst_tuple]
          exact congrArg Ty.tuple (hlist types htypes)
    | _ => cases congrArg Prod.fst h
  | .var v, t, slots, slots', h => by
    obtain ⟨heq, rfl⟩ := Prod.mk.inj h
    exact ⟨.refl _, fun _ _ => (beq_iff_eq _ _).mp heq⟩
  | .con c, t, slots, slots', h => by
    obtain ⟨heq, rfl⟩ := Prod.mk.inj h
    exact ⟨.refl _, fun _ _ => (beq_iff_eq _ _).mp heq⟩
  | .nat n, t, slots, slots', h => by
    obtain ⟨heq, rfl⟩ := Prod.mk.inj h
    exact ⟨.refl _, fun _ _ => (beq_iff_eq _ _).mp heq⟩

theorem matchList_sound : (ps ts : List Ty) → {slots slots' : Slots} → ps.length = ts.length →
    matchList ps ts slots = (true, slots') →
    slots.Le slots' ∧ ∀ types, AgreesWith slots' types → ps.map (instantiate types) = ts
  | [], ts, slots, slots', hlen, h => by
    obtain rfl := List.length_eq_zero_iff.mp hlen.symm
    cases h
    exact ⟨.refl _, fun _ _ => rfl⟩
  | p :: ps, ts, slots, slots', hlen, h => by
    cases ts with
    | nil => cases hlen
    | cons t ts =>
        rw [matchList] at h
        split at h
        · rename_i slots₁ hp
          obtain ⟨hle, hhead⟩ := matchInto_sound p t hp
          obtain ⟨hle', htail⟩ := matchList_sound ps ts (Nat.succ.inj hlen) h
          refine ⟨hle.trans hle', fun types htypes => ?_⟩
          rw [List.map_cons, hhead types (hle'.agreesWith htypes), htail types htypes]
        · rename_i hnot
          exact absurd h (hnot _)

end

mutual

/-- A match fills the slots of the quantified variables that occur in the pattern. -/
theorem matchInto_filled : (p t : Ty) → {slots slots' : Slots} →
    matchInto p t slots = (true, slots') →
    ∀ m, slots'.Filled m ↔ slots.Filled m ∨ Occurs (.gen m) p
  | .gen n, t, slots, slots', h, m => by
    rw [matchInto] at h
    rw [occurs_gen, Leaf.gen.injEq]
    split at h
    · cases h
    · rename_i hnone
      cases h
      exact Slots.filled_set (List.getElem?_eq_some_iff.mp hnone).1
    · rename_i u hsome
      obtain ⟨-, rfl⟩ := Prod.mk.inj h
      refine ⟨.inl, fun hm => hm.elim id ?_⟩
      rintro rfl
      exact ⟨u, hsome⟩
  | .ap f a, t, slots, slots', h, m => by
    cases t with
    | ap g b =>
        rw [matchInto] at h
        split at h
        · rename_i slots₁ hf
          rw [matchInto_filled a b h m, matchInto_filled f g hf m, occurs_ap, or_assoc]
        · rename_i hnot
          exact absurd h (hnot _)
    | _ => cases congrArg Prod.fst h
  | .tuple ps, t, slots, slots', h, m => by
    cases t with
    | tuple ts =>
        rw [matchInto] at h
        split at h
        · cases h
        · rename_i hlen
          rw [matchList_filled ps ts (not_not.mp hlen) h m, occurs_tuple]
    | _ => cases congrArg Prod.fst h
  | .var v, t, slots, slots', h, m => by
    obtain ⟨-, rfl⟩ := Prod.mk.inj h
    simp
  | .con c, t, slots, slots', h, m => by
    obtain ⟨-, rfl⟩ := Prod.mk.inj h
    simp
  | .nat n, t, slots, slots', h, m => by
    obtain ⟨-, rfl⟩ := Prod.mk.inj h
    simp

theorem matchList_filled : (ps ts : List Ty) → {slots slots' : Slots} → ps.length = ts.length →
    matchList ps ts slots = (true, slots') →
    ∀ m, slots'.Filled m ↔ slots.Filled m ∨ ∃ p ∈ ps, Occurs (.gen m) p
  | [], ts, slots, slots', hlen, h, m => by
    cases h
    simp
  | p :: ps, ts, slots, slots', hlen, h, m => by
    cases ts with
    | nil => cases hlen
    | cons t ts =>
        rw [matchList] at h
        split at h
        · rename_i slots₁ hp
          rw [matchList_filled ps ts (Nat.succ.inj hlen) h m, matchInto_filled p t hp m,
            List.exists_mem_cons_iff, or_assoc]
        · rename_i hnot
          exact absurd h (hnot _)

end

end Ty

namespace Store

variable {s : Store}

/-- The types of two lists are equal, position by position. -/
def EqualAll (s : Store) (ts us : List Ty) : Prop :=
  List.Forall₂ (fun t u => s.equal t u = true) ts us

theorem equal_iff {t u : Ty} : s.equal t u = true ↔ s.resolve t = s.resolve u :=
  beq_iff_eq

theorem equalAll_iff {ts us : List Ty} :
    s.EqualAll ts us ↔ ts.map s.resolve = us.map s.resolve := by
  rw [EqualAll, ← List.forall₂_eq_eq_eq, List.forall₂_map_left_iff, List.forall₂_map_right_iff]
  simp only [equal_iff]

/-- The quantified variables of all types of a list are among the first `n`. -/
def GensBelow (s : Store) (n : Nat) (ts : List Ty) : Prop :=
  ∀ t ∈ ts, ∀ m, Occurs (.gen m) (s.resolve t) → m < n

/-- What it means that `r` is the right outcome of matching a pattern, from empty slots of the given
kinds, with an instance. `put types` is the pattern with `types` in place of its quantified variables. -/
structure Finds (s : Store) (kinds : List Kind) (pattern : List Ty) (put : List Ty → List Ty)
    (inst : List Ty) (r : Bool × Slots) : Prop where
  /-- Matching succeeds if some types make the pattern the instance, and only then. -/
  succeeds_iff : r.1 = true ↔
    ∃ types : List Ty, types.length = kinds.length ∧ s.EqualAll (put types) inst
  /-- A variable that occurs gets the type that it has in every way to make the instance. -/
  occurring : r.1 = true → ∀ m, (∃ t ∈ pattern, Occurs (.gen m) (s.resolve t)) →
    ∃ u, r.2[m]? = some (some u) ∧
      ∀ types : List Ty, types.length = kinds.length → s.EqualAll (put types) inst →
        ∃ t, types[m]? = some t ∧ s.equal t u = true
  /-- The slots of the other variables stay empty. -/
  others : r.1 = true → ∀ m < kinds.length, (∀ t ∈ pattern, ¬ Occurs (.gen m) (s.resolve t)) →
    r.2[m]? = some none
  /-- The slots, with defaults for the empty ones, make the pattern the instance. -/
  filled : r.1 = true → s.EqualAll (put (r.2.fill kinds)) inst

/-- Putting types in place of quantified variables in what has been read, and reading it again, is
putting in what the types are read as. -/
theorem Ranked.resolve_instantiate (hs : s.Ranked) (t : Ty) (types : List Ty) :
    s.resolve ((s.resolve t).instantiate types) =
      (s.resolve t).instantiate (types.map s.resolve) := by
  rw [hs.resolve_eq, Ty.mapVars, Ty.instantiate, Ty.subst_subst]
  refine Ty.subst_congr fun x hx => ?_
  cases x with
  | var v => exact reading_of_none (hs.unbound_of_occurs hx)
  | gen m =>
      simp only [Ty.Leaf.subst, List.getElem?_map]
      cases types[m]? with
      | none => exact Ty.subst_gen ..
      | some u => exact (hs.resolve_eq u).symm

section Lists

variable {kinds : List Kind} {pattern inst types : List Ty} {slots : Slots}

theorem Ranked.equalAll_instantiate_iff (hs : s.Ranked) :
    s.EqualAll (pattern.map fun t => (s.resolve t).instantiate types) inst ↔
      (pattern.map s.resolve).map (Ty.instantiate (types.map s.resolve)) = inst.map s.resolve := by
  rw [equalAll_iff, List.map_map, List.map_map]
  simp only [Function.comp_def, hs.resolve_instantiate]

/-- If some types make a pattern the instance, then matching finds a way to make it, and one that
agrees with these types. -/
theorem Ranked.matchList_complete (hs : s.Ranked) (hbelow : s.GensBelow kinds.length pattern)
    (hlen : types.length = kinds.length)
    (heq : s.EqualAll (pattern.map fun t => (s.resolve t).instantiate types) inst) :
    ∃ slots, Ty.matchList (pattern.map s.resolve) (inst.map s.resolve) (Slots.ofKinds kinds) =
      (true, slots) ∧ Ty.AgreesWith slots (types.map s.resolve) := by
  have hlen' : (types.map s.resolve).length = kinds.length := by rw [List.length_map, hlen]
  rw [← hs.equalAll_instantiate_iff.mp heq]
  refine Ty.matchList_instantiate _ (fun p hp slots hag => ?_) (Ty.agreesWith_ofKinds hlen')
  obtain ⟨t, ht, rfl⟩ := List.mem_map.mp hp
  exact Ty.matchInto_instantiate (fun m hm => hlen' ▸ hbelow t ht m hm) hag

/-- What a match has found makes the pattern the instance. -/
theorem Ranked.matchList_fill (hs : s.Ranked) (hlen : pattern.length = inst.length)
    (h : Ty.matchList (pattern.map s.resolve) (inst.map s.resolve) (Slots.ofKinds kinds) =
      (true, slots)) :
    slots.length = kinds.length ∧
      s.EqualAll (pattern.map fun t => (s.resolve t).instantiate (slots.fill kinds)) inst := by
  obtain ⟨hle, hsound⟩ := Ty.matchList_sound _ _ (by simpa using hlen) h
  have hkinds : slots.length = kinds.length := by rw [hle.1, Slots.ofKinds, List.length_map]
  have hinst := hsound _ (Slots.agreesWith_fill hkinds)
  rw [List.map_map] at hinst
  refine ⟨hkinds, equalAll_iff.mpr ?_⟩
  rw [show (pattern.map fun t => (s.resolve t).instantiate (slots.fill kinds)) = _ from hinst,
    List.map_map]
  exact List.map_congr_left fun t _ => hs.resolve_resolve t

/-- Matching the parts of a pattern with as many parts of an instance decides whether it is one. -/
theorem Ranked.finds_matchList (hs : s.Ranked) (hbelow : s.GensBelow kinds.length pattern)
    (hlen : pattern.length = inst.length) :
    s.Finds kinds pattern
      (fun types => pattern.map fun t => (s.resolve t).instantiate types) inst
      (Ty.matchList (pattern.map s.resolve) (inst.map s.resolve) (Slots.ofKinds kinds)) := by
  generalize hr : Ty.matchList (pattern.map s.resolve) (inst.map s.resolve) (Slots.ofKinds kinds) = r
  obtain ⟨ok, slots⟩ := r
  have hfilled (hok : ok = true) (m : Nat) :
      slots.Filled m ↔ ∃ t ∈ pattern, Occurs (.gen m) (s.resolve t) := by
    rw [Ty.matchList_filled _ _ (by simpa using hlen) (hok ▸ hr) m,
      or_iff_right (Slots.not_filled_ofKinds kinds m)]
    simp only [List.mem_map, exists_exists_and_eq_and]
  have hfill (hok : ok = true) := hs.matchList_fill hlen (hok ▸ hr)
  refine ⟨⟨fun hok => ?_, ?_⟩, fun hok m hm => ?_, fun hok m hm hnot => ?_, fun hok => (hfill hok).2⟩
  · obtain ⟨hkinds, heq⟩ := hfill hok
    exact ⟨slots.fill kinds, by rw [Slots.fill, List.length_map, List.length_zipIdx], heq⟩
  · rintro ⟨types, htypes, heq⟩
    obtain ⟨slots', hmatch, -⟩ := hs.matchList_complete hbelow htypes heq
    rw [hr] at hmatch
    exact congrArg Prod.fst hmatch
  · obtain ⟨u, hu⟩ := (hfilled hok m).mpr hm
    refine ⟨u, hu, fun types htypes heq => ?_⟩
    obtain ⟨slots', hmatch, hag⟩ := hs.matchList_complete hbelow htypes heq
    obtain rfl : slots' = slots := congrArg Prod.snd (hmatch.symm.trans hr)
    have hget := hag.2 m u hu
    rw [List.getElem?_map, Option.map_eq_some_iff] at hget
    obtain ⟨t, ht, rfl⟩ := hget
    exact ⟨t, ht, equal_iff.mpr (hs.resolve_resolve t).symm⟩
  · have hlt : m < slots.length := (hfill hok).1.symm ▸ hm
    have hempty : ¬ slots.Filled m := fun h => by
      obtain ⟨t, ht, hocc⟩ := (hfilled hok m).mp h
      exact hnot t ht hocc
    rw [List.getElem?_eq_getElem hlt]
    cases hslot : slots[m] with
    | none => rfl
    | some u => exact absurd ⟨u, by rw [List.getElem?_eq_getElem hlt, hslot]⟩ hempty

end Lists

/-- Matching decides, for types, block types and allocation types, whether the pattern has the
instance, and finds the types that make it one. -/
theorem finds_matchInto (hs : s.Ranked) (kinds : List Kind) :
    (∀ pattern inst : Ty, s.GensBelow kinds.length [pattern] →
      s.Finds kinds [pattern] (fun types => [(s.resolve pattern).instantiate types]) [inst]
        (s.matchInto pattern inst (Slots.ofKinds kinds))) ∧
    (∀ pattern inst : BlockType, s.GensBelow kinds.length pattern.parts →
      s.Finds kinds pattern.parts (fun types => (pattern.instantiateWith s types).parts) inst.parts
        (pattern.matchInto s inst (Slots.ofKinds kinds))) ∧
    ∀ pattern inst : AllocType, s.GensBelow kinds.length pattern.parts →
      s.Finds kinds pattern.parts (fun types => (pattern.instantiateWith s types).parts) inst.parts
        (pattern.matchInto s inst (Slots.ofKinds kinds)) := by
  refine ⟨fun pattern inst hbelow => ?_, fun pattern inst hbelow => ?_,
    fun pattern inst hbelow => ?_⟩
  · rw [matchInto_eq]
    exact hs.finds_matchList hbelow rfl
  · rw [BlockType.matchInto_eq]
    exact hs.finds_matchList hbelow rfl
  · have hput : (fun types => (pattern.instantiateWith s types).parts) =
        fun types => pattern.parts.map fun t => (s.resolve t).instantiate types :=
      funext fun types => AllocType.parts_mapTypes ..
    rw [hput]
    by_cases hlen : pattern.stored.length = inst.stored.length
    · rw [AllocType.matchInto_eq hlen]
      exact hs.finds_matchList hbelow (by simp [AllocType.parts, hlen])
    · -- no types make up for a field too many
      have hno (types : List Ty) :
          ¬ s.EqualAll (pattern.parts.map fun t => (s.resolve t).instantiate types) inst.parts := by
        intro h
        have hparts := h.length_eq
        simp only [AllocType.parts, List.length_map, List.length_append, List.length_singleton]
          at hparts
        exact hlen (Nat.succ.inj hparts)
      rw [AllocType.matchInto, if_pos hlen]
      have hfails : ¬ false = true := Bool.false_ne_true
      exact ⟨⟨fun h => absurd h hfails, fun h => h.elim fun types h => absurd h.2 (hno types)⟩,
        fun h => absurd h hfails, fun h => absurd h hfails, fun h => absurd h hfails⟩

/-- One variable that is bound to words, and one that is unbound. -/
def oneBound : Store := ⟨#[⟨.star, some .word⟩, ⟨.star, none⟩]⟩

theorem ranked_oneBound : oneBound.Ranked := by
  refine ⟨fun _ => 0, fun v b hb w hw => ?_⟩
  match v, hb with
  | 0, rfl => cases Ty.not_occurs_con hw
  | 1, hb => cases hb
  | v + 2, hb => cases hb

/-- A pattern with a quantified variable that occurs twice, around a bound variable. -/
def twice : BlockType :=
  ⟨[.star, .star, .nat], .tuple [.gen 0, .var 0, .gen 0], .tuple [.gen 1, .var 1]⟩

/-- An instance with two types in place of the repeated variable. -/
def twiceAt (t u : Ty) : BlockType := ⟨[], .tuple [t, .word, u], .tuple [.flag, .var 1]⟩

theorem gensBelow_twice : oneBound.GensBelow twice.kinds.length twice.parts := by
  refine List.forall_mem_cons.mpr ⟨fun m hm => ?_, List.forall_mem_cons.mpr ⟨fun m hm => ?_, nofun⟩⟩
  · change Occurs (.gen m) (.tuple [.gen 0, .word, .gen 0]) at hm
    obtain rfl : m = 0 := by simpa [Ty.word] using hm
    decide
  · change Occurs (.gen m) (.tuple [.gen 1, .var 1]) at hm
    obtain rfl : m = 1 := by simpa using hm
    decide

theorem finds_matchInto_twice :
    twice.matchInto oneBound (twiceAt (.tuple [.var 0, .gen 1]) (.tuple [.word, .gen 1]))
        (Slots.ofKinds twice.kinds) = (true, [some (.tuple [.word, .gen 1]), some .flag, none]) ∧
      (∀ types : List Ty, types.length = 3 →
        oneBound.EqualAll (twice.instantiateWith oneBound types).parts
          (twiceAt (.tuple [.var 0, .gen 1]) (.tuple [.word, .gen 1])).parts →
        ∃ t, types[0]? = some t ∧ oneBound.equal t (.tuple [.word, .gen 1]) = true) ∧
      ¬ ∃ types : List Ty, types.length = 3 ∧
        oneBound.EqualAll (twice.instantiateWith oneBound types).parts
          (twiceAt .word (.var 1)).parts := by
  obtain ⟨-, hblock, -⟩ := finds_matchInto ranked_oneBound twice.kinds
  have hmatch := hblock twice (twiceAt (.tuple [.var 0, .gen 1]) (.tuple [.word, .gen 1]))
    gensBelow_twice
  have hclash := hblock twice (twiceAt .word (.var 1)) gensBelow_twice
  refine ⟨rfl, fun types hlen heq => ?_, fun hexists => ?_⟩
  · obtain ⟨u, hu, hall⟩ := hmatch.occurring rfl 0 ⟨_, .head _, .elem (.head _) .leaf⟩
    cases hu
    exact hall types hlen heq
  · cases hclash.succeeds_iff.mpr hexists

end Store

end Mil
