import Mil.Proofs.Ty.Renaming
import Mil.Proofs.Ty.Spelling

/-!
Printing and reading types are inverse. The text of a well-kinded type is read as the same type up to a
renaming of its quantified variables, and so are the texts of block types and of allocation types.
Texts therefore tell types apart that quantify nothing, and can stand for them in tables.
-/

namespace Mil

namespace Ty

/-! ### Reading -/

section Reading

variable {t : Ty} {names : List String}

/-- A type is what is read for it, up to the names of its quantified variables. -/
theorem rename?_renamed (hnames : Names names t) : (rename? t (renamed names t) .empty).isSome = true := by
  have hinj : Set.InjOn (fun n => names.idxOf (genName n)) {n | genName n ∈ names} :=
    fun a ha b _ h => Reader.genName_injective ((List.idxOf_inj ha).mp h)
  obtain ⟨m, hm, -⟩ := exists_rename? (Set.injOn_id Set.univ) hinj (fun _ _ => trivial) hnames
    along_empty
  exact Option.isSome_iff_exists.mpr ⟨m, hm⟩

theorem renamed_of_closed (ht : t.Closed 0) : renamed names t = t := by
  conv_rhs => rw [← subst_var_gen t]
  refine subst_congr fun x hx => ?_
  cases x with
  | var v => rfl
  | gen n => exact absurd (ht.gen hx) (Nat.not_lt_zero n)

end Reading

namespace Reader

/-! ### Reading a whole text -/

/-- Nothing follows. -/
def Nothing (more : List String) : Prop := more = []

section Whole

variable {α β : Type} {E : Env} {κ : Nat → Kind} {t : Ty} {k : Kind} {ls names names' : List String}
  {F G : List String → Prop}

/-- There is enough fuel for the lexemes that are left. -/
theorem Reads.fuel {f : Nat → Read β} {b : β}
    (h : ∀ n, 5 * ls.length + 8 ≤ n → Reads G (f n) ls names b names') :
    Reads G (Reader.fuel >>= f) ls names b names' := by
  intro s more hls hnames hmore
  have hle : 5 * ls.length + 8 ≤ 5 * s.lexemes.length + 8 := by
    rw [hls, List.length_append]
    omega
  obtain ⟨s', hf, hrest⟩ := h _ hle s more hls hnames hmore
  refine ⟨s', gives_bind.mpr ⟨_, s, ?_, hf⟩, hrest⟩
  exact gives_bind.mpr ⟨s, s, gives_get.mpr ⟨rfl, rfl⟩, gives_pure.mpr ⟨rfl, rfl⟩⟩

theorem reads_done (names : List String) : Reads Nothing done [] names () names := by
  intro s more hls hnames hmore
  refine ⟨s, gives_bind.mpr ⟨s, s, gives_get.mpr ⟨rfl, rfl⟩, ?_⟩, hls, hnames⟩
  rw [show s.lexemes = [] from hls.trans hmore]
  exact gives_pure.mpr ⟨rfl, rfl⟩

theorem noType_of_nothing {more : List String} (h : Nothing more) : NoType more := by
  rw [show more = [] from h]
  exact ⟨(by decide : startsAtom "" = false), (by decide : "" ≠ "->>")⟩

/-- A well-kinded type is read up to the end of the text. -/
theorem Spells.reads_wholeType (h : Spells E t ls) (names : List String) (hnodup : names.Nodup) :
    ∃ names', Grows names names' ∧ Names names' t ∧
      Reads Nothing (wholeType E) ls names (renamed names' t) names' := by
  obtain ⟨names', hgrows, hnames, hreads⟩ := h.type names hnodup
  refine ⟨names', hgrows, hnames, .fuel fun n hn => ?_⟩
  exact (hreads n (by omega)).last ((reads_done names').last (reads_pure _ _) fun _ h => h)
    fun _ => noType_of_nothing

/-- A reader that takes all lexemes of a text reads the text. -/
theorem Reads.run {x : Read α} {text : String} {a : α} (hlex : Lexes text ls)
    (h : Reads Nothing x ls [] a names) : ∃ s, Reader.run text [] x = .ok (a, s) := by
  obtain ⟨s, hx, -⟩ := h ⟨ls, [], [], 0⟩ [] (List.append_nil ls).symm rfl rfl
  refine ⟨s, ?_⟩
  rw [Reader.run, State.start, hlex.lex]
  exact hx

end Whole

end Reader

end Ty

open Ty.Reader

variable {E : Env} {κ : Nat → Kind} {k : Kind}

/-- The text of a well-kinded type is read as the type with its variables renamed. -/
theorem Scheme.read_render (hE : E.WellNamed) {t : Ty} (ht : t.HasKind E κ k) :
    ∃ kinds names, t.Names names ∧ Scheme.read E t.render = .ok ⟨kinds, t.renamed names⟩ := by
  obtain ⟨ls, hls⟩ := exists_spells hE ht
  obtain ⟨names, -, hnames, hreads⟩ := hls.reads_wholeType [] .nil
  obtain ⟨s, hrun⟩ := hreads.run hls.lexes
  exact ⟨s.kinds, names, hnames, by rw [Scheme.read, hrun]; rfl⟩

/-- The text of a block type is read as the block type with its variables renamed. -/
theorem BlockType.read_key (hE : E.WellNamed) {s : Store} {b : BlockType}
    (hdom : (s.resolve b.dom).HasKind E κ .tuple) (hrng : (s.resolve b.rng).HasKind E κ .tuple) :
    ∃ kinds names, BlockType.read E (b.key s) =
      .ok ⟨kinds, (s.resolve b.dom).renamed names, (s.resolve b.rng).renamed names⟩ := by
  obtain ⟨ls, hls⟩ := exists_spells hE hdom
  obtain ⟨ls', hls'⟩ := exists_spells hE hrng
  have happ {t : Ty} {ls : List String} (h : Spells E t ls) (ht : t.HasKind E κ .tuple) :=
    ReadsAs.app_of_atom (length_pos_of_starts h.starts) (h.atom ht.isAp_of_tuple)
  obtain ⟨names₁, hgrows₁, hnames₁, hreads₁⟩ := happ hls hdom [] .nil
  obtain ⟨names₂, hgrows₂, -, hreads₂⟩ := happ hls' hrng names₁ hgrows₁.nodup
  have hkey : Lexes (b.key s) (ls ++ ">>=" :: ls') := by
    have hsign : " >>= " = " " ++ (">>=" ++ " ") := rfl
    rw [BlockType.key, hsign, String.append_assoc, String.append_assoc, String.append_assoc]
    exact lexes_sides (.inr rfl) hls.lexes hls'.lexes
  have hreads : Reads Nothing (do
      let dom ← app E (← fuel)
      expect ">>="
      let rng ← app E (← fuel)
      done
      setKind dom .tuple
      setKind rng .tuple
      return (dom, rng)) (ls ++ ">>=" :: ls') []
      ((s.resolve b.dom).renamed names₂, (s.resolve b.rng).renamed names₂) names₂ := by
    rw [Ty.renamed_of_grows hgrows₂.before hnames₁]
    refine .fuel fun n hn => (hreads₁ n ?_).bind ?_ fun _ _ => noAtom_cons (by decide) _
    · rw [List.length_append] at hn
      omega
    refine .expect (.fuel fun n hn => ?_)
    refine (hreads₂ n (by omega)).last ?_ fun _ h => (noType_of_nothing h).1
    exact (reads_done names₂).last (.setKind (.setKind (reads_pure _ _))) fun _ h => h
  obtain ⟨s', hrun⟩ := hreads.run hkey
  refine ⟨s'.kinds, names₂, ?_⟩
  unfold BlockType.read
  dsimp only
  rw [hrun]
  rfl

/-- The text of an allocation type is read as the allocation type with its variables renamed. -/
theorem AllocType.read_key (hE : E.WellNamed) {s : Store} {a : AllocType}
    (hstored : ∀ t ∈ a.stored, ∃ k, (s.resolve t).HasKind E κ k)
    (hresult : (s.resolve a.result).HasKind E κ k) :
    ∃ kinds names, AllocType.read E (a.key s) =
      .ok ⟨kinds, a.stored.map fun t => (s.resolve t).renamed names,
        (s.resolve a.result).renamed names⟩ := by
  obtain ⟨lss, hlss⟩ : ∃ lss, List.Forall₂ (Spells E) (a.stored.map s.resolve) lss :=
    exists_forall₂ fun t ht => by
      obtain ⟨u, hu, rfl⟩ := List.mem_map.mp ht
      obtain ⟨k, hk⟩ := hstored u hu
      exact exists_spells hE hk
  obtain ⟨ls, hls⟩ := exists_spells hE hresult
  obtain ⟨names₁, hgrows₁, hnames₁, hreads₁⟩ :=
    reads_list "\x7d" (by decide) (by decide) (by decide) hlss [] .nil
  obtain ⟨names₂, hgrows₂, -, hreads₂⟩ := hls.reads_wholeType names₁ hgrows₁.nodup
  have hkey : Lexes (a.key s) ("\x7b" :: (listLexemes "\x7d" lss ++ ls)) := by
    have htext : a.key s = "\x7b" ++ ((", ".intercalate ((a.stored.map s.resolve).map Ty.render) ++
        "\x7d") ++ (" " ++ (s.resolve a.result).render)) := by
      have hclose : "\x7d " = "\x7d" ++ " " := rfl
      rw [AllocType.key, hclose, List.map_map]
      simp only [String.append_assoc]
      rfl
    rw [htext]
    refine Lexes.bracket (c := '\x7b') rfl (Lexes.append ?_ hls.lexes.blank ?_)
    · exact lexes_list (c := '\x7d') rfl (by decide) (hlss.imp fun _ _ h => h.lexes)
    · exact opens_of_head (a := " ") (c := ' ') (by decide) rfl _
  have hreads : Reads Nothing (do
      expect "\x7b"
      let stored ← list E (← fuel) "\x7d"
      let result ← wholeType E
      return (stored, result)) ("\x7b" :: (listLexemes "\x7d" lss ++ ls)) []
      (a.stored.map fun t => (s.resolve t).renamed names₂, (s.resolve a.result).renamed names₂)
      names₂ := by
    have hmap : (a.stored.map fun t => (s.resolve t).renamed names₂) =
        (a.stored.map s.resolve).map (Ty.renamed names₁) := by
      rw [List.map_map]
      exact List.map_congr_left fun t ht => Ty.renamed_of_grows hgrows₂.before
        (Ty.names_tuple.mp hnames₁ _ (List.mem_map_of_mem ht))
    rw [hmap]
    refine .expect (.fuel fun n hn => (hreads₁ n ?_).bind ?_ fun _ _ => trivial)
    · rw [List.length_append] at hn
      omega
    · exact hreads₂.last (reads_pure _ _) fun _ h => h
  obtain ⟨s', hrun⟩ := hreads.run hkey
  refine ⟨s'.kinds, names₂, ?_⟩
  unfold AllocType.read
  dsimp only
  rw [hrun]
  rfl

/-! ### Texts in tables -/

/-- A well-kinded type that quantifies nothing. -/
def Ty.Plain (E : Env) (t : Ty) : Prop := ∃ κ k, t.HasKind E κ k ∧ t.isGround = true

/-- A well-kinded block type that quantifies nothing. -/
def BlockType.Plain (E : Env) (s : Store) (b : BlockType) : Prop :=
  ∃ κ, ((s.resolve b.dom).HasKind E κ .tuple ∧ s.isGround b.dom = true) ∧
    (s.resolve b.rng).HasKind E κ .tuple ∧ s.isGround b.rng = true

/-- A well-kinded allocation type that quantifies nothing. -/
def AllocType.Plain (E : Env) (s : Store) (a : AllocType) : Prop :=
  ∃ κ, (∀ t ∈ a.stored, (∃ k, (s.resolve t).HasKind E κ k) ∧ s.isGround t = true) ∧
    (∃ k, (s.resolve a.result).HasKind E κ k) ∧ s.isGround a.result = true

section Plain

variable {s s' : Store}

theorem renamed_of_isGround {t : Ty} (h : s.isGround t = true) (names : List String) :
    (s.resolve t).renamed names = s.resolve t :=
  Ty.renamed_of_closed ((Ty.isGround_iff_closed _).mp h)

theorem Ty.Plain.render_injective (hE : E.WellNamed) {t u : Ty} (ht : t.Plain E) (hu : u.Plain E)
    (h : t.render = u.render) : t = u := by
  obtain ⟨κ, k, ht, htg⟩ := ht
  obtain ⟨κ', k', hu, hug⟩ := hu
  obtain ⟨kinds, names, -, hread⟩ := Scheme.read_render hE ht
  obtain ⟨kinds', names', -, hread'⟩ := Scheme.read_render hE hu
  rw [Ty.renamed_of_closed ((Ty.isGround_iff_closed _).mp htg)] at hread
  rw [Ty.renamed_of_closed ((Ty.isGround_iff_closed _).mp hug), ← h, hread] at hread'
  cases hread'
  rfl

theorem BlockType.Plain.key_injective (hE : E.WellNamed) {b b' : BlockType} (hb : b.Plain E s)
    (hb' : b'.Plain E s') (h : b.key s = b'.key s') :
    s.resolve b.dom = s'.resolve b'.dom ∧ s.resolve b.rng = s'.resolve b'.rng := by
  obtain ⟨κ, ⟨hdom, hdomg⟩, hrng, hrngg⟩ := hb
  obtain ⟨κ', ⟨hdom', hdomg'⟩, hrng', hrngg'⟩ := hb'
  obtain ⟨kinds, names, hread⟩ := BlockType.read_key hE hdom hrng
  obtain ⟨kinds', names', hread'⟩ := BlockType.read_key hE hdom' hrng'
  rw [renamed_of_isGround hdomg, renamed_of_isGround hrngg] at hread
  rw [renamed_of_isGround hdomg', renamed_of_isGround hrngg', ← h, hread] at hread'
  injection hread' with hread'
  injection hread' with _ hdom hrng
  exact ⟨hdom, hrng⟩

theorem AllocType.Plain.key_injective (hE : E.WellNamed) {a a' : AllocType} (ha : a.Plain E s)
    (ha' : a'.Plain E s') (h : a.key s = a'.key s') :
    a.stored.map s.resolve = a'.stored.map s'.resolve ∧ s.resolve a.result = s'.resolve a'.result := by
  obtain ⟨κ, hstored, ⟨k, hresult⟩, hresultg⟩ := ha
  obtain ⟨κ', hstored', ⟨k', hresult'⟩, hresultg'⟩ := ha'
  obtain ⟨kinds, names, hread⟩ := AllocType.read_key hE (fun t ht => (hstored t ht).1) hresult
  obtain ⟨kinds', names', hread'⟩ := AllocType.read_key hE (fun t ht => (hstored' t ht).1) hresult'
  rw [renamed_of_isGround hresultg, List.map_congr_left fun t ht =>
    renamed_of_isGround (hstored t ht).2 names] at hread
  rw [renamed_of_isGround hresultg', List.map_congr_left fun t ht =>
    renamed_of_isGround (hstored' t ht).2 names', ← h, hread] at hread'
  injection hread' with hread'
  injection hread' with _ hstored hresult
  exact ⟨hstored, hresult⟩

end Plain

/-- Printing and reading types are inverse. The text of a well-kinded type is read as a type that is
equal to it up to renaming, and equal to it if it quantifies nothing. So the texts by which instances and
representations are looked up are different for different types. -/
theorem Env.WellNamed.read_text (hE : E.WellNamed) :
    (∀ κ k (s : Store) (t : Ty), (s.resolve t).HasKind E κ k → ∃ c, Scheme.read E (s.text t) = .ok c ∧
      s.alphaEquiv t c.type = true ∧ (s.isGround t = true → s.equal t c.type = true)) ∧
    (∀ (s s' : Store) (t u : Ty), (s.resolve t).Plain E → (s'.resolve u).Plain E →
      s.text t = s'.text u → s.resolve t = s'.resolve u) ∧
    (∀ (s s' : Store) (b b' : BlockType), b.Plain E s → b'.Plain E s' → b.key s = b'.key s' →
      s.resolve b.dom = s'.resolve b'.dom ∧ s.resolve b.rng = s'.resolve b'.rng) ∧
    ∀ (s s' : Store) (a a' : AllocType), a.Plain E s → a'.Plain E s' → a.key s = a'.key s' →
      a.stored.map s.resolve = a'.stored.map s'.resolve ∧
        s.resolve a.result = s'.resolve a'.result := by
  refine ⟨fun κ k s t ht => ?_, fun s s' t u ht hu h => ht.render_injective hE hu h,
    fun s s' b b' hb hb' h => hb.key_injective hE hb' h,
    fun s s' a a' ha ha' h => ha.key_injective hE ha' h⟩
  obtain ⟨kinds, names, hnames, hread⟩ := Scheme.read_render hE ht
  have hclosed : ((s.resolve t).renamed names).Closed kinds.length :=
    Scheme.closed_read hread _ (.head _)
  have hresolve : s.resolve ((s.resolve t).renamed names) = (s.resolve t).renamed names :=
    hclosed.resolve s
  refine ⟨_, hread, ?_, fun hground => ?_⟩
  · rw [Store.alphaEquiv, hresolve]
    exact Ty.rename?_renamed hnames
  · rw [Store.equal, hresolve, renamed_of_isGround hground]
    exact beq_self_eq_true _

/-- Pairs of two types, and bits of a width in a data type. -/
def pairEnv : Env := ⟨[⟨"Pair", 2, []⟩, ⟨"Maybe", 1, []⟩]⟩

theorem pairEnv_wellNamed : pairEnv.WellNamed := by
  intro d hd
  simp only [pairEnv, List.mem_cons, List.not_mem_nil, or_false] at hd
  rcases hd with rfl | rfl
  · exact ⟨⟨'P', ['a', 'i', 'r'], rfl, by decide +kernel, by decide +kernel,
      List.all_eq_true.mp (by decide +kernel)⟩, by decide⟩
  · exact ⟨⟨'M', ['a', 'y', 'b', 'e'], rfl, by decide +kernel, by decide +kernel,
      List.all_eq_true.mp (by decide +kernel)⟩, by decide⟩

/-- Functions from pairs of a function and an optional bit vector. -/
def pairType : Ty :=
  .func (.tuple [.apply (.con (.data "Pair"))
    [.func (.gen 5) (.tuple [.word]), .apply (.con (.data "Maybe")) [.ap (.con .bit) (.gen 30)]]])
    (.gen 5)

theorem pairType_hasKind :
    pairType.HasKind pairEnv (fun n => if n = 30 then .nat else .tuple) .star := by
  refine .func (.tuple (fun _ => .star) fun t ht => ?_) (.gen 5)
  cases List.mem_singleton.mp ht
  refine .data (d := ⟨"Pair", 2, []⟩) (.head _) rfl (fun _ => .star) fun t ht => ?_
  simp only [List.mem_cons, List.not_mem_nil, or_false] at ht
  rcases ht with rfl | rfl
  · refine .func (.gen 5) (.tuple (fun _ => .star) fun t ht => ?_)
    cases List.mem_singleton.mp ht
    exact .base (.head _)
  · refine .data (d := ⟨"Maybe", 1, []⟩) (.tail _ (.head _)) rfl (fun _ => .star) fun t ht => ?_
    cases List.mem_singleton.mp ht
    exact .sized (.head _) (.gen 30)

theorem read_text_pairType : pairEnv.WellNamed ∧
    Store.empty.text pairType = "[Pair (f ->> [Word]) (Maybe (Bit a30))] ->> f" ∧
    ∃ c, Scheme.read pairEnv "[Pair (f ->> [Word]) (Maybe (Bit a30))] ->> f" = .ok c ∧
      Store.empty.alphaEquiv pairType c.type = true := by
  have htext : Store.empty.text pairType = "[Pair (f ->> [Word]) (Maybe (Bit a30))] ->> f" := by
    decide +kernel
  obtain ⟨c, hread, halpha, -⟩ :=
    pairEnv_wellNamed.read_text.1 _ _ Store.empty pairType pairType_hasKind
  rw [htext] at hread
  exact ⟨pairEnv_wellNamed, htext, c, hread, halpha⟩

end Mil
