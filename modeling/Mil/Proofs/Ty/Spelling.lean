import Mil.Proofs.Ty.Lexing
import Mil.Proofs.Ty.Reader

/-!
Reading what is written. The lexemes of a well-kinded type are read back as the type, with its
quantified variables numbered in the order in which they are met. Each reader has enough fuel if it has
five units for every lexeme that it takes.
-/

namespace Mil

/-- A name that starts with a letter, which is not a lower-case one, and goes on with letters, digits
and underscores. -/
def Capitalised (name : String) : Prop :=
  ∃ c cs, name.toList = c :: cs ∧ Text.isLetter c = true ∧ Text.isLower c = false ∧
    ∀ d ∈ cs, Ty.Reader.isNameChar d = true

/-- The names of data types are capitalised, and none is the name of a built-in type. -/
def Env.WellNamed (E : Env) : Prop :=
  ∀ d ∈ E.datas, Capitalised d.name ∧ ∀ c ∈ Env.builtins, c.name ≠ d.name

namespace Ty

/-- A closed type has a kind, given the kinds of the quantified variables. Functions go from one tuple
to another, `Bit` and `Ix` take a natural, and a data type takes as many types as it has parameters. -/
inductive HasKind (E : Env) (κ : Nat → Kind) : Ty → Kind → Prop
  | gen (n : Nat) : HasKind E κ (.gen n) (κ n)
  | nat (n : Nat) : HasKind E κ (.nat n) .nat
  | tuple {ts : List Ty} (kind : Ty → Kind) (h : ∀ t ∈ ts, HasKind E κ t (kind t)) :
      HasKind E κ (.tuple ts) .tuple
  | func {dom rng : Ty} (hdom : HasKind E κ dom .tuple) (hrng : HasKind E κ rng .tuple) :
      HasKind E κ (.func dom rng) .star
  | base {c : Tycon} (h : c ∈ [Tycon.word, .flag, .nzword, .addr, .unit]) :
      HasKind E κ (.con c) .star
  | sized {c : Tycon} (h : c ∈ [Tycon.bit, .ix]) {a : Ty} (ha : HasKind E κ a .nat) :
      HasKind E κ (.ap (.con c) a) .star
  | data {d : DataType} (hd : d ∈ E.datas) {args : List Ty} (hlen : args.length = d.params)
      (kind : Ty → Kind) (h : ∀ a ∈ args, HasKind E κ a (kind a)) :
      HasKind E κ (apply (.con (.data d.name)) args) .star

/-- What is of the kind of tuples is no application. -/
theorem HasKind.isAp_of_tuple {E : Env} {κ : Nat → Kind} {t : Ty} (h : HasKind E κ t .tuple) :
    t.isAp = false := by
  generalize hk : Kind.tuple = k at h
  cases h with
  | gen n => rfl
  | tuple kind h => rfl
  | nat | func | base | sized | data => cases hk

/-- A type with its quantified variables numbered by the positions of their names. -/
def renamed (names : List String) (t : Ty) : Ty := t.subst .var fun n => .gen (names.idxOf (genName n))

/-- All quantified variables of a type have been met. -/
def Names (names : List String) (t : Ty) : Prop := ∀ n, Occurs (.gen n) t → genName n ∈ names

/-- Names that have been added to others, without one twice. -/
structure Grows (names names' : List String) : Prop where
  before : names <+: names'
  nodup : names'.Nodup

section Renamed

variable {names names' : List String} {t : Ty} {ts : List Ty}

/-- More names do not change the numbers. -/
theorem renamed_of_grows (h : names <+: names') (ht : Names names t) :
    renamed names' t = renamed names t := by
  obtain ⟨more, rfl⟩ := h
  refine subst_congr fun x hx => ?_
  cases x with
  | var v => rfl
  | gen n => exact congrArg Ty.gen (List.idxOf_append_of_mem (ht n hx))

theorem Names.mono (h : Names names t) (hgrows : names <+: names') : Names names' t :=
  fun n hn => hgrows.subset (h n hn)

theorem names_tuple : Names names (.tuple ts) ↔ ∀ t ∈ ts, Names names t := by
  constructor
  · exact fun h t ht n hn => h n (occurs_tuple.mpr ⟨t, ht, hn⟩)
  · intro h n hn
    obtain ⟨t, ht, hn⟩ := occurs_tuple.mp hn
    exact h t ht n hn

theorem names_apply (c : Tycon) (h : Names names (.tuple ts)) : Names names (apply (.con c) ts) := by
  induction ts using List.reverseRecOn with
  | nil => exact fun n hn => absurd hn not_occurs_con
  | append_singleton ts t ih =>
      have hall := names_tuple.mp h
      intro n hn
      rw [apply_concat, occurs_ap] at hn
      rcases hn with hn | hn
      · exact ih (names_tuple.mpr fun u hu => hall u (List.mem_append_left _ hu)) n hn
      · exact hall t (List.mem_append_right _ (.head _)) n hn

theorem Grows.trans {names'' : List String} (h : Grows names names') (h' : Grows names' names'') :
    Grows names names'' := ⟨h.before.trans h'.before, h'.nodup⟩

end Renamed

namespace Reader

/-! ### Steps of readers -/

/-- A reader takes lexemes, when what follows them lets it stop there, and comes to a value. The names
met before and after are given. -/
def Reads {α : Type} (follows : List String → Prop) (x : Read α) (ls names : List String) (a : α)
    (names' : List String) : Prop :=
  ∀ s more, s.lexemes = ls ++ more → s.names = names → follows more →
    ∃ s', Gives x s a s' ∧ s'.lexemes = more ∧ s'.names = names'

/-- Anything may follow. -/
def Anything : List String → Prop := fun _ => True

/-- No further argument follows. -/
def NoAtom (more : List String) : Prop := startsAtom ((more.head?).getD "") = false

/-- Neither an argument nor an arrow follows. -/
def NoType (more : List String) : Prop := NoAtom more ∧ (more.head?).getD "" ≠ "->>"

section Steps

variable {α β : Type} {F G : List String → Prop} {x : Read α} {f : α → Read β}
  {ls ls' names names' names'' : List String} {a : α} {b : β}

theorem Reads.bind (hx : Reads F x ls names a names') (hf : Reads G (f a) ls' names' b names'')
    (h : ∀ more, G more → F (ls' ++ more)) : Reads G (x >>= f) (ls ++ ls') names b names'' := by
  intro s more hls hnames hmore
  obtain ⟨s₁, hx, hls₁, hnames₁⟩ := hx s (ls' ++ more) (by rw [hls, List.append_assoc]) hnames
    (h more hmore)
  obtain ⟨s₂, hf, hls₂, hnames₂⟩ := hf s₁ more hls₁ hnames₁ hmore
  exact ⟨s₂, gives_bind.mpr ⟨a, s₁, hx, hf⟩, hls₂, hnames₂⟩

theorem Reads.mono (h : Reads F x ls names a names') (hG : ∀ more, G more → F more) :
    Reads G x ls names a names' :=
  fun s more hls hnames hmore => h s more hls hnames (hG more hmore)

theorem reads_pure (a : α) (names : List String) : Reads F (pure a) [] names a names :=
  fun s _ hls hnames _ => ⟨s, gives_pure.mpr ⟨rfl, rfl⟩, hls, hnames⟩

/-- The next lexeme is seen and stays. -/
theorem Reads.peek {l : String} {f : String → Read β} (h : Reads G (f l) (l :: ls) names b names') :
    Reads G (Reader.peek >>= f) (l :: ls) names b names' := by
  intro s more hls hnames hmore
  obtain ⟨s', hf, hrest⟩ := h s more hls hnames hmore
  have hhead : (s.lexemes.head?).getD "" = l := by
    rw [hls]
    rfl
  exact ⟨s', gives_bind.mpr ⟨l, s, by
    rw [← hhead]
    exact gives_bind.mpr ⟨s, s, gives_get.mpr ⟨rfl, rfl⟩, gives_pure.mpr ⟨rfl, rfl⟩⟩, hf⟩, hrest⟩

/-- What follows is seen, when no lexeme is left to take. -/
theorem Reads.peek_end {f : String → Read β}
    (h : ∀ more, G more → Reads G (f ((more.head?).getD "")) [] names b names') :
    Reads G (Reader.peek >>= f) [] names b names' := by
  intro s more hls hnames hmore
  obtain ⟨s', hf, hrest⟩ := h more hmore s more hls hnames hmore
  refine ⟨s', gives_bind.mpr ⟨_, s, ?_, hf⟩, hrest⟩
  rw [← (show s.lexemes = more from hls)]
  exact gives_bind.mpr ⟨s, s, gives_get.mpr ⟨rfl, rfl⟩, gives_pure.mpr ⟨rfl, rfl⟩⟩

theorem Reads.last (hx : Reads F x ls names a names') (hf : Reads G (f a) [] names' b names'')
    (h : ∀ more, G more → F more) : Reads G (x >>= f) ls names b names'' := by
  have hall := hx.bind hf h
  rwa [List.append_nil] at hall

theorem Reads.next {l : String} {f : String → Read β} (h : Reads G (f l) ls names b names') :
    Reads G (Reader.next >>= f) (l :: ls) names b names' := by
  intro s more hls hnames hmore
  have hhead : (s.lexemes.head?).getD "" = l := by
    rw [hls]
    rfl
  have htail : s.lexemes.tail = ls ++ more := by
    rw [hls]
    rfl
  obtain ⟨s', hf, hrest⟩ := h { s with lexemes := s.lexemes.tail } more htail hnames hmore
  refine ⟨s', gives_bind.mpr ⟨l, _, ?_, hf⟩, hrest⟩
  exact gives_bind.mpr ⟨s, s, gives_get.mpr ⟨rfl, rfl⟩,
    gives_bind.mpr ⟨(), _, gives_set.mpr rfl, gives_pure.mpr ⟨hhead, rfl⟩⟩⟩

theorem Reads.expect {l : String} {f : Unit → Read β} (h : Reads G (f ()) ls names b names') :
    Reads G (Reader.expect l >>= f) (l :: ls) names b names' := by
  have hfound : Reads Anything (Reader.expect l) [l] names () names := by
    refine Reads.next ?_
    rw [if_neg (not_not.mpr rfl)]
    exact reads_pure () names
  exact hfound.bind h fun _ _ => trivial

theorem Reads.setKind {t : Ty} {k : Kind} {f : Unit → Read β}
    (h : Reads G (f ()) ls names b names') :
    Reads G (Reader.setKind t k >>= f) ls names b names' := by
  have hkind : Reads Anything (Reader.setKind t k) [] names () names := by
    intro s more hls hnames _
    refine ⟨_, gives_modify.mpr rfl, ?_⟩
    split
    · split <;> exact ⟨hls, hnames⟩
    · exact ⟨hls, hnames⟩
  exact hkind.bind h fun _ _ => trivial

end Steps

/-! ### Levels of readers -/

/-- A reader that is given enough fuel takes lexemes as a type, whatever names have been met. -/
def ReadsAs (F : List String → Prop) (x : Nat → Read Ty) (need : Nat) (ls : List String) (t : Ty) :
    Prop :=
  ∀ names : List String, names.Nodup → ∃ names', Grows names names' ∧ Names names' t ∧
    ∀ n, need ≤ n → Reads F (x n) ls names (renamed names' t) names'

/-- The text of a type is cut into lexemes that are read back as the type. -/
structure Spells (E : Env) (t : Ty) (ls : List String) : Prop where
  lexes : Lexes t.render ls
  starts : startsAtom ((ls.head?).getD "") = true
  type : ReadsAs NoType (type E) (5 * ls.length) ls t
  atom : t.isAp = false → ReadsAs Anything (atom E) (5 * ls.length - 2) ls t

section Levels

variable {E : Env} {t : Ty} {ls : List String}

theorem length_pos_of_starts (h : startsAtom ((ls.head?).getD "") = true) : 0 < ls.length := by
  cases ls with
  | nil => exact absurd h (by decide)
  | cons l ls => exact Nat.succ_pos _

theorem noAtom_cons {l : String} (h : startsAtom l = false) (more : List String) :
    NoAtom (l :: more) := h

theorem noType_cons {l : String} (h : startsAtom l = false) (hl : l ≠ "->>") (more : List String) :
    NoType (l :: more) := ⟨h, hl⟩

/-- No argument is taken if none follows. -/
theorem reads_appArgs_nil (n : Nat) (head : Ty) (names : List String) :
    Reads NoAtom (appArgs E (n + 1) head) [] names head names := by
  rw [appArgs]
  refine .peek_end fun more hmore => ?_
  rw [if_neg (by rw [show startsAtom _ = false from hmore]; decide)]
  exact reads_pure head names

theorem ReadsAs.app_of_atom (hpos : 0 < ls.length)
    (h : ReadsAs Anything (Reader.atom E) (5 * ls.length - 2) ls t) :
    ReadsAs NoAtom (app E) (5 * ls.length - 1) ls t := by
  intro names hnodup
  obtain ⟨names', hgrows, hnames, hreads⟩ := h names hnodup
  refine ⟨names', hgrows, hnames, fun n hn => ?_⟩
  obtain ⟨n, rfl⟩ : ∃ k, n = k + 2 := ⟨n - 2, by omega⟩
  rw [app]
  exact (hreads (n + 1) (by omega)).last (reads_appArgs_nil n _ names') fun _ _ => trivial

theorem ReadsAs.type_of_app (hpos : 0 < ls.length)
    (h : ReadsAs NoAtom (app E) (5 * ls.length - 1) ls t) :
    ReadsAs NoType (Reader.type E) (5 * ls.length) ls t := by
  intro names hnodup
  obtain ⟨names', hgrows, hnames, hreads⟩ := h names hnodup
  refine ⟨names', hgrows, hnames, fun n hn => ?_⟩
  obtain ⟨n, rfl⟩ : ∃ k, n = k + 1 := ⟨n - 1, by omega⟩
  rw [Reader.type]
  refine (hreads n (by omega)).last (.peek_end fun more hmore => ?_) fun more hmore => hmore.1
  rw [if_pos hmore.2]
  exact reads_pure _ names'

/-- A function type is read from its two sides, of which the first is no function type. -/
theorem ReadsAs.func {dom rng : Ty} {ls' : List String} (hpos : 0 < ls.length)
    (hdom : ReadsAs NoAtom (app E) (5 * ls.length - 1) ls dom)
    (hrng : ReadsAs NoType (Reader.type E) (5 * ls'.length) ls' rng) :
    ReadsAs NoType (Reader.type E) (5 * (ls ++ "->>" :: ls').length) (ls ++ "->>" :: ls')
      (.func dom rng) := by
  intro names hnodup
  obtain ⟨names₁, hgrows₁, hnames₁, hreads₁⟩ := hdom names hnodup
  obtain ⟨names₂, hgrows₂, hnames₂, hreads₂⟩ := hrng names₁ hgrows₁.nodup
  refine ⟨names₂, hgrows₁.trans hgrows₂, fun n hn => ?_, fun n hn => ?_⟩
  · rcases occurs_func.mp hn with hn | hn
    · exact hgrows₂.before.subset (hnames₁ n hn)
    · exact hnames₂ n hn
  · rw [List.length_append, List.length_cons] at hn
    obtain ⟨n, rfl⟩ : ∃ k, n = k + 1 := ⟨n - 1, by omega⟩
    have hfunc : renamed names₂ (.func dom rng) = .func (renamed names₁ dom) (renamed names₂ rng) := by
      rw [← renamed_of_grows hgrows₂.before hnames₁]
      exact subst_func ..
    rw [hfunc, Reader.type]
    refine (hreads₁ n (by omega)).bind (.peek ?_) fun _ _ => noAtom_cons (by decide) _
    rw [if_neg (not_not.mpr rfl)]
    refine .next ((hreads₂ n (by omega)).last ?_ fun _ h => h)
    exact .setKind (.setKind (reads_pure _ _))

/-- An argument is an atom, in parentheses if it is an application. -/
theorem Spells.arg (h : Spells E t ls) :
    ReadsAs Anything (Reader.atom E) (5 * (argLexemes t.isAp ls).length - 2) (argLexemes t.isAp ls)
      t := by
  cases hap : t.isAp with
  | false => exact h.atom hap
  | true =>
      intro names hnodup
      obtain ⟨names', hgrows, hnames, hreads⟩ := h.type names hnodup
      refine ⟨names', hgrows, hnames, fun n hn => ?_⟩
      have hlen : (argLexemes true ls).length = ls.length + 2 := by
        rw [argLexemes, if_pos rfl, List.length_cons, List.length_append]
        rfl
      rw [hlen] at hn
      obtain ⟨n, rfl⟩ : ∃ k, n = k + 1 := ⟨n - 1, by omega⟩
      rw [Reader.atom, argLexemes, if_pos rfl]
      refine .next ((hreads n (by omega)).bind (.expect (reads_pure _ _)) fun _ _ => ?_)
      exact noType_cons (by decide) (by decide) _

theorem starts_arg (h : startsAtom ((ls.head?).getD "") = true) (nested : Bool) :
    ∃ l ls', argLexemes nested ls = l :: ls' ∧ startsAtom l = true := by
  cases nested with
  | true => exact ⟨"(", ls ++ [")"], rfl, by decide⟩
  | false =>
      cases ls with
      | nil => exact absurd h (by decide)
      | cons l ls => exact ⟨l, ls, rfl, h⟩

/-- The lexemes of arguments are read one argument after the other, whatever they are applied to. -/
theorem reads_appArgs {args : List Ty} {lss : List (List String)}
    (h : List.Forall₂ (Spells E) args lss) (names : List String) (hnodup : names.Nodup) :
    ∃ names', Grows names names' ∧ Names names' (.tuple args) ∧ ∀ n head,
      5 * (argsLexemes args lss).length + 1 ≤ n → Reads NoAtom (appArgs E n head)
        (argsLexemes args lss) names (apply head (args.map (renamed names'))) names' := by
  induction h generalizing names with
  | nil =>
      refine ⟨names, ⟨List.prefix_refl _, hnodup⟩, names_tuple.mpr (by rintro _ ⟨⟩), fun n head hn => ?_⟩
      obtain ⟨n, rfl⟩ : ∃ k, n = k + 1 := ⟨n - 1, by omega⟩
      exact reads_appArgs_nil n head names
  | @cons a ls args lss ha _ ih =>
      obtain ⟨names₁, hgrows₁, hnames₁, hreads₁⟩ := ha.arg names hnodup
      obtain ⟨names₂, hgrows₂, hnames₂, hreads₂⟩ := ih names₁ hgrows₁.nodup
      refine ⟨names₂, hgrows₁.trans hgrows₂, names_tuple.mpr ?_, fun n head hn => ?_⟩
      · intro t ht
        rcases List.mem_cons.mp ht with rfl | ht
        · exact hnames₁.mono hgrows₂.before
        · exact names_tuple.mp hnames₂ t ht
      · rw [argsLexemes] at hn ⊢
        rw [List.length_append] at hn
        obtain ⟨l, ls', hcons, hstarts⟩ := starts_arg ha.starts a.isAp
        have hpos : 0 < (argLexemes a.isAp ls).length := by
          rw [hcons]
          exact Nat.succ_pos _
        obtain ⟨n, rfl⟩ : ∃ k, n = k + 1 := ⟨n - 1, by omega⟩
        have hrest : Reads NoAtom (do
            let arg ← Reader.atom E n
            if takesNat head then Reader.setKind arg .nat
            appArgs E n (.ap head arg)) (argLexemes a.isAp ls ++ argsLexemes args lss) names
            (apply head ((a :: args).map (renamed names₂))) names₂ := by
          refine (hreads₁ n (by omega)).bind ?_ fun _ _ => trivial
          have hargs := hreads₂ n (.ap head (renamed names₁ a)) (by omega)
          rw [List.map_cons, renamed_of_grows hgrows₂.before hnames₁]
          split
          · exact .setKind hargs
          · exact hargs
        rw [appArgs]
        rw [hcons, List.cons_append] at hrest ⊢
        refine .peek ?_
        rw [if_pos hstarts]
        exact hrest

/-- Lists of types are read up to the bracket that closes them. -/
theorem reads_items (close : String) (hclose : startsAtom close = false) (hfunc : close ≠ "->>")
    (hcomma : close ≠ ",") {ts : List Ty} {lss : List (List String)} {t : Ty} {ls : List String}
    (ht : Spells E t ls) (h : List.Forall₂ (Spells E) ts lss) (names : List String)
    (hnodup : names.Nodup) : ∃ names', Grows names names' ∧ Names names' (.tuple (t :: ts)) ∧ ∀ n,
      5 * (listLexemes close (ls :: lss)).length + 1 ≤ n → Reads Anything (items E n close)
        (listLexemes close (ls :: lss)) names ((t :: ts).map (renamed names')) names' := by
  induction h generalizing t ls names with
  | nil =>
      obtain ⟨names', hgrows, hnames, hreads⟩ := ht.type names hnodup
      refine ⟨names', hgrows, names_tuple.mpr ?_, fun n hn => ?_⟩
      · intro t' ht'
        cases List.mem_singleton.mp ht'
        exact hnames
      · rw [listLexemes, List.length_append] at hn
        obtain ⟨n, rfl⟩ : ∃ k, n = k + 1 := ⟨n - 1, by omega⟩
        rw [items, listLexemes]
        refine (hreads n (by omega)).bind (.next ?_) fun _ _ => noType_cons hclose hfunc _
        rw [if_neg hcomma, if_pos rfl]
        exact reads_pure _ _
  | @cons t' ls' ts lss ht' _ ih =>
      obtain ⟨names₁, hgrows₁, hnames₁, hreads₁⟩ := ht.type names hnodup
      obtain ⟨names₂, hgrows₂, hnames₂, hreads₂⟩ := ih ht' names₁ hgrows₁.nodup
      refine ⟨names₂, hgrows₁.trans hgrows₂, names_tuple.mpr ?_, fun n hn => ?_⟩
      · intro u hu
        rcases List.mem_cons.mp hu with rfl | hu
        · exact hnames₁.mono hgrows₂.before
        · exact names_tuple.mp hnames₂ u hu
      · have hlexemes : listLexemes close (ls :: ls' :: lss) =
            ls ++ "," :: listLexemes close (ls' :: lss) := rfl
        rw [hlexemes, List.length_append, List.length_cons] at hn
        obtain ⟨n, rfl⟩ : ∃ k, n = k + 1 := ⟨n - 1, by omega⟩
        rw [items, hlexemes, List.map_cons, renamed_of_grows hgrows₂.before hnames₁]
        refine (hreads₁ n (by omega)).bind (.next ?_) fun _ _ => noType_cons (by decide) (by decide) _
        rw [if_pos rfl]
        exact (hreads₂ n (by omega)).last (reads_pure _ _) fun _ _ => trivial

theorem reads_list (close : String) (hclose : startsAtom close = false) (hfunc : close ≠ "->>")
    (hcomma : close ≠ ",") {ts : List Ty} {lss : List (List String)}
    (h : List.Forall₂ (Spells E) ts lss) (names : List String) (hnodup : names.Nodup) :
    ∃ names', Grows names names' ∧ Names names' (.tuple ts) ∧ ∀ n,
      5 * (listLexemes close lss).length + 2 ≤ n → Reads Anything (list E n close)
        (listLexemes close lss) names (ts.map (renamed names')) names' := by
  cases h with
  | nil =>
      refine ⟨names, ⟨List.prefix_refl _, hnodup⟩, names_tuple.mpr (by rintro _ ⟨⟩), fun n hn => ?_⟩
      obtain ⟨n, rfl⟩ : ∃ k, n = k + 1 := ⟨n - 1, by omega⟩
      rw [list, listLexemes]
      refine .peek ?_
      rw [if_pos rfl]
      exact .next (reads_pure _ _)
  | @cons t ls ts lss ht hts =>
      obtain ⟨names', hgrows, hnames, hreads⟩ := reads_items close hclose hfunc hcomma ht hts names hnodup
      refine ⟨names', hgrows, hnames, fun n hn => ?_⟩
      obtain ⟨n, rfl⟩ : ∃ k, n = k + 1 := ⟨n - 1, by omega⟩
      have hitems := hreads n (by omega)
      obtain ⟨l, ls', rfl, hstarts⟩ := starts_arg ht.starts false
      have hne : l ≠ close := by
        rintro rfl
        rw [hclose] at hstarts
        cases hstarts
      obtain ⟨more, hmore⟩ : ∃ more, listLexemes close ((l :: ls') :: lss) = l :: more := by
        cases lss <;> exact ⟨_, rfl⟩
      rw [list]
      rw [hmore] at hitems ⊢
      refine .peek ?_
      rw [if_neg hne]
      exact hitems

end Levels

/-! ### Words -/

section Words

variable {E : Env} {t : Ty} {name : String} {c : Char} {cs : List Char}

/-- No bracket and no sign starts like a word. -/
theorem ne_of_starts (hname : name.toList = c :: cs) (hc : isNameChar c = true) {l : String}
    (hl : l ∈ ["", "[", "(", "]", ")", "\x7b", "\x7d", ",", "->>", ">>="]) : name ≠ l := by
  have hsigns : ∀ l ∈ ["", "[", "(", "]", ")", "\x7b", "\x7d", ",", "->>", ">>="],
      (l.toList.head?.map isNameChar).getD false = false := by decide +kernel
  rintro rfl
  have hfalse := hsigns name hl
  rw [hname] at hfalse
  exact absurd (hfalse.symm.trans hc) Bool.false_ne_true

/-- A word is read as the type that it stands for. -/
theorem spells_word (hrender : t.render = name) (hname : name.toList = c :: cs)
    (hall : ∀ d ∈ c :: cs, isNameChar d = true)
    (hsimple : ∀ names : List String, names.Nodup → ∃ names', Grows names names' ∧ Names names' t ∧
      Reads Anything (simple E name) [] names (renamed names' t) names') : Spells E t [name] := by
  have hne {l : String} := ne_of_starts hname (hall c (.head _)) (l := l)
  have hatom : ReadsAs Anything (Reader.atom E) (5 * [name].length - 2) [name] t := by
    intro names hnodup
    obtain ⟨names', hgrows, hnames, hreads⟩ := hsimple names hnodup
    refine ⟨names', hgrows, hnames, fun n hn => ?_⟩
    obtain ⟨n, rfl⟩ : ∃ k, n = k + 1 := ⟨n - 1, by have : 3 ≤ n := hn; omega⟩
    rw [Reader.atom]
    refine .next ?_
    split
    · exact absurd rfl (hne (l := "[") (by decide))
    · exact absurd rfl (hne (l := "(") (by decide))
    · exact hreads
  have hlexes : Lexes t.render [name] := by
    rw [hrender]
    exact lexes_name (hne (l := "") (by decide)) (by rw [hname]; exact hall)
  refine ⟨hlexes, ?_, .type_of_app Nat.one_pos (.app_of_atom Nat.one_pos hatom), fun _ => hatom⟩
  refine decide_eq_true fun hmem => ?_
  have hsub : ["", "]", ")", "\x7b", "\x7d", ",", "->>", ">>="] ⊆
      ["", "[", "(", "]", ")", "\x7b", "\x7d", ",", "->>", ">>="] := by decide
  exact hne (hsub hmem) rfl

theorem isNameChar_of_isDigit {d : Char} (h : d.isDigit = true) : isNameChar d = true := by
  rw [isNameChar, Text.isDigit_of_decimal h, Bool.or_true, Bool.true_or]

theorem spells_nat (E : Env) (n : Nat) : Spells E (.nat n) [toString n] := by
  have hdigits : ∀ d ∈ (toString n).toList, d.isDigit = true := by
    rw [Nat.toString_eq_repr, Nat.toList_repr]
    exact fun d hd => Nat.isDigit_of_mem_toDigits (by decide) (by decide) hd
  cases hname : (toString n).toList with
  | nil =>
      rw [Nat.toString_eq_repr, Nat.toList_repr] at hname
      exact absurd hname Nat.toDigits_ne_nil
  | cons c cs =>
      rw [hname] at hdigits
      refine spells_word rfl hname (fun d hd => isNameChar_of_isDigit (hdigits d hd)) ?_
      intro names hnodup
      refine ⟨names, ⟨List.prefix_refl _, hnodup⟩, fun m hm => absurd hm not_occurs_nat, ?_⟩
      have hnat : natural? (toString n) = some n := Text.readDecimal?_toString n
      rw [simple, hname]
      dsimp only
      rw [if_pos (Text.isDigit_of_decimal (hdigits c (.head _))), hnat]
      exact reads_pure _ _

/-- The name of a variable starts with a lower-case letter. -/
theorem genName_spec (n : Nat) : ∃ c cs, (genName n).toList = c :: cs ∧
    Text.isLower c = true ∧ Text.isLetter c = true ∧ ∀ d ∈ cs, d.isDigit = true := by
  unfold genName
  split
  · rename_i hn
    have hletters : ∀ k < 26, Text.isLower (Char.ofNat ('a'.toNat + k)) = true ∧
        Text.isLetter (Char.ofNat ('a'.toNat + k)) = true := by decide +kernel
    exact ⟨_, [], String.toList_singleton _, (hletters n hn).1, (hletters n hn).2, by rintro _ ⟨⟩⟩
  · refine ⟨'a', (toString n).toList, by rw [String.toList_append]; rfl, by decide +kernel,
      by decide +kernel, ?_⟩
    rw [Nat.toString_eq_repr, Nat.toList_repr]
    exact fun d hd => Nat.isDigit_of_mem_toDigits (by decide) (by decide) hd

theorem genName_injective {n m : Nat} (h : genName n = genName m) : n = m := by
  have hshort : ∀ n < 26, ∀ m < 26, genName n = genName m → n = m := by decide +kernel
  have hletter (n : Nat) (hn : n < 26) : (genName n).toList.length = 1 := by
    rw [genName, if_pos hn, String.toList_singleton]
    rfl
  have hlong (n : Nat) (hn : ¬ n < 26) : 2 ≤ (genName n).toList.length := by
    rw [genName, if_neg hn, String.toList_append, List.length_append, Nat.toString_eq_repr,
      Nat.toList_repr]
    exact Nat.add_le_add_left Nat.length_toDigits_pos 1
  by_cases hn : n < 26
  · by_cases hm : m < 26
    · exact hshort n hn m hm h
    · have hlen := hletter n hn
      have hlen' := hlong m hm
      rw [← h] at hlen'
      omega
  · by_cases hm : m < 26
    · have hlen := hletter m hm
      have hlen' := hlong n hn
      rw [h] at hlen'
      omega
    · rw [genName, genName, if_neg hn, if_neg hm, String.append_right_inj] at h
      have hread := Text.readDecimal?_toString n
      rw [h, Text.readDecimal?_toString] at hread
      exact (Option.some.inj hread).symm

theorem reads_varNamed (name : String) (names : List String) (hnodup : names.Nodup) :
    ∃ names', Grows names names' ∧ name ∈ names' ∧
      Reads Anything (varNamed name) [] names (.gen (names'.idxOf name)) names' := by
  by_cases hmem : name ∈ names
  · refine ⟨names, ⟨List.prefix_refl _, hnodup⟩, hmem, fun s more hls hnames _ => ?_⟩
    refine ⟨s, gives_bind.mpr ⟨s, s, gives_get.mpr ⟨rfl, rfl⟩, ?_⟩, hls, hnames⟩
    rw [if_pos (hnames ▸ hmem)]
    exact gives_pure.mpr ⟨by rw [hnames], rfl⟩
  · refine ⟨names ++ [name], ⟨List.prefix_append _ _, ?_⟩,
      List.mem_append_right _ (.head _), fun s more hls hnames _ => ?_⟩
    · exact List.nodup_append.mpr ⟨hnodup, List.nodup_singleton _, fun a ha b hb => by
        rw [List.mem_singleton.mp hb]
        exact fun heq => hmem (heq ▸ ha)⟩
    · refine ⟨{ s with names := names ++ [name], kinds := s.kinds ++ [Kind.star] },
        gives_bind.mpr ⟨s, s, gives_get.mpr ⟨rfl, rfl⟩, ?_⟩, hls, rfl⟩
      rw [if_neg (hnames ▸ hmem), ← hnames]
      refine gives_bind.mpr ⟨(), _, gives_set.mpr rfl, gives_pure.mpr ⟨?_, rfl⟩⟩
      rw [List.idxOf_append_of_notMem (hnames ▸ hmem), List.idxOf_cons_self, Nat.add_zero]

theorem spells_gen (E : Env) (n : Nat) : Spells E (.gen n) [genName n] := by
  obtain ⟨c, cs, hname, hlower, hletter, hdigits⟩ := genName_spec n
  have hall : ∀ d ∈ c :: cs, isNameChar d = true := by
    intro d hd
    rcases List.mem_cons.mp hd with rfl | hd
    · rw [isNameChar, hletter, Bool.true_or, Bool.true_or]
    · exact isNameChar_of_isDigit (hdigits d hd)
  refine spells_word rfl hname hall fun names hnodup => ?_
  obtain ⟨names', hgrows, hmem, hreads⟩ := reads_varNamed (genName n) names hnodup
  refine ⟨names', hgrows, fun m hm => ?_, ?_⟩
  · cases occurs_gen.mp hm
    exact hmem
  · rw [simple, hname]
    dsimp only
    rw [if_neg (by rw [Text.isDigit_of_isLetter hletter]; decide), if_pos hlower, renamed, subst_gen]
    exact hreads

/-- A capitalised name is read as the type constructor that it stands for. -/
theorem spells_con {con : Tycon} (hname : Capitalised con.name) (hcon : E.tycon? con.name = some con) :
    Spells E (.con con) [con.name] := by
  obtain ⟨c, cs, hname, hletter, hlower, hcs⟩ := hname
  have hall : ∀ d ∈ c :: cs, isNameChar d = true := by
    intro d hd
    rcases List.mem_cons.mp hd with rfl | hd
    · rw [isNameChar, hletter, Bool.true_or, Bool.true_or]
    · exact hcs d hd
  refine spells_word rfl hname hall fun names hnodup => ?_
  refine ⟨names, ⟨List.prefix_refl _, hnodup⟩, fun m hm => absurd hm not_occurs_con, ?_⟩
  rw [simple, hname]
  dsimp only
  rw [if_neg (by rw [Text.isDigit_of_isLetter hletter]; decide),
    if_neg (by rw [hlower]; decide), hcon]
  exact reads_pure _ _

end Words

/-! ### Types -/

section Types

variable {E : Env} {κ : Nat → Kind} {t : Ty} {k : Kind}

theorem tycon?_of_builtin (E : Env) {c : Tycon} (h : c ∈ Env.builtins) :
    Capitalised c.name ∧ E.tycon? c.name = some c := by
  have hnames : ∀ c ∈ Env.builtins, ((c.name.toList.head?).map fun d =>
      Text.isLetter d && !Text.isLower d) = some true ∧
        c.name.toList.tail.all isNameChar = true := by decide +kernel
  obtain ⟨hhead, htail⟩ := hnames c h
  constructor
  · cases hname : c.name.toList with
    | nil =>
        rw [hname] at hhead
        cases hhead
    | cons d ds =>
        rw [hname] at hhead htail
        have hd : Text.isLetter d = true ∧ Text.isLower d = false := by simpa using hhead
        exact ⟨d, ds, hname, hd.1, hd.2, List.all_eq_true.mp htail⟩
  · simp only [Env.builtins, List.mem_cons, List.not_mem_nil, or_false] at h
    rcases h with rfl | rfl | rfl | rfl | rfl | rfl | rfl <;> rfl

theorem tycon?_of_data (hE : E.WellNamed) {d : DataType} (hd : d ∈ E.datas) :
    E.tycon? d.name = some (.data d.name) := by
  have hnot : Env.builtins.find? (fun c => c.name = d.name) = none := by
    rw [List.find?_eq_none]
    exact fun c hc heq => (hE d hd).2 c hc (of_decide_eq_true heq)
  have hany : (E.datas.any fun d' => d'.name = d.name) = true :=
    List.any_eq_true.mpr ⟨d, hd, decide_eq_true rfl⟩
  unfold Env.tycon?
  rw [hnot, if_pos hany]

theorem spells_tuple {ts : List Ty} {lss : List (List String)} (h : List.Forall₂ (Spells E) ts lss) :
    Spells E (.tuple ts) ("[" :: listLexemes "]" lss) := by
  have hatom : ReadsAs Anything (Reader.atom E) (5 * ("[" :: listLexemes "]" lss).length - 2)
      ("[" :: listLexemes "]" lss) (.tuple ts) := by
    intro names hnodup
    obtain ⟨names', hgrows, hnames, hreads⟩ :=
      reads_list "]" (by decide) (by decide) (by decide) h names hnodup
    refine ⟨names', hgrows, hnames, fun n hn => ?_⟩
    rw [List.length_cons] at hn
    obtain ⟨n, rfl⟩ : ∃ k, n = k + 1 := ⟨n - 1, by omega⟩
    rw [Reader.atom, renamed, subst_tuple]
    exact .next ((hreads n (by omega)).last (reads_pure _ _) fun _ _ => trivial)
  exact ⟨lexes_tuple (h.imp fun _ _ ht => ht.lexes), (by decide : startsAtom "[" = true),
    .type_of_app (Nat.succ_pos _) (.app_of_atom (Nat.succ_pos _) hatom), fun _ => hatom⟩

theorem spells_func {dom rng : Ty} {ls ls' : List String} (hdom : Spells E dom ls)
    (hrng : Spells E rng ls') (hap : dom.isAp = false) :
    Spells E (.func dom rng) (ls ++ "->>" :: ls') := by
  have hpos := length_pos_of_starts hdom.starts
  refine ⟨lexes_func hdom.lexes hrng.lexes, ?_, .func hpos (.app_of_atom hpos (hdom.atom hap)) hrng.type,
    by rintro ⟨⟩⟩
  have hstarts := hdom.starts
  cases ls with
  | nil => exact absurd hpos (Nat.lt_irrefl 0)
  | cons l ls => exact hstarts

theorem isAp_apply (t : Ty) {args : List Ty} (h : args ≠ []) : (apply t args).isAp = true := by
  cases args using List.reverseRecOn with
  | nil => exact absurd rfl h
  | append_singleton args a => rw [apply_concat, isAp]

theorem spine_apply (c : Tycon) (args : List Ty) : (apply (.con c) args).spine = (.con c, args) := by
  induction args using List.reverseRecOn with
  | nil => rfl
  | append_singleton args a ih => rw [apply_concat, spine, ih]

theorem render_apply {c : Tycon} (hfunc : c ≠ .func) (args : List Ty) :
    (apply (.con c) args).render =
      args.foldl (fun out a => out ++ renderAt.renderArg a.isAp a.render) c.name := by
  cases args using List.reverseRecOn with
  | nil => rfl
  | append_singleton args a =>
      rw [apply_concat, render_ap, ← apply_concat, spine_apply]
      unfold renderSpine
      split
      · rename_i hcon _
        cases hcon
        exact absurd rfl hfunc
      · rfl

theorem spells_apply {c : Tycon} {args : List Ty} {lss : List (List String)}
    (hc : Spells E (.con c) [c.name]) (hfunc : c ≠ .func) (h : List.Forall₂ (Spells E) args lss) :
    Spells E (apply (.con c) args) (c.name :: argsLexemes args lss) := by
  have hlexes : Lexes (apply (.con c) args).render (c.name :: argsLexemes args lss) := by
    rw [render_apply hfunc]
    exact lexes_spine hc.lexes (h.imp fun _ _ ht => ht.lexes)
  have happ : ReadsAs NoAtom (app E) (5 * (c.name :: argsLexemes args lss).length - 1)
      (c.name :: argsLexemes args lss) (apply (.con c) args) := by
    intro names hnodup
    obtain ⟨names₁, hgrows₁, -, hreads₁⟩ := hc.atom rfl names hnodup
    obtain ⟨names₂, hgrows₂, hnames₂, hreads₂⟩ := reads_appArgs h names₁ hgrows₁.nodup
    refine ⟨names₂, hgrows₁.trans hgrows₂, ?_, fun n hn => ?_⟩
    · exact names_apply c hnames₂
    · rw [List.length_cons] at hn
      obtain ⟨n, rfl⟩ : ∃ k, n = k + 1 := ⟨n - 1, by omega⟩
      rw [app, renamed, subst_apply, subst_con]
      exact (hreads₁ n (by rw [List.length_singleton]; omega)).bind
        (hreads₂ n (.con c) (by omega)) fun _ _ => trivial
  refine ⟨hlexes, hc.starts, .type_of_app (Nat.succ_pos _) happ, fun hap => ?_⟩
  cases h with
  | nil => exact hc.atom rfl
  | cons _ _ =>
      rw [isAp_apply _ (List.cons_ne_nil _ _)] at hap
      cases hap

theorem exists_forall₂ {α β : Type} {R : α → β → Prop} {as : List α} (h : ∀ a ∈ as, ∃ b, R a b) :
    ∃ bs, List.Forall₂ R as bs := by
  induction as with
  | nil => exact ⟨[], .nil⟩
  | cons a as ih =>
      obtain ⟨b, hb⟩ := h a (.head _)
      obtain ⟨bs, hbs⟩ := ih fun a ha => h a (.tail _ ha)
      exact ⟨b :: bs, .cons hb hbs⟩

/-- Every well-kinded type is spelled by some lexemes. -/
theorem exists_spells (hE : E.WellNamed) (h : HasKind E κ t k) : ∃ ls, Spells E t ls := by
  have hbuiltin {c : Tycon} (hc : c ∈ Env.builtins) : Spells E (.con c) [c.name] :=
    spells_con (tycon?_of_builtin E hc).1 (tycon?_of_builtin E hc).2
  induction h with
  | gen n => exact ⟨_, spells_gen E n⟩
  | nat n => exact ⟨_, spells_nat E n⟩
  | tuple kind _ ih =>
      obtain ⟨lss, hts⟩ := exists_forall₂ ih
      exact ⟨_, spells_tuple hts⟩
  | func hdom _ ihdom ihrng =>
      obtain ⟨ls, hls⟩ := ihdom
      obtain ⟨ls', hls'⟩ := ihrng
      exact ⟨_, spells_func hls hls' hdom.isAp_of_tuple⟩
  | base hc =>
      have hsub : [Tycon.word, .flag, .nzword, .addr, .unit] ⊆ Env.builtins := by decide
      exact ⟨_, hbuiltin (hsub hc)⟩
  | sized hc _ ih =>
      have hsub : [Tycon.bit, .ix] ⊆ Env.builtins := by decide
      obtain ⟨ls, hls⟩ := ih
      refine ⟨_, spells_apply (hbuiltin (hsub hc)) ?_ (.cons hls .nil)⟩
      rintro rfl
      exact absurd hc (by decide)
  | data hd _ kind _ ih =>
      obtain ⟨lss, hargs⟩ := exists_forall₂ ih
      refine ⟨_, spells_apply (spells_con (hE _ hd).1 (tycon?_of_data hE hd)) ?_ hargs⟩
      rintro ⟨⟩

end Types

end Reader

end Ty

end Mil
