import Mathlib.Data.List.Basic
import Mil.Proofs.Ty.Descent
import Mil.Text.Integer
import Mil.Text.Category
import Mil.Ty.Reader

/-!
The lexemes of the texts that are written for types. A name ends where a character follows that is not
part of names, so texts are cut at the same places when they are put together.
The classes of characters are told apart by tables: those of letters, digits and blanks have no code point
in common, which one pass over two tables finds out.
-/

namespace Mil.Text

/-! ### Tables without a common code point -/

/-- Does no range of the one table meet a range of the other? Both are gone through in their order. -/
def apart : List (Nat × Nat) → List (Nat × Nat) → Bool
  | _, [] => true
  | l, (lo, hi) :: rest =>
    lo ≤ hi && match l.dropWhile fun r => Nat.blt r.2 lo with
      | [] => true
      | r :: l => r.1 ≤ r.2 && hi < r.1 && apart (r :: l) rest

/-- Ranges that end before a number are of no matter for it. -/
theorem inRanges_dropWhile {lo n : Nat} (h : lo ≤ n) (l : List (Nat × Nat)) :
    inRanges (l.dropWhile fun r => Nat.blt r.2 lo) n = inRanges l n := by
  induction l with
  | nil => rfl
  | cons r l ih =>
      rw [List.dropWhile_cons]
      split
      · rename_i hend
        have hend : r.2 < lo := by simpa using hend
        rw [ih, inRanges, if_neg (by omega)]
      · rfl

theorem inRanges_of_apart {l l' : List (Nat × Nat)} (h : apart l l' = true) {n : Nat}
    (hn : inRanges l n = true) : inRanges l' n = false := by
  induction l' generalizing l with
  | nil => rfl
  | cons r' rest ih =>
      obtain ⟨lo, hi⟩ := r'
      rw [apart, Bool.and_eq_true, decide_eq_true_eq] at h
      obtain ⟨hle, h⟩ := h
      rw [inRanges]
      by_cases hlo : lo ≤ n
      · rw [← inRanges_dropWhile hlo] at hn
        split at h
        · rename_i hnil
          rw [hnil] at hn
          cases hn
        · rename_i r l hcons
          simp only [Bool.and_eq_true, decide_eq_true_eq] at h
          rw [hcons] at hn
          split
          · rw [inRanges] at hn
            split at hn
            · simp only [decide_eq_true_eq] at hn
              omega
            · omega
          · exact ih h.2 hn
      · rw [if_pos (by omega)]
        exact decide_eq_false hlo

/-- The code points of all letters. -/
def letterRanges : List (List (Nat × Nat)) :=
  [letterRanges0, letterRanges1, letterRanges2, letterRanges3, letterRanges4, letterRanges5]

/-- No letter is in a table that has nothing in common with the tables of letters. -/
theorem inRanges_of_isLetter {l : List (Nat × Nat)} (h : (letterRanges.all (apart · l)) = true)
    {c : Char} (hc : isLetter c = true) : inRanges l c.toNat = false := by
  have hany : (letterRanges.any fun l => inRanges l c.toNat) = true := by
    simpa only [isLetter, letterRanges, List.any_cons, List.any_nil, Bool.or_false,
      Bool.or_assoc] using hc
  obtain ⟨l', hl', hn⟩ := List.any_eq_true.mp hany
  exact inRanges_of_apart (List.all_eq_true.mp h l' hl') hn

/-- The tables of letters, of digits and of blanks have no code point in common. -/
theorem exists_blankRanges : ∃ blankRanges, (∀ c, isBlank c = inRanges blankRanges c.toNat) ∧
    (letterRanges.all (apart · digitRanges) && letterRanges.all (apart · blankRanges) &&
      apart digitRanges blankRanges) = true :=
  ⟨_, fun _ => rfl, by decide +kernel⟩

theorem isDigit_of_isLetter {c : Char} (h : isLetter c = true) : isDigit c = false := by
  obtain ⟨blankRanges, _, hapart⟩ := exists_blankRanges
  simp only [Bool.and_eq_true] at hapart
  exact inRanges_of_isLetter hapart.1.1 h

theorem isBlank_of_isLetter {c : Char} (h : isLetter c = true) : isBlank c = false := by
  obtain ⟨blankRanges, hblank, hapart⟩ := exists_blankRanges
  simp only [Bool.and_eq_true] at hapart
  rw [hblank]
  exact inRanges_of_isLetter hapart.1.2 h

theorem isBlank_of_isDigit {c : Char} (h : isDigit c = true) : isBlank c = false := by
  obtain ⟨blankRanges, hblank, hapart⟩ := exists_blankRanges
  rw [Bool.and_eq_true] at hapart
  rw [hblank]
  exact inRanges_of_apart hapart.2 h

/-! ### Decimal digits -/

/-- The digits of a decimal text are read one after the other. -/
theorem readDecimal?_eq_ofDigitChars {cs : List Char} (h : ∀ c ∈ cs, c.isDigit = true) (acc : Nat) :
    readDecimal? cs acc = some (Nat.ofDigitChars 10 cs acc) := by
  induction cs generalizing acc with
  | nil => rfl
  | cons c cs ih =>
      have hc : '0' ≤ c ∧ c ≤ '9' := by
        have hdigit : 48 ≤ c.val ∧ c.val ≤ 57 := by simpa [Char.isDigit] using h c (.head _)
        exact hdigit
      rw [readDecimal?, if_pos hc, ih fun c' hc' => h c' (.tail _ hc'), Nat.ofDigitChars_cons,
        Nat.mul_comm]

theorem readDecimal?_toString (n : Nat) : readDecimal? (toString n).toList 0 = some n := by
  rw [Nat.toString_eq_repr, Nat.toList_repr, readDecimal?_eq_ofDigitChars fun c hc =>
    Nat.isDigit_of_mem_toDigits (by decide) (by decide) hc, Nat.ofDigitChars_ten_toDigits]

theorem isDigit_of_decimal {c : Char} (h : c.isDigit = true) : isDigit c = true := by
  have hc : 48 ≤ c.toNat ∧ c.toNat ≤ 57 := by
    simpa [Char.isDigit, UInt32.le_iff_toNat_le] using h
  rw [isDigit, digitRanges, inRanges, if_pos hc.2]
  exact decide_eq_true hc.1

end Mil.Text

namespace Mil.Ty.Reader

/-! ### Characters -/

theorem isBlank_of_isNameChar {c : Char} (h : isNameChar c = true) : Text.isBlank c = false := by
  simp only [isNameChar, Bool.or_eq_true, decide_eq_true_eq] at h
  rcases h with (h | h) | rfl
  · exact Text.isBlank_of_isLetter h
  · exact Text.isBlank_of_isDigit h
  · decide

/-- The characters that separate names, of which only the last one is a blank. -/
theorem separators_spec (c : Char) (hc : c ∈ ['[', ']', '\x7b', '\x7d', '(', ')', ',', '-', '>', ' ']) :
    isNameChar c = false ∧ (c ≠ ' ' → Text.isBlank c = false) := by
  have hall : (['[', ']', '\x7b', '\x7d', '(', ')', ',', '-', '>', ' '].all fun c =>
      !isNameChar c && (decide (c = ' ') || !Text.isBlank c)) = true := by
    decide +kernel
  have h := List.all_eq_true.mp hall c hc
  rw [Bool.and_eq_true, Bool.not_eq_true', Bool.or_eq_true, decide_eq_true_eq,
    Bool.not_eq_true'] at h
  exact ⟨h.1, fun hne => h.2.resolve_left hne⟩

theorem ne_of_isNameChar {c d : Char} (h : isNameChar c = true)
    (hd : d ∈ ['[', ']', '\x7b', '\x7d', '(', ')', ',', '-', '>', ' ']) : c ≠ d := by
  rintro rfl
  rw [(separators_spec c hd).1] at h
  cases h

theorem isBracket_of_isNameChar {c : Char} (h : isNameChar c = true) : isBracket c = false := by
  rw [isBracket, decide_eq_false_iff_not]
  intro hmem
  exact ne_of_isNameChar h (List.mem_append_left ['-', '>', ' '] hmem) rfl

/-! ### Cutting a text -/

/-- No name goes on here. -/
def Stops (cs : List Char) : Prop := ∀ c, cs.head? = some c → isNameChar c = false

section Lex

variable {word cs : List Char}

theorem lexFrom_nameChar {c : Char} (h : isNameChar c = true) :
    lexFrom word (c :: cs) = lexFrom (c :: word) cs := by
  rw [lexFrom, if_neg (by rw [isBlank_of_isNameChar h]; decide),
    if_neg (by rw [isBracket_of_isNameChar h]; decide), if_pos h]
  · rintro cs' rfl
    exact absurd rfl (ne_of_isNameChar h (d := '-') (by decide))
  · rintro cs' rfl
    exact absurd rfl (ne_of_isNameChar h (d := '>') (by decide))

theorem map_flush (x : Except TypeSyntaxError (List String)) (g : List String → List String) :
    (x.map fun rest => flush [] (g rest)).map (flush word) = x.map fun rest => flush word (g rest) := by
  cases x <;> rfl

/-- What comes after a name does not depend on it. -/
theorem lexFrom_of_stops (h : Stops cs) : lexFrom word cs = (lexFrom [] cs).map (flush word) := by
  rw [lexFrom.eq_def word, lexFrom.eq_def []]
  split
  · rfl
  · exact (map_flush _ _).symm
  · exact (map_flush _ _).symm
  · rename_i c cs _ _
    split
    · exact (map_flush _ _).symm
    · split
      · exact (map_flush _ _).symm
      · rw [if_neg (by rw [h c rfl]; decide), if_neg (by rw [h c rfl]; decide)]
        rfl

end Lex

/-- The text is cut into these lexemes wherever no name goes on behind it. -/
def Lexes (text : String) (ls : List String) : Prop :=
  ∀ rest, Stops rest → lexFrom [] (text.toList ++ rest) = (lexFrom [] rest).map (ls ++ ·)

/-- No name goes on at the start of the text. -/
def Opens (text : String) : Prop := ∀ rest, Stops rest → Stops (text.toList ++ rest)

section Lexes

variable {a b : String} {la lb : List String}

theorem stops_nil : Stops [] := by
  rintro c ⟨⟩

theorem map_append (x : Except TypeSyntaxError (List String)) :
    (x.map (lb ++ ·)).map (la ++ ·) = x.map (la ++ lb ++ ·) := by
  cases x with
  | error e => rfl
  | ok rest => exact congrArg Except.ok (List.append_assoc la lb rest).symm

theorem lexes_empty : Lexes "" [] := by
  intro rest _
  show lexFrom [] rest = _
  cases lexFrom [] rest <;> rfl

theorem Lexes.append (ha : Lexes a la) (hb : Lexes b lb) (h : Opens b) :
    Lexes (a ++ b) (la ++ lb) := by
  intro rest hrest
  rw [String.toList_append, List.append_assoc, ha _ (h rest hrest), hb rest hrest, map_append]

theorem Lexes.lex (h : Lexes a la) : lex a = .ok la := by
  have hlex := h [] stops_nil
  rw [List.append_nil] at hlex
  rw [Reader.lex, hlex]
  exact congrArg Except.ok (List.append_nil la)

/-- A name. -/
theorem lexes_name (hne : a ≠ "") (h : ∀ c ∈ a.toList, isNameChar c = true) : Lexes a [a] := by
  have hword (cs : List Char) (hcs : ∀ c ∈ cs, isNameChar c = true) (word rest : List Char) :
      lexFrom word (cs ++ rest) = lexFrom (cs.reverse ++ word) rest := by
    induction cs generalizing word with
    | nil => rfl
    | cons c cs ih =>
        rw [List.cons_append, lexFrom_nameChar (hcs c (.head _)), ih fun c' hc' => hcs c' (.tail _ hc'),
          List.reverse_cons, List.append_assoc]
        rfl
  intro rest hrest
  have hflush : flush a.toList.reverse = ([a] ++ ·) := by
    funext rest
    have hnot : a.toList.reverse.isEmpty = false := by
      rw [List.isEmpty_eq_false_iff, Ne, List.reverse_eq_nil_iff, String.toList_eq_nil_iff]
      exact hne
    rw [flush, hnot, List.reverse_reverse, String.ofList_toList]
    rfl
  rw [hword a.toList h, List.append_nil, lexFrom_of_stops hrest, hflush]

theorem not_isBlank {c : Char} (hc : c ∈ ['[', ']', '\x7b', '\x7d', '(', ')', ',']) :
    Text.isBlank c = false := by
  refine (separators_spec c (List.mem_append_left ['-', '>', ' '] hc)).2 ?_
  rintro rfl
  exact absurd hc (by decide)

/-- A bracket or a comma is a lexeme by itself. -/
theorem Lexes.bracket {c : Char} (hc : isBracket c = true) (hb : Lexes b lb) :
    Lexes (String.singleton c ++ b) (String.singleton c :: lb) := by
  intro rest hrest
  have hmem := of_decide_eq_true hc
  have hflush : flush [] ∘ (String.singleton c :: ·) = ([String.singleton c] ++ ·) := rfl
  rw [String.toList_append, String.toList_singleton, List.singleton_append, List.cons_append, lexFrom,
    if_neg (by rw [not_isBlank hmem]; decide), if_pos hc, hb rest hrest]
  · exact @map_append [String.singleton c] lb _
  · rintro cs rfl
    exact absurd hmem (by decide)
  · rintro cs rfl
    exact absurd hmem (by decide)

theorem Lexes.blank (hb : Lexes b lb) : Lexes (" " ++ b) lb := by
  intro rest hrest
  have hlex : lexFrom [] (' ' :: (b.toList ++ rest)) =
      (lexFrom [] (b.toList ++ rest)).map (flush []) := rfl
  have hflush : flush [] = ([] ++ ·) := rfl
  rw [String.toList_append]
  show lexFrom [] (' ' :: (b.toList ++ rest)) = _
  rw [hlex, hb rest hrest, hflush, map_append]
  rfl

/-- The sign between the two sides of a function type or of a block type. -/
theorem Lexes.sign {sign : String} (hsign : sign = "->>" ∨ sign = ">>=") (hb : Lexes b lb) :
    Lexes (sign ++ b) (sign :: lb) := by
  intro rest hrest
  have hlex : lexFrom [] (sign.toList ++ (b.toList ++ rest)) =
      (lexFrom [] (b.toList ++ rest)).map ([sign] ++ ·) := by
    rcases hsign with rfl | rfl <;> rfl
  rw [String.toList_append, List.append_assoc, hlex, hb rest hrest, map_append]
  rfl

theorem opens_of_head {c : Char} (hc : isNameChar c = false) (h : a.toList.head? = some c)
    (b : String) : Opens (a ++ b) := by
  intro rest _ d hd
  rw [String.toList_append] at hd
  cases ha : a.toList with
  | nil =>
      rw [ha] at h
      cases h
  | cons x xs =>
      rw [ha] at h hd
      cases h
      cases hd
      exact hc

end Lexes

/-! ### Types -/

section Types

variable {text : String} {ls : List String}

/-- The lexemes of an argument. -/
def argLexemes (nested : Bool) (ls : List String) : List String :=
  if nested then "(" :: (ls ++ [")"]) else ls

/-- The lexemes of arguments. -/
def argsLexemes : List Ty → List (List String) → List String
  | a :: args, ls :: lss => argLexemes a.isAp ls ++ argsLexemes args lss
  | _, _ => []

/-- The lexemes of a list of types, the bracket at its end included. -/
def listLexemes (close : String) : List (List String) → List String
  | [] => [close]
  | [ls] => ls ++ [close]
  | ls :: lss => ls ++ "," :: listLexemes close lss

theorem opens_close {c : Char} (hc : isNameChar c = false) : Opens (String.singleton c) := by
  have h := opens_of_head hc (a := String.singleton c) (by rw [String.toList_singleton]; rfl) ""
  rwa [String.append_empty] at h

theorem lexes_close {c : Char} (hc : isBracket c = true) :
    Lexes (String.singleton c) [String.singleton c] := by
  have h := Lexes.bracket hc lexes_empty
  rwa [String.append_empty] at h

theorem Lexes.arg (h : Lexes text ls) (nested : Bool) :
    Lexes (renderAt.renderArg nested text) (argLexemes nested ls) ∧
      Opens (renderAt.renderArg nested text) := by
  cases nested with
  | false => exact ⟨h.blank, opens_of_head (a := " ") (c := ' ') (by decide) rfl text⟩
  | true =>
      have hclose := h.append (lexes_close (c := ')') rfl) (opens_close (by decide))
      have htext : renderAt.renderArg true text = " " ++ ("(" ++ (text ++ ")")) := by
        rw [renderAt.renderArg, if_pos rfl, ← String.append_assoc, ← String.append_assoc]
        rfl
      rw [htext]
      exact ⟨(hclose.bracket (c := '(') rfl).blank,
        opens_of_head (a := " ") (c := ' ') (by decide) rfl _⟩

/-- The text of a type that is applied to arguments. -/
theorem lexes_spine {head : String} {args : List Ty} {lss : List (List String)} (hhead : Lexes head ls)
    (h : List.Forall₂ (fun a la => Lexes a.render la) args lss) :
    Lexes (args.foldl (fun out a => out ++ renderAt.renderArg a.isAp a.render) head)
      (ls ++ argsLexemes args lss) := by
  induction h generalizing head ls with
  | nil => exact (List.append_nil ls).symm ▸ hhead
  | @cons a la args lss ha _ ih =>
      obtain ⟨harg, hopens⟩ := ha.arg a.isAp
      rw [argsLexemes, ← List.append_assoc]
      exact ih (hhead.append harg hopens)

/-- The texts of a list of types with commas between them, and a bracket at the end. -/
theorem lexes_list {c : Char} (hc : isBracket c = true) (hstop : isNameChar c = false)
    {ts : List Ty} {lss : List (List String)}
    (h : List.Forall₂ (fun t la => Lexes t.render la) ts lss) :
    Lexes (", ".intercalate (ts.map render) ++ String.singleton c)
      (listLexemes (String.singleton c) lss) := by
  induction h with
  | nil => exact lexes_close hc
  | @cons t lt ts lss ht hts ih =>
      cases hts with
      | nil => exact ht.append (lexes_close hc) (opens_close hstop)
      | cons ht' hts' =>
          rw [List.map_cons, List.map_cons, String.intercalate_cons_cons, ← List.map_cons,
            String.append_assoc, String.append_assoc]
          refine ht.append ?_ (opens_of_head (a := ", ") (c := ',') (by decide) rfl _)
          have hcomma : ", " = String.singleton ',' ++ " " := rfl
          rw [hcomma, String.append_assoc]
          exact ih.blank.bracket rfl

theorem lexes_tuple {ts : List Ty} {lss : List (List String)}
    (h : List.Forall₂ (fun t la => Lexes t.render la) ts lss) :
    Lexes (tuple ts).render ("[" :: listLexemes "]" lss) := by
  have htext : (tuple ts).render = "[" ++ (", ".intercalate (ts.map render) ++ "]") := by
    rw [render, renderAt, renderList_eq_map, String.append_assoc]
  rw [htext]
  exact (lexes_list (c := ']') rfl (by decide) h).bracket (c := '[') rfl

/-- Two texts with a sign between them. -/
theorem lexes_sides {sign text' : String} {ls' : List String} (hsign : sign = "->>" ∨ sign = ">>=")
    (h : Lexes text ls) (h' : Lexes text' ls') :
    Lexes (text ++ (" " ++ (sign ++ (" " ++ text')))) (ls ++ sign :: ls') :=
  h.append (h'.blank.sign hsign).blank (opens_of_head (a := " ") (c := ' ') (by decide) rfl _)

theorem lexes_func {dom rng : Ty} {ls' : List String} (hdom : Lexes dom.render ls)
    (hrng : Lexes rng.render ls') : Lexes (func dom rng).render (ls ++ "->>" :: ls') := by
  have htext : (func dom rng).render = dom.render ++ (" " ++ ("->>" ++ (" " ++ rng.render))) := by
    have hsign : " ->> " = " " ++ ("->>" ++ " ") := rfl
    rw [func, render, renderAt, if_neg Bool.false_ne_true, hsign]
    simp only [String.append_assoc]
    rfl
  rw [htext]
  exact lexes_sides (.inl rfl) hdom hrng

end Types

end Mil.Ty.Reader
