import Mil.Proofs.Machine.Memory
import Mil.Proofs.Machine.Safety
import Mil.Proofs.Machine.Trail
import Mil.Proofs.Prim.Fold

/-!
Machines of thirty-two bits hold words of thirty-two bits. Words are carried in sixty-four bits, and an
operation cuts what it comes to; so if the literals of the program and the arguments of the calls are
words of the target, then so is, at every moment, every word in the values of temporaries, in what
closures and data store, in the values that are kept, in what is printed and in what is returned.
-/

namespace Mil

/-! ### Words -/

/-- All words are words of thirty-two bits. -/
def Word.AllFit (ws : List Word) : Prop := ∀ w ∈ ws, Word.InRange 32 w

mutual

/-- The words in a value. -/
def Value.words : Value → List Word
  | .word w => [w]
  | .flag _ => []
  | .closure _ fields => wordsOf fields
  | .data _ fields => wordsOf fields

/-- The words in values. -/
def Value.wordsOf : List Value → List Word
  | [] => []
  | v :: vs => v.words ++ wordsOf vs

end

/-- The word that an operand is. -/
def Atom.words : Atom → List Word
  | .lit (.word w) => [w]
  | _ => []

/-- The words that are literals of a tail. -/
def Tail.words (t : Tail) : List Word := t.atoms.flatMap Atom.words

/-- The words that are literals of a body. -/
def Code.words (c : Code) : List Word := c.atoms.flatMap Atom.words

/-- The words that are literals of a definition. -/
def DefnBody.words : DefnBody → List Word
  | .block b => (b.body.map Code.words).getD []
  | .closure k => (k.tail.map Tail.words).getD []
  | .top t => (t.tail.map Tail.words).getD []
  | .external _ => []

/-- The words that are literals of the program are words of thirty-two bits. -/
def Program.LiteralsFit (p : Program) : Prop :=
  ∀ (id : DefnId) (d : Defn), p.defns[id]? = some d → Word.AllFit d.body.words

namespace Word

variable {ws ws' : List Word} {w : Word} {v : Value} {vs : List Value}

@[simp] theorem allFit_nil : AllFit [] := List.forall_mem_nil _

@[simp] theorem allFit_cons : AllFit (w :: ws) ↔ InRange 32 w ∧ AllFit ws := List.forall_mem_cons

@[simp] theorem allFit_append : AllFit (ws ++ ws') ↔ AllFit ws ∧ AllFit ws' := List.forall_mem_append

theorem allFit_append₃ {ws₁ ws₂ ws₃ : List Word} (h₁ : AllFit ws₁) (h₂ : AllFit ws₂) (h₃ : AllFit ws₃) :
    AllFit (ws₁ ++ ws₂ ++ ws₃) :=
  allFit_append.mpr ⟨allFit_append.mpr ⟨h₁, h₂⟩, h₃⟩

@[simp] theorem allFit_flatMap {α : Type} {f : α → List Word} {as : List α} :
    AllFit (as.flatMap f) ↔ ∀ a ∈ as, AllFit (f a) := by
  simp only [AllFit, List.mem_flatMap]
  exact ⟨fun h a ha w hw => h w ⟨a, ha, hw⟩, fun h w ⟨a, ha, hw⟩ => h a ha w hw⟩

theorem allFit_wordsOf : AllFit (Value.wordsOf vs) ↔ ∀ v ∈ vs, AllFit v.words := by
  induction vs with
  | nil => simp [Value.wordsOf]
  | cons v vs ih => rw [Value.wordsOf, allFit_append, ih, List.forall_mem_cons]

theorem allFit_bind {vars : List Temp} {t : Tail} {next : Code} :
    AllFit (Code.bind vars t next).words ↔ AllFit t.words ∧ AllFit next.words := by
  rw [Code.words, Code.atoms, List.flatMap_append, allFit_append]
  exact Iff.rfl

theorem allFit_call {c : Code} {call : BlockCall} (h : AllFit c.words) (hcall : call ∈ c.calls) :
    AllFit (Tail.call call).words := by
  have hargs : call.args ⊆ c.atoms := by
    cases c with
    | bind | done => cases hcall
    | branch cond t f =>
        rcases List.mem_pair.mp hcall with rfl | rfl
        · exact fun a ha => List.mem_append_left _ (.tail _ ha)
        · exact fun a ha => List.mem_append_right _ ha
    | case scrut alts default => exact fun a ha => .tail _ (List.mem_flatMap.mpr ⟨call, hcall, ha⟩)
  exact allFit_flatMap.mpr fun a ha => allFit_flatMap.mp h a (hargs ha)

theorem inRange_flag (b : Bool) : InRange 32 (if b then 1 else 0) := by
  cases b <;> decide

/-- A number of less than thirty-two bits is a word of thirty-two bits. -/
theorem inRange_toInt64 {v : UInt64} (h : v.toNat < 2 ^ 31) : InRange 32 v.toInt64 := by
  have hint : v.toInt64.toInt = v.toNat := by
    rw [← Int64.toInt_toBitVec, UInt64.toBitVec_toInt64, BitVec.toInt_eq_toNat_of_lt]
    · rfl
    · exact Nat.lt_of_lt_of_le (Nat.mul_lt_mul_of_pos_left h Nat.two_pos) (by decide)
  rw [InRange, hint]
  omega

end Word

namespace Machine

open Word

/-! ### Operations -/

section Operations

variable {p : Program} {m m' : Machine} {env : Locals} {vals vs : List Value}

/-- What a number is cut into. -/
theorem allFit_cutWords {bits : Nat} {v : UInt64} (hv : v.toNat < 2 ^ bits) :
    AllFit (cutWords 32 v bits) := by
  unfold cutWords
  split
  · rename_i hbits
    rw [allFit_cons]
    refine ⟨inRange_toInt64 (Nat.lt_of_lt_of_le hv (Nat.pow_le_pow_right Nat.two_pos ?_)), allFit_nil⟩
    omega
  · intro w hw
    obtain ⟨i, -, rfl⟩ := List.mem_map.mp hw
    exact inRange_normalize (.inl rfl) _

theorem wordsOf_map_word (ws : List Word) : Value.wordsOf (ws.map .word) = ws := by
  induction ws with
  | nil => rfl
  | cons w ws ih => rw [List.map_cons, Value.wordsOf, ih, Value.words, List.singleton_append]

/-- What an operation on literals gives. -/
theorem allFit_eval? {op : PrimOp} {args : List Literal} {l : Literal} (h : op.eval? 32 args = some l) :
    AllFit (Value.ofLit l).words := by
  unfold PrimOp.eval? at h
  split at h
  · cases h
    exact allFit_cons.mpr ⟨inRange_flag _, allFit_nil⟩
  · dsimp only at h
    split at h
    · cases h
      exact allFit_nil
    · split at h
      · cases h
        exact allFit_nil
      · obtain ⟨w, -, rfl⟩ := Option.map_eq_some_iff.mp h
        exact allFit_cons.mpr ⟨inRange_normalize (.inl rfl) w, allFit_nil⟩

theorem allFit_divide {rem : Bool} (hsize : m.size = 32) (h : m.divide rem vals = .ok vs) :
    AllFit (Value.wordsOf vs) := by
  unfold divide at h
  dsimp only at h
  split at h
  · cases h
  · cases h
    rw [hsize]
    exact allFit_append.mpr ⟨allFit_cons.mpr ⟨inRange_normalize (.inl rfl) _, allFit_nil⟩, allFit_nil⟩

theorem allFit_pureCall {q : Prim} (hsize : m.size = 32) (h : m.pureCall q vals = .ok vs) :
    AllFit (Value.wordsOf vs) := by
  obtain ⟨lits, -, h⟩ := Except.bind_eq_ok.mp h
  rw [hsize] at h
  split at h
  · rename_i l hl
    cases h
    unfold Prim.fold? at hl
    split at hl
    · exact allFit_append.mpr ⟨allFit_eval? hl, allFit_nil⟩
    · cases hl
  · cases h

theorem bytes_le {op : PrimOp} {a : MemAccess} (h : op.access? = some a) : a.bytes ≤ 8 := by
  unfold PrimOp.access? at h
  split at h <;> cases h <;> decide

/-- What an access gives. -/
theorem allFit_access {a : MemAccess} (hsize : m.size = 32) (ha : a.bytes ≤ 8) :
    AllFit (Value.wordsOf (m.access a vals).1) := by
  unfold access
  split
  · exact allFit_nil
  · dsimp only
    rw [wordsOf_map_word, hsize]
    exact allFit_cutWords (Memory.toNat_load_lt _ _ ha)

/-- What a primitive gives and prints. -/
theorem allFit_prim {q : Prim} (hsize : m.size = 32) (hprinted : AllFit m.printed)
    (h : m.prim q vals = .ok (vs, m')) : AllFit (Value.wordsOf vs) ∧ AllFit m'.printed := by
  have hpure {r : Except Halt (List Value)} (hr : ∀ vs, r = .ok vs → AllFit (Value.wordsOf vs))
      (h : r.map (fun vs => (vs, m)) = .ok (vs, m')) :
      AllFit (Value.wordsOf vs) ∧ AllFit m'.printed := by
    obtain ⟨ws, hws, heq⟩ := Except.map_eq_ok h
    cases heq
    exact ⟨hr vs hws, hprinted⟩
  unfold prim at h
  split at h
  · exact hpure (fun _ => allFit_divide hsize) h
  · exact hpure (fun _ => allFit_divide hsize) h
  · exact hpure (fun _ => allFit_divide hsize) h
  · cases h
  · cases h
  · cases h
    rw [hsize]
    exact ⟨allFit_nil, allFit_cons.mpr ⟨inRange_normalize (.inl rfl) _, hprinted⟩⟩
  · cases h
  · split at h
    · rename_i a ha
      have hfit : AllFit (Value.wordsOf (m.access a vals).1) := allFit_access hsize (bytes_le ha)
      have hsame : (m.access a vals).2.printed = m.printed := by
        unfold access
        split <;> rfl
      rw [Except.ok.inj h] at hfit hsame
      exact ⟨hfit, hsame ▸ hprinted⟩
    · exact hpure (fun _ => allFit_pureCall hsize) h

/-- The words that temporaries have. -/
def Locals.words (env : Locals) : List Word := env.flatMap fun e => e.2.words

theorem allFit_of_lookup (h : AllFit env.words) {t : Temp} {v : Value} (hv : env.lookup t = some v) :
    AllFit v.words :=
  allFit_flatMap.mp h (t, v) (mem_of_lookup hv)

theorem allFit_assign (vars : List Temp) (hvals : AllFit (Value.wordsOf vals)) (h : AllFit env.words) :
    AllFit (assign env vars vals).words := by
  refine allFit_flatMap.mpr fun e he => ?_
  rcases List.mem_append.mp he with he | he
  · exact allFit_wordsOf.mp hvals e.2 (List.of_mem_zip (List.mem_reverse.mp he)).2
  · exact allFit_flatMap.mp h e he

/-- The words that are kept or were printed. -/
def words (m : Machine) : List Word := (m.tops.flatMap fun e => Value.wordsOf e.2) ++ m.printed

/-- The machine has thirty-two bits, and so has all that is kept or was printed. -/
structure Fits (m : Machine) : Prop where
  size : m.size = 32
  tops : ∀ e ∈ m.tops, AllFit (Value.wordsOf e.2)
  printed : AllFit m.printed

theorem Fits.allFit_words (h : m.Fits) : AllFit m.words :=
  allFit_append.mpr ⟨allFit_flatMap.mpr h.tops, h.printed⟩

theorem Fits.of_steady (h : m.Fits) (hs : Steady m m') (hprinted : AllFit m'.printed) : m'.Fits :=
  ⟨hs.size.trans h.size, hs.tops ▸ h.tops, hprinted⟩

theorem Fits.atom (h : m.Fits) (henv : AllFit env.words) {a : Atom} (ha : AllFit a.words) {v : Value}
    (hv : Machine.atom p m env a = .ok v) : AllFit v.words := by
  cases a with
  | temp t =>
      unfold Machine.atom at hv
      dsimp only at hv
      split at hv
      · rename_i hlookup
        cases hv
        exact allFit_of_lookup henv hlookup
      · cases hv
  | lit l =>
      cases hv
      cases l with
      | word w => exact ha
      | flag b => exact allFit_nil
  | top i index site =>
      obtain ⟨id, vals, -, hlookup, hget⟩ := topValue_eq_ok.mp hv
      exact allFit_wordsOf.mp (h.tops (id, vals) (mem_of_lookup hlookup)) v (List.mem_of_getElem? hget)

theorem Fits.atoms (h : m.Fits) (henv : AllFit env.words) {as : List Atom}
    (has : ∀ a ∈ as, AllFit a.words) (hvals : Machine.atoms p m env as = .ok vals) :
    AllFit (Value.wordsOf vals) := by
  refine allFit_wordsOf.mpr fun v hv => ?_
  obtain ⟨a, ha, hav⟩ := exists_of_mem_right (atoms_eq_ok.mp hvals) hv
  exact h.atom henv (has a ha) hav

/-- The words of what an operation comes to. -/
def Effect.words : Effect → List Word
  | .values vs => Value.wordsOf vs
  | .body c env => (c.map Code.words).getD [] ++ env.words
  | .tail t env => (t.map Tail.words).getD [] ++ env.words

end Operations

section Program

variable {p : Program} {m m' : Machine} {env : Locals} {vals : List Value} (hp : p.LiteralsFit)
include hp

theorem allFit_block {id : DefnId} {b : Block} (hb : p.block id = .ok b) :
    AllFit ((b.body.map Code.words).getD []) := by
  obtain ⟨d, hd, hbody⟩ := exists_of_block hb
  have hfit := hp id d hd
  rwa [hbody] at hfit

theorem allFit_closure {id : DefnId} {k : Closure} (hk : p.closure id = .ok k) :
    AllFit ((k.tail.map Tail.words).getD []) := by
  obtain ⟨d, hd, hbody⟩ := exists_of_closure hk
  have hfit := hp id d hd
  rwa [hbody] at hfit

/-- The tail of a top-level definition that is waited for. -/
theorem allFit_due {id : DefnId} {pos : Position} {t : Option Tail} (h : (Stall.top id pos t).Due p m) :
    AllFit ((t.map Tail.words).getD []) := by
  obtain ⟨-, -, d, tl, hd, hbody, rfl⟩ := h
  have hfit := hp id d hd
  rwa [hbody] at hfit

/-- What an operation comes to. -/
theorem Fits.operate (h : m.Fits) {t : Tail} (ht : AllFit t.words) (henv : AllFit env.words) {e : Effect}
    (hop : operate p m env t = .ok (e, m')) : AllFit e.words ∧ m'.Fits := by
  have hargs {as : List Atom} (has : as ⊆ t.atoms) {vs : List Value}
      (hvs : Machine.atoms p m env as = .ok vs) : AllFit (Value.wordsOf vs) :=
    h.atoms henv (fun a ha => allFit_flatMap.mp ht a (has ha)) hvs
  have harg {a : Atom} (ha : a ∈ t.atoms) {v : Value} (hv : Machine.atom p m env a = .ok v) :
      AllFit v.words := h.atom henv (allFit_flatMap.mp ht a ha) hv
  have hnil : AllFit (Locals.words []) := allFit_nil
  cases t with
  | ret args =>
      obtain ⟨vals, hvals, hop⟩ := Except.bind_eq_ok.mp hop
      cases hop
      exact ⟨hargs (fun _ h => h) hvals, h⟩
  | call c =>
      obtain ⟨vals, b, pos, hvals, hb, rfl, rfl⟩ := operate_call_inv hop
      exact ⟨allFit_append.mpr ⟨allFit_block hp hb, allFit_assign _ (hargs (fun _ h => h) hvals) hnil⟩,
        ⟨h.size, h.tops, h.printed⟩⟩
  | prim q args inst =>
      have hsteady := (still_operate hop).toSteady
      obtain ⟨vals, -, hop⟩ := Except.bind_eq_ok.mp hop
      obtain ⟨⟨vs, m₁⟩, hprim, hop⟩ := Except.bind_eq_ok.mp hop
      cases hop
      obtain ⟨hvs, hprinted⟩ := allFit_prim h.size h.printed (orHalt_eq_ok hprim)
      exact ⟨hvs, h.of_steady hsteady hprinted⟩
  | alloc k args inst =>
      obtain ⟨vals, hvals, hop⟩ := Except.bind_eq_ok.mp hop
      cases hop
      exact ⟨allFit_append.mpr ⟨hargs (fun _ h => h) hvals, allFit_nil⟩, h⟩
  | data k args inst =>
      obtain ⟨vals, hvals, hop⟩ := Except.bind_eq_ok.mp hop
      cases hop
      exact ⟨allFit_append.mpr ⟨hargs (fun _ h => h) hvals, allFit_nil⟩, h⟩
  | enter fn args =>
      obtain ⟨id, stored, vals, k, pos, hfn, hvals, hk, rfl, rfl⟩ := operate_enter_inv hop
      exact ⟨allFit_append.mpr ⟨allFit_closure hp hk, allFit_assign _ (hargs (fun _ h => .tail _ h) hvals)
        (allFit_assign _ (harg (.head _) hfn) hnil)⟩, ⟨h.size, h.tops, h.printed⟩⟩
  | sel k field arg inst =>
      obtain ⟨v, hv, hop⟩ := Except.bind_eq_ok.mp hop
      dsimp only at hop
      split at hop
      · rename_i f hfound
        cases hop
        refine ⟨allFit_append.mpr ⟨?_, allFit_nil⟩, h⟩
        split at hfound
        · exact allFit_wordsOf.mp (harg (.head _) hv) f (List.mem_of_getElem? hfound)
        · cases hfound
      · cases hop

end Program

/-! ### Moments -/

/-- The words of what is taken up again. -/
def Resume.words : Resume → List Word
  | .operation t env => t.words ++ env.words
  | .code c env => c.words ++ env.words

/-- The words of what remains to be done. -/
def Frame.words : Frame → List Word
  | .bind _ next env => next.words ++ env.words
  | .top _ _ resume => (resume.map Resume.words).getD []

/-- The words of what a machine is doing: those in the values of temporaries, in values that are handed
on or returned, and the literals of what is still to be evaluated. -/
def Doing.words : Doing → List Word
  | .count t env stack => (t.map Tail.words).getD [] ++ env.words ++ stack.flatMap Frame.words
  | .perform t env stack => t.words ++ env.words ++ stack.flatMap Frame.words
  | .body c env stack => (c.map Code.words).getD [] ++ env.words ++ stack.flatMap Frame.words
  | .hand vals stack => Value.wordsOf vals ++ stack.flatMap Frame.words
  | .unwind _ stack => stack.flatMap Frame.words
  | .ended (.ok vals) => Value.wordsOf vals
  | .ended (.error _) => []

/-- All words at a moment are words of thirty-two bits. -/
structure Ranged (x : Doing × Machine) : Prop where
  doing : AllFit x.1.words
  machine : x.2.Fits

section Moments

variable {p : Program} {m : Machine} {x y : Doing × Machine} (hp : p.LiteralsFit)
include hp

theorem ranged_stalled (h : m.Fits) {s : Stall} (hdue : s.Due p m) (resume : Option Resume)
    (hresume : AllFit ((resume.map Resume.words).getD [])) {stack : List Frame}
    (hstack : AllFit (stack.flatMap Frame.words)) : Ranged (stalled m s resume stack) := by
  cases s with
  | halt e => exact ⟨hstack, h⟩
  | top id pos t =>
      refine ⟨?_, h.size, h.tops, h.printed⟩
      rw [stalled, Doing.words, List.flatMap_cons, allFit_append, allFit_append, allFit_append]
      exact ⟨⟨allFit_due hp hdue, allFit_nil⟩, hresume, hstack⟩

section Advance

variable {env : Locals} {stack : List Frame} (hm : m.Fits) (hstack : AllFit (stack.flatMap Frame.words))
include hm hstack

theorem ranged_advance_perform {t : Tail} (ht : AllFit t.words) (henv : AllFit env.words) :
    Ranged (advance p (.perform t env stack, m)) := by
  unfold Machine.advance
  dsimp only
  split
  · rename_i hop
    exact ranged_stalled hp hm (errs_operate env t _ hop) (some (.operation t env))
      (allFit_append.mpr ⟨ht, henv⟩) hstack
  all_goals
    rename_i hop
    obtain ⟨he, hm'⟩ := hm.operate hp ht henv hop
    exact ⟨allFit_append.mpr ⟨he, hstack⟩, hm'⟩

theorem ranged_advance_body {c : Code} (hc : AllFit c.words) (henv : AllFit env.words) :
    Ranged (advance p (.body (some c) env stack, m)) := by
  have hcall {call : BlockCall} (hmem : call ∈ c.calls) :
      Ranged (.count (some (.call call)) env stack, m) :=
    ⟨allFit_append₃ (allFit_call hc hmem) henv hstack, hm⟩
  have hstall {s : Stall} (hdue : s.Due p m) : Ranged (stalled m s (some (.code c env)) stack) :=
    ranged_stalled hp hm hdue (some (.code c env)) (allFit_append.mpr ⟨hc, henv⟩) hstack
  unfold Machine.advance
  cases c with
  | bind vars t next =>
      obtain ⟨ht, hnext⟩ := allFit_bind.mp hc
      exact ⟨allFit_append₃ ht henv (allFit_append₃ hnext henv hstack), hm⟩
  | done t => exact ⟨allFit_append₃ hc henv hstack, hm⟩
  | branch cond t f =>
      dsimp only
      split
      · exact hcall (mem_calls_of_chooseFlag ‹_›)
      · exact hstall (due_of_chooseFlag ‹_›)
  | case scrut alts default =>
      dsimp only
      split
      · exact hcall (mem_calls_of_chooseAlt ‹_›)
      · exact hstall (due_of_chooseAlt ‹_›)

omit hp in
theorem ranged_advance_hand {vals : List Value} {frame : Frame} (hvals : AllFit (Value.wordsOf vals))
    (hframe : AllFit frame.words) : Ranged (advance p (.hand vals (frame :: stack), m)) := by
  cases frame with
  | bind vars next env =>
      obtain ⟨hnext, henv⟩ := allFit_append.mp hframe
      unfold Machine.advance
      dsimp only
      split
      · exact ⟨hstack, hm⟩
      · exact ⟨allFit_append₃ hnext (allFit_assign vars hvals henv) hstack, hm⟩
  | top id saved resume =>
      have hm' : (m.keeping id saved vals).Fits :=
        ⟨hm.size, List.forall_mem_cons.mpr ⟨hvals, hm.tops⟩, hm.printed⟩
      refine ⟨?_, hm'⟩
      cases resume with
      | none => exact allFit_append.mpr ⟨hvals, hstack⟩
      | some resume => cases resume <;> exact allFit_append.mpr ⟨hframe, hstack⟩

end Advance

/-- One transition. -/
theorem Ranged.advance (h : Ranged x) : Ranged (advance p x) := by
  obtain ⟨d, m⟩ := x
  obtain ⟨hdoing, hm⟩ := h
  cases d with
  | count t env stack =>
      obtain ⟨hwork, hstack⟩ := allFit_append.mp hdoing
      have hm' : m.tick.Fits := ⟨hm.size, hm.tops, hm.printed⟩
      unfold Machine.advance
      dsimp only
      split
      · exact ⟨hstack, hm'⟩
      · cases t with
        | some t => exact ⟨allFit_append.mpr ⟨hwork, hstack⟩, hm'⟩
        | none => exact ⟨hstack, hm'⟩
  | perform t env stack =>
      obtain ⟨hwork, hstack⟩ := allFit_append.mp hdoing
      obtain ⟨ht, henv⟩ := allFit_append.mp hwork
      exact ranged_advance_perform hp hm hstack ht henv
  | body c env stack =>
      obtain ⟨hwork, hstack⟩ := allFit_append.mp hdoing
      obtain ⟨hc, henv⟩ := allFit_append.mp hwork
      cases c with
      | none => exact ⟨hstack, hm⟩
      | some c => exact ranged_advance_body hp hm hstack hc henv
  | hand vals stack =>
      obtain ⟨hvals, hstack⟩ := allFit_append.mp hdoing
      cases stack with
      | nil => exact ⟨hvals, hm⟩
      | cons frame stack =>
          obtain ⟨hframe, hstack⟩ := allFit_append.mp hstack
          exact ranged_advance_hand hm hstack hvals hframe
  | unwind e stack =>
      cases stack with
      | nil => exact ⟨allFit_nil, hm⟩
      | cons frame stack =>
          have hstack : AllFit (stack.flatMap Frame.words) := (allFit_append.mp hdoing).2
          cases frame with
          | bind vars next env => exact ⟨hstack, hm⟩
          | top id saved resume => exact ⟨hstack, hm.size, hm.tops, hm.printed⟩
  | ended r => exact ⟨hdoing, hm⟩

/-- The start of a call. -/
theorem ranged_begin (h : m.Fits) (id : DefnId) {args : List Value} (hargs : AllFit (Value.wordsOf args)) :
    Ranged (begin p m id args) := by
  have hpos (pos : Position) : Fits { m with pos } := ⟨h.size, h.tops, h.printed⟩
  unfold begin
  split
  · exact ⟨allFit_nil, h⟩
  · rename_i d hd
    have hfit := hp _ d (exists_of_defn hd)
    split
    · rename_i b hb
      rw [hb] at hfit
      split
      · exact ⟨allFit_nil, hpos d.pos⟩
      · exact ⟨allFit_append₃ hfit (allFit_assign _ hargs allFit_nil) allFit_nil, hpos d.pos⟩
    · split
      · rename_i vals hvals
        unfold topValues at hvals
        split at hvals
        · rename_i hlookup
          cases hvals
          exact ⟨allFit_append.mpr ⟨h.tops (_, vals) (mem_of_lookup hlookup), allFit_nil⟩, hpos d.pos⟩
        · split at hvals
          · cases hvals
          · split at hvals
            · split at hvals <;> cases hvals
            · cases hvals
      · rename_i htop
        exact ranged_stalled hp (hpos d.pos) (errs_topValues _ _ htop) none allFit_nil allFit_nil
    · exact ⟨allFit_nil, hpos d.pos⟩

end Moments

/-- From one moment to a later one, where the arguments of all calls in between are as required. -/
inductive GoesBy (p : Program) (Ok : List Value → Prop) (x : Doing × Machine) : Doing × Machine → Prop
  | refl : GoesBy p Ok x x
  | advance {y : Doing × Machine} (h : GoesBy p Ok x y) : GoesBy p Ok x (advance p y)
  | giveUp {t : Option Tail} {env : Locals} {stack : List Frame} {m : Machine}
      (h : GoesBy p Ok x (.count t env stack, m)) : GoesBy p Ok x (.unwind m.outOfFuel stack, m)
  | call {r : Except Halt (List Value)} {m : Machine} (h : GoesBy p Ok x (.ended r, m)) (id : DefnId)
      {args : List Value} (hargs : Ok args) : GoesBy p Ok x (begin p { m with printed := [] } id args)

/-- All words in values are words of thirty-two bits. -/
def ValuesFit (vals : List Value) : Prop := AllFit (Value.wordsOf vals)

section Runs

variable {p : Program} {Ok : List Value → Prop} {x y z : Doing × Machine} {m : Machine}
  {r : Except Halt (List Value)}

theorem GoesBy.goes (h : GoesBy p Ok x y) : ∃ log, Goes p x log y := by
  induction h with
  | refl => exact ⟨_, .refl⟩
  | advance _ ih => exact ih.elim fun _ h => ⟨_, .advance h⟩
  | giveUp _ ih => exact ih.elim fun _ h => ⟨_, .giveUp h⟩
  | call _ id _ ih => exact ih.elim fun _ h => ⟨_, .call h id _⟩

theorem GoesBy.proceeds {log : List DefnId} (h : GoesBy p Ok x y) (hyz : Proceeds p y log z) :
    GoesBy p Ok x z := by
  induction hyz with
  | refl => exact h
  | advance _ ih => exact .advance ih
  | giveUp _ ih => exact .giveUp ih

/-- A machine that has done nothing. -/
def fresh (fuel : Int) : Doing × Machine := (.ended (.ok []), new 32 fuel)

/-- After a call the machine is at a moment again. -/
theorem GoesBy.run {fuel : Int} (h : GoesBy p Ok (fresh fuel) (.ended r, m)) (id : DefnId)
    {args : List Value} (hargs : Ok args) :
    GoesBy p Ok (fresh fuel) (.ended (run p m id args).1, (run p m id args).2) := by
  obtain ⟨log, hgoes⟩ := h.goes
  obtain ⟨l, hrun⟩ := ((orderly_new (.ok []) 32 fuel).goes hgoes).proceeds_run id args
  exact (h.call id hargs).proceeds hrun

/-- So it is after any number of calls. -/
theorem GoesBy.runs {fuel : Int} (h : GoesBy p Ok (fresh fuel) (.ended r, m))
    {calls : List (DefnId × List Value)} (hcalls : ∀ c ∈ calls, Ok c.2) :
    ∃ r', GoesBy p Ok (fresh fuel) (.ended r', runs p m calls) := by
  induction calls generalizing r m with
  | nil => exact ⟨r, h⟩
  | cons c calls ih =>
      obtain ⟨hc, hcalls⟩ := List.forall_mem_cons.mp hcalls
      exact ih (h.run c.1 hc) hcalls

/-- At every moment all words are words of thirty-two bits. -/
theorem GoesBy.ranged (hp : p.LiteralsFit) (h : GoesBy p ValuesFit x y) (hx : Ranged x) : Ranged y := by
  induction h with
  | refl => exact hx
  | advance _ ih => exact ih.advance hp
  | giveUp _ ih => exact ⟨(allFit_append.mp ih.doing).2, ih.machine⟩
  | @call r m _ id args hargs ih =>
      have hm : Fits { m with printed := [] } := ⟨ih.machine.size, ih.machine.tops, allFit_nil⟩
      exact ranged_begin hp hm id hargs

theorem ranged_fresh (fuel : Int) : Ranged (fresh fuel) :=
  ⟨allFit_nil, rfl, List.forall_mem_nil _, allFit_nil⟩

/-- Runs stay inside the word size. On a machine of thirty-two bits, for every program whose literals are
words of thirty-two bits and any number of calls whose arguments are: at every moment so are all words
in the values of temporaries, whatever closures and data store, in values that are handed on or
returned, in those that are kept, and in what was printed. A run goes from one such moment to another, so
this holds of what any number of runs in turn come to. -/
theorem words_fit (hp : p.LiteralsFit) (fuel : Int) :
    (∀ d m, GoesBy p ValuesFit (fresh fuel) (d, m) → AllFit d.words ∧ AllFit m.words) ∧
    (∀ r m, GoesBy p ValuesFit (fresh fuel) (.ended r, m) → ∀ id args, ValuesFit args →
      GoesBy p ValuesFit (fresh fuel) (.ended (run p m id args).1, (run p m id args).2)) ∧
    ∀ calls, (∀ c ∈ calls, ValuesFit c.2) → ∀ id args, ValuesFit args →
      (∀ vals, (run p (runs p (new 32 fuel) calls) id args).1 = .ok vals → ValuesFit vals) ∧
      AllFit (run p (runs p (new 32 fuel) calls) id args).2.words := by
  have hranged {d : Doing} {m : Machine} (h : GoesBy p ValuesFit (fresh fuel) (d, m)) :
      Ranged (d, m) := h.ranged hp (ranged_fresh fuel)
  refine ⟨fun d m h => ⟨(hranged h).doing, (hranged h).machine.allFit_words⟩,
    fun r m h id args hargs => h.run id hargs, fun calls hcalls id args hargs => ?_⟩
  have hstart : GoesBy p ValuesFit (fresh fuel) (fresh fuel) := .refl
  obtain ⟨r, hruns⟩ := hstart.runs hcalls
  have hrun := hranged (hruns.run id hargs)
  refine ⟨fun vals hvals => ?_, hrun.machine.allFit_words⟩
  have hdoing := hrun.doing
  rw [hvals] at hdoing
  exact hdoing

end Runs

/-- A block that adds the largest word to its argument, and prints and returns the sum. -/
def wrapping : Program :=
  { Program.empty with
    defns := #[{ Defn.new "main" .unknown (.block (.new [0] (some
        (.bind [1] (.prim (.builtin .add) [.temp 0, .word 2147483647] none)
          (.bind [] (.prim (.builtin .printWord) [.temp 1] none)
            (.done (.ret [.temp 1]))))))) with entry := true }]
    entries := [0] }

theorem literalsFit_wrapping : wrapping.LiteralsFit := by
  intro id d hd
  match id with
  | 0 =>
      cases hd
      exact List.forall_mem_singleton.mpr (by decide : Word.InRange 32 2147483647)
  | id + 1 => cases hd

/-- The sum goes round. -/
theorem words_fit_wrapping : wrapping.LiteralsFit ∧ ValuesFit [.word 1] ∧
    (run wrapping (runs wrapping (new 32 0) []) 0 [.word 1]).1 = .ok [.word (-2147483648)] ∧
    ValuesFit [.word (-2147483648)] ∧
    AllFit (run wrapping (runs wrapping (new 32 0) []) 0 [.word 1]).2.words := by
  have hargs : ValuesFit [.word 1] := List.forall_mem_singleton.mpr (by decide : Word.InRange 32 1)
  have hrun : (run wrapping (runs wrapping (new 32 0) []) 0 [.word 1]).1 = .ok [.word (-2147483648)] := rfl
  obtain ⟨-, -, hruns⟩ := words_fit literalsFit_wrapping 0
  obtain ⟨hvals, hwords⟩ := hruns [] (List.forall_mem_nil _) 0 [.word 1] hargs
  exact ⟨literalsFit_wrapping, hargs, hrun, hvals _ hrun, hwords⟩

end Machine

end Mil
