import Mil.Llvm.Generate
import Mil.Proofs.Ty.Reader

/-!
Steps of the construction of a module that declare nothing. Most of what an instruction becomes loads,
computes and stores; the symbols and texts of the module stay as they are. What such steps call is
counted.
-/

namespace Mil.Llvm

/-! ### Runs of the construction -/

/-- A construction leads from one builder to another and gives a value. -/
def Builds {α : Type} (cx : Setting) (x : BuildM α) (b : Builder) (a : α) (b' : Builder) : Prop :=
  (x.run cx).run b = .ok (a, b')

namespace Builds

variable {α β : Type} {cx : Setting} {b b' b'' : Builder}

theorem pure_iff {a a' : α} : Builds cx (pure a) b a' b' ↔ a' = a ∧ b' = b := by
  refine ⟨fun h => ?_, fun ⟨ha, hb⟩ => ha ▸ hb ▸ rfl⟩
  cases h
  exact ⟨rfl, rfl⟩

theorem bind_iff {x : BuildM α} {f : α → BuildM β} {c : β} :
    Builds cx (x >>= f) b c b'' ↔ ∃ a b', Builds cx x b a b' ∧ Builds cx (f a) b' c b'' := by
  refine Except.bind_eq_ok.trans ⟨?_, ?_⟩
  · rintro ⟨⟨a, b'⟩, hx, hf⟩
    exact ⟨a, b', hx, hf⟩
  · rintro ⟨a, b', hx, hf⟩
    exact ⟨(a, b'), hx, hf⟩

theorem get_bind {f : Builder → BuildM β} {c : β} :
    Builds cx (get >>= f) b c b' ↔ Builds cx (f b) b c b' := Iff.rfl

theorem read_bind {f : Setting → BuildM β} {c : β} :
    Builds cx (read >>= f) b c b' ↔ Builds cx (f cx) b c b' := Iff.rfl

theorem modify_bind {g : Builder → Builder} {f : Unit → BuildM β} {c : β} :
    Builds cx (modify g >>= f) b c b' ↔ Builds cx (f ()) (g b) c b' := Iff.rfl

theorem modify_iff {g : Builder → Builder} {u : Unit} : Builds cx (modify g) b u b' ↔ b' = g b := by
  refine ⟨fun h => ?_, fun h => h ▸ rfl⟩
  cases h
  rfl

theorem throw_iff {e : Defect} {a : α} : ¬ Builds cx (throw e) b a b' := nofun

theorem mapM_nil_iff {f : α → BuildM β} {bs : List β} :
    Builds cx (List.mapM f []) b bs b' ↔ bs = [] ∧ b' = b := by
  rw [List.mapM_nil, pure_iff]

theorem mapM_cons_iff {f : α → BuildM β} {a : α} {as : List α} {bs : List β} :
    Builds cx (List.mapM f (a :: as)) b bs b'' ↔ ∃ x xs b', Builds cx (f a) b x b' ∧
      Builds cx (as.mapM f) b' xs b'' ∧ bs = x :: xs := by
  rw [List.mapM_cons, bind_iff]
  constructor
  · rintro ⟨x, b', hx, h⟩
    obtain ⟨xs, b₁, hxs, h⟩ := bind_iff.mp h
    obtain ⟨rfl, rfl⟩ := pure_iff.mp h
    exact ⟨x, xs, b', hx, hxs, rfl⟩
  · rintro ⟨x, xs, b', hx, hxs, rfl⟩
    exact ⟨x, b', hx, bind_iff.mpr ⟨xs, b'', hxs, pure_iff.mpr ⟨rfl, rfl⟩⟩⟩

theorem forM_nil_iff {f : α → BuildM Unit} {u : Unit} :
    Builds cx (([] : List α).forM f) b u b' ↔ b' = b := by
  rw [List.forM_eq_forM, List.forM_nil, pure_iff]
  exact ⟨fun h => h.2, fun h => ⟨rfl, h⟩⟩

theorem forM_cons_iff {f : α → BuildM Unit} {a : α} {as : List α} {u : Unit} :
    Builds cx ((a :: as).forM f) b u b'' ↔ ∃ b', Builds cx (f a) b () b' ∧
      Builds cx (as.forM f) b' () b'' := by
  rw [List.forM_eq_forM, List.forM_cons, bind_iff]
  exact ⟨fun ⟨_, b', hx, hxs⟩ => ⟨b', hx, hxs⟩, fun ⟨b', hx, hxs⟩ => ⟨(), b', hx, hxs⟩⟩

end Builds

/-! ### Steps that declare nothing -/

/-- What an instruction calls. -/
def Inst.callee? : Inst → Option Operand
  | .call _ _ callee _ => some callee
  | _ => none

/-- What the instructions of a block call, in order. -/
def callees (insts : List (Nat × Inst)) : List Operand := insts.filterMap fun q => q.2.callee?

/-- Symbols and texts stay as they are, and code is placed that calls `os`. -/
structure Builder.Places (os : List Operand) (b b' : Builder) : Prop where
  globals : b'.globals = b.globals
  functions : b'.functions = b.functions
  globalOf : b'.globalOf = b.globalOf
  functionOf : b'.functionOf = b.functionOf
  textOf : b'.textOf = b.textOf
  callees : callees b'.insts = callees b.insts ++ os

theorem Builder.Places.refl (b : Builder) : b.Places [] b :=
  ⟨rfl, rfl, rfl, rfl, rfl, (List.append_nil _).symm⟩

theorem Builder.Places.trans {os os' : List Operand} {b b' b'' : Builder} (h : b.Places os b')
    (h' : b'.Places os' b'') : b.Places (os ++ os') b'' :=
  ⟨h'.globals.trans h.globals, h'.functions.trans h.functions, h'.globalOf.trans h.globalOf,
    h'.functionOf.trans h.functionOf, h'.textOf.trans h.textOf,
    by rw [h'.callees, h.callees, List.append_assoc]⟩

/-- The step declares nothing, wherever it is taken, and places code that calls `os`. -/
structure Places {α : Type} (cx : Setting) (os : List Operand) (x : BuildM α) : Prop where
  places_of : ∀ {b a b'}, Builds cx x b a b' → b.Places os b'

section Places

variable {α β : Type} {cx : Setting} {os os' : List Operand} {x : BuildM α}

theorem places_pure (a : α) : Places cx [] (pure a : BuildM α) :=
  ⟨fun h => (Builds.pure_iff.mp h).2 ▸ .refl _⟩

theorem places_throw (e : Defect) : Places cx [] (throw e : BuildM α) :=
  ⟨fun h => (Builds.throw_iff h).elim⟩

theorem Places.bind {f : α → BuildM β} (hx : Places cx os x) (hf : ∀ a, Places cx os' (f a)) :
    Places cx (os ++ os') (x >>= f) := by
  refine ⟨fun h => ?_⟩
  obtain ⟨a, b₁, hxa, hfa⟩ := Builds.bind_iff.mp h
  exact (hx.places_of hxa).trans ((hf a).places_of hfa)

theorem places_get_bind {f : Builder → BuildM β} (hf : ∀ b, Places cx os (f b)) :
    Places cx os (get >>= f) :=
  ⟨fun h => (hf _).places_of (Builds.get_bind.mp h)⟩

theorem places_read_bind {f : Setting → BuildM β} (hf : Places cx os (f cx)) :
    Places cx os (read >>= f) :=
  ⟨fun h => hf.places_of (Builds.read_bind.mp h)⟩

theorem places_modify {g : Builder → Builder} (hg : ∀ b : Builder, b.Places os (g b)) :
    Places cx os (modify g : BuildM Unit) :=
  ⟨fun h => Builds.modify_iff.mp h ▸ hg _⟩

theorem places_modify_bind {g : Builder → Builder} {f : Unit → BuildM β}
    (hg : ∀ b : Builder, b.Places os (g b)) (hf : Places cx [] (f ())) : Places cx os (modify g >>= f) :=
  ⟨fun h => List.append_nil os ▸ (hg _).trans (hf.places_of (Builds.modify_bind.mp h))⟩

theorem places_freshResult : Places cx [] BuildM.freshResult := by
  refine ⟨fun h => ?_⟩
  cases h
  exact ⟨rfl, rfl, rfl, rfl, rfl, (List.append_nil _).symm⟩

theorem places_mapM {f : α → BuildM β} (hf : ∀ a, Places cx [] (f a)) (as : List α) :
    Places cx [] (as.mapM f) := by
  induction as with
  | nil =>
      rw [List.mapM_nil]
      exact places_pure _
  | cons a as ih =>
      rw [List.mapM_cons]
      exact (hf a).bind fun _ => ih.bind fun _ => places_pure _

theorem places_forM {f : α → BuildM Unit} (hf : ∀ a, Places cx [] (f a)) (as : List α) :
    Places cx [] (as.forM f) := by
  induction as with
  | nil => exact places_pure _
  | cons a as ih => exact Places.bind (hf a) fun _ => ih

theorem places_foldlM {f : β → α → BuildM β} (hf : ∀ s a, Places cx [] (f s a)) (as : List α) (s : β) :
    Places cx [] (as.foldlM f s) := by
  induction as generalizing s with
  | nil => exact places_pure _
  | cons a as ih =>
      rw [List.foldlM_cons]
      exact (hf s a).bind fun _ => ih _

end Places

namespace BuildM

section Steps

variable {cx : Setting}

theorem places_wordType : Places cx [] wordType := places_read_bind (places_pure _)

theorem places_word (n : Int) : Places cx [] (word n) := places_wordType.bind fun _ => places_pure _

theorem places_resultType (n : Int) : Places cx [] (resultType n) := by
  refine places_wordType.bind fun w => ?_
  split
  · exact places_pure _
  · split <;> exact places_pure _

theorem places_emit (i : Inst) (t : IrType) : Places cx i.callee?.toList (emit i t) := by
  refine places_freshResult.bind fun n => places_modify_bind (fun b => ?_) (places_pure _)
  exact ⟨rfl, rfl, rfl, rfl, rfl, List.filterMap_append.trans (by cases i <;> rfl)⟩

theorem places_slot (r : Rtl.Reg) : Places cx [] (slot r) := by
  refine places_wordType.bind fun w => places_get_bind fun b => ?_
  split
  · exact places_pure _
  · exact places_freshResult.bind fun n => places_modify_bind
      (fun b => ⟨rfl, rfl, rfl, rfl, rfl, (List.append_nil _).symm⟩) (places_pure _)

theorem places_use (r : Rtl.Reg) : Places cx [] (use r) :=
  places_wordType.bind fun _ => (places_slot r).bind fun _ => places_emit (.load _ _) _

theorem places_define (r : Rtl.Reg) (v : Operand) : Places cx [] (define r v) :=
  (places_slot r).bind fun _ => (places_emit (.store _ _) _).bind fun _ => places_pure _

theorem places_binary (op : BinaryOp) (x y : Operand) : Places cx [] (binary op x y) :=
  places_emit (.binary _ _ _) _

theorem places_convert (op : Conversion) (x : Operand) (t : IrType) : Places cx [] (convert op x t) :=
  places_emit (.convert _ _ _) _

theorem places_call (isTail : Bool) (t : IrType) (callee : Operand) (args : List Operand) :
    Places cx [callee] (call isTail t callee args) :=
  places_emit (.call _ _ _ _) _

theorem places_functionAt (i : Nat) : Places cx [] (functionAt i) :=
  places_get_bind fun _ => places_pure _

theorem places_target (f : Rtl.Function) (n : Rtl.Node) : Places cx [] (target f n) := by
  unfold target
  split
  · exact places_pure _
  · exact places_throw _

theorem places_compareWords (pred : Predicate) (x y : Operand) :
    Places cx [] (compareWords pred x y) :=
  (places_emit (.compare _ _ _) _).bind fun _ => places_wordType.bind fun _ => places_convert _ _ _

theorem places_shift (op : BinaryOp) (x y : Operand) : Places cx [] (shift op x y) :=
  places_read_bind ((places_word _).bind fun _ => (places_binary _ _ _).bind fun _ => places_binary _ _ _)

/-- An offset is added to an address. -/
theorem places_offset (base : Operand) (offset : Int) :
    Places cx [] (do if offset = 0 then return base else binary .add base (← word offset)) := by
  split
  · exact places_pure _
  · exact (places_word _).bind fun _ => places_binary _ _ _

theorem places_storeResults (value : Operand) (dests : List Rtl.Reg) :
    Places cx [] (storeResults value dests) := by
  unfold storeResults
  split
  · exact places_pure _
  · exact places_define _ _
  · exact places_wordType.bind fun _ => places_forM (fun _ => (places_emit (.extract _ _) _).bind
      fun _ => places_define _ _) _

theorem places_returned (vs : List Operand) : Places cx [] (returned vs) := by
  unfold returned
  split
  · exact places_pure _
  · exact places_pure _
  · exact (places_resultType _).bind fun _ => (places_foldlM (fun _ _ => places_emit (.insert _ _ _) _)
      _ _).bind fun _ => places_pure _

theorem places_condition (t : Rtl.Test) (args : List Rtl.Reg) : Places cx [] (condition t args) := by
  have hcompare (pred : Predicate) (x y : Operand) :
      Places cx [] (emit (.compare pred x y) (.int 1)) := places_emit (.compare _ _ _) _
  unfold condition
  split
  · exact (places_use _).bind fun _ => (places_use _).bind fun _ => hcompare _ _ _
  · exact (places_use _).bind fun _ => (places_use _).bind fun _ => hcompare _ _ _
  · exact (places_use _).bind fun _ => (places_word _).bind fun _ => hcompare _ _ _
  · exact places_word _

theorem places_storeParam (r : Rtl.Reg) (name : String) : Places cx [] (storeParam r name) :=
  (places_slot r).bind fun _ => places_freshResult.bind fun _ => places_wordType.bind fun _ =>
    places_modify fun _ => ⟨rfl, rfl, rfl, rfl, rfl, (List.append_nil _).symm⟩

end Steps

end BuildM

end Mil.Llvm
