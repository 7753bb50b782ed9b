import Mil.Proofs.Machine.Preserve
import Mil.Proofs.Rep.Bits

/-!
Functions on bit vectors. An implementation is a top-level definition that holds a closure; the closure
calls a block, and the block computes the words of the result. A vector goes in as its words and comes out
as its words, so what is computed on words is a function on numbers.
-/

namespace Mil.Rep

open Machine (Reaches Locals AgreeBelow)

variable {n w : Nat}

/-- Whenever the closure is entered with the words of a number of `w` bits, it returns the words of what
the function gives. -/
structure Implements (q : Program) (n w : Nat) (impl : DefnId) (f : Nat → Nat) : Prop where
  value : ∃ k m', Machine.Returns q (.new n 0) impl [] [.closure k []] m' ∧
    ∀ (x : Nat), x < 2 ^ w →
    ∀ (m : Machine) (env : Locals) (stack : List Machine.Frame) (fn : Atom) (args : List Atom),
      m.size = n → m.fuel ≤ 0 → Machine.atom q m env fn = .ok (.closure k []) →
      Machine.atoms q m env args = .ok ((splitWords n x w).map .word) →
      ∃ pos steps, Reaches q (.tail (some (.enter fn args)) env stack, m)
        (Machine.deliver q stack { m with pos, steps } ((splitWords n (f x) w).map .word))

/-! ### Different temporaries -/

section Assign

variable {p : Program} {m : Machine} {env : Locals} {ts : List Temp} {vals : List Value}

theorem atoms_assign (hnodup : ts.Nodup) (hlen : ts.length = vals.length) :
    Machine.atoms p m (Machine.assign env ts vals) (ts.map .temp) = .ok vals := by
  refine Machine.atoms_eq_ok.mpr (List.forall₂_map_left_iff.mpr ?_)
  exact List.Forall₂.imp (fun _ _ h => atom_temp h p m) (Machine.forall₂_lookup_assign env hnodup hlen)

/-- Temporaries that were given the words of the target have them. -/
theorem holdsWords_assign (env : Locals) {bs : List (BitVec n)} (hnodup : ts.Nodup)
    (hlen : ts.length = bs.length) :
    HoldsWords (Machine.assign env ts ((bs.map Word.ofBits).map .word)) ts bs := by
  have hvals : ts.length = ((bs.map Word.ofBits).map Value.word).length := by simpa
  have hlookup := Machine.forall₂_lookup_assign env hnodup hvals
  rw [List.map_map, List.forall₂_map_right_iff] at hlookup
  rw [List.map_map]
  exact hlookup

/-- The words of the target are read from the temporaries that have them. -/
theorem HoldsWords.atoms {bs : List (BitVec n)} (h : HoldsWords env ts bs) :
    Machine.atoms p m env (ts.map .temp) = .ok ((bs.map Word.ofBits).map .word) := by
  rw [List.map_map]
  refine Machine.atoms_eq_ok.mpr (List.forall₂_map_left_iff.mpr (List.forall₂_map_right_iff.mpr ?_))
  exact List.Forall₂.imp (fun _ _ h => atom_temp h p m) h

end Assign

/-! ### A closure that calls a block -/

/-- A block, a closure that calls it with its arguments, and a top-level definition that holds the
closure, one after the other. -/
structure FunctionAt (q : Program) (base : DefnId) (params : List Temp) (body : Code)
    (args : List Temp) : Prop where
  block : ∃ d b, q.defns[base]? = some d ∧ d.replacedBy = none ∧ d.body = .block b ∧
    b.params = params ∧ b.body = some body
  closure : ∃ d k inst, q.defns[base + 1]? = some d ∧ d.replacedBy = none ∧ d.body = .closure k ∧
    k.params = [] ∧ k.args = args ∧ k.tail = some (.call ⟨base, args.map .temp, inst⟩)
  top : ∃ d t inst, q.defns[base + 2]? = some d ∧ d.replacedBy = none ∧ d.body = .top t ∧
    t.tail = some (.alloc (base + 1) [] inst)

section FunctionAt

variable {q : Program} {base : DefnId} {params args : List Temp} {body : Code} {m : Machine}

/-- The top-level definition has the closure as its value. -/
theorem FunctionAt.returns_top (h : FunctionAt q base params body args) (size : Int) :
    ∃ m', Machine.Returns q (.new size 0) (base + 2) [] [.closure (base + 1) []] m' := by
  obtain ⟨d, t, inst, hd, hkept, hbody, htail⟩ := h.top
  obtain ⟨_, -, -, he, hkept', -⟩ := h.closure
  have hstall : Machine.topValues q { Machine.new size 0 with pos := d.pos } (base + 2) =
      .error (.top (base + 2) d.pos t.tail) := by
    unfold Machine.topValues
    rw [defn_eq hd]
    dsimp only
    rw [hbody]
    rfl
  have hstart : Machine.start q (.new size 0) (base + 2) [] =
      (.tail (some (.alloc (base + 1) [] inst)) [] [.top (base + 2) d.pos none],
        { Machine.new size 0 with pos := d.pos, active := [base + 2] }) := by
    unfold Machine.start
    dsimp only
    rw [resolve_of_defn hd hkept, defn_eq hd]
    dsimp only
    rw [hbody]
    dsimp only
    rw [hstall, htail]
    rfl
  have hop (m : Machine) : Machine.operate q m [] (.alloc (base + 1) [] inst) =
      .ok (.values [.closure (base + 1) []], m) := by
    conv_rhs => rw [← resolve_of_defn he hkept']
    rfl
  have hloop : (Machine.loop q (0 + 1) (Machine.start q (.new size 0) (base + 2) []).1
      (Machine.start q (.new size 0) (base + 2) []).2).1 = .ok [.closure (base + 1) []] := by
    rw [hstart, Machine.loop_succ (Int.le_refl _), Machine.Job.go, Machine.perform, hop]
    rfl
  exact ⟨_, _, Prod.ext hloop rfl⟩

/-- Entering the closure runs the body of the block on the operands. -/
theorem FunctionAt.reaches_body (h : FunctionAt q base params body args) (hfuel : m.fuel ≤ 0)
    {env : Locals} {fn : Atom} {operands : List Atom} {vals : List Value}
    (hfn : Machine.atom q m env fn = .ok (.closure (base + 1) []))
    (hvals : Machine.atoms q m env operands = .ok vals) (hnodup : args.Nodup)
    (hargs : args.length = vals.length) (stack : List Machine.Frame) :
    ∃ pos steps, Reaches q (.tail (some (.enter fn operands)) env stack, m)
      (Machine.enterCode q { m with pos, steps } body (Machine.assign [] params vals) stack) := by
  obtain ⟨e, k, inst, he, hkept, hk, hparams, hkargs, htail⟩ := h.closure
  obtain ⟨d, b, hd, hkept', hb, rfl, hbody⟩ := h.block
  subst hkargs
  have henter : Machine.operate q m.tick env (.enter fn operands) =
      .ok (.tail k.tail (Machine.assign [] k.args vals), { m.tick with pos := e.pos }) := by
    have hfn' : Machine.atom q m.tick env fn = .ok (.closure (base + 1) []) := hfn
    have hvals' : Machine.atoms q m.tick env operands = .ok vals := hvals
    unfold Machine.operate Machine.enter
    dsimp only
    rw [hfn']
    dsimp only [Bind.bind, Except.bind]
    rw [hvals']
    dsimp only
    rw [resolve_of_defn he hkept, closure_eq he hk]
    dsimp only [Machine.orDefect]
    rw [if_neg (by simp [hparams, hargs]), defn_eq he, hparams]
    rfl
  refine ⟨d.pos, m.steps + 1 + 1, (Machine.reaches_tail hfuel _ env stack).trans ?_⟩
  rw [Machine.Job.go, Machine.perform, henter, htail]
  exact reaches_call (m := { m.tick with pos := e.pos }) (c := ⟨base, k.args.map .temp, inst⟩) hfuel hd
    hkept' hb hbody (atoms_assign hnodup hargs) stack

/-- A body that computes the words of the result makes the closure a function on vectors. -/
theorem FunctionAt.implements (hn : Width n) {bs : List Binding} {zs : List Temp} {f : Nat → Nat}
    (h : FunctionAt q base params (sequence bs (.ret (zs.map .temp))) args)
    (hparams : params.Nodup ∧ params.length = (wordsFor n w).toNat)
    (hargs : args.Nodup ∧ args.length = (wordsFor n w).toNat)
    (hbody : ∀ (env : Locals) (xs : List (BitVec n)), HoldsWords env params xs → number xs < 2 ^ w →
      ∃ (env' : Locals) (ys : List (BitVec n)), Fills q n env bs env' ∧ HoldsWords env' zs ys ∧
        ys.length = xs.length ∧ number ys = f (number xs)) :
    Implements q n w (base + 2) f := by
  obtain ⟨m', hvalue⟩ := h.returns_top n
  refine ⟨base + 1, m', hvalue, fun x hx m env stack fn operands hsize hfuel hfn hoperands => ?_⟩
  obtain ⟨xs, hlen, rfl, hwords⟩ := exists_splitWords hn hx
  rw [hwords] at hoperands
  obtain ⟨pos, steps, hreach⟩ := h.reaches_body hfuel hfn hoperands hargs.1 (by simp [hargs.2, hlen]) stack
  obtain ⟨env', ys, hfills, hys, hlen', hnumber⟩ := hbody _ xs
    (holdsWords_assign [] hparams.1 (hparams.2.trans hlen.symm)) hx
  have hdone := hfills.reaches (m := { m with pos, steps }) hsize hfuel (.ret (zs.map .temp)) stack
  refine ⟨pos, steps + bs.length + 1, hreach.trans (hdone.trans ?_)⟩
  rw [← hnumber, splitWords_number hn (hlen'.trans hlen)]
  exact reaches_values (m := { m with pos, steps := steps + bs.length }) hfuel (operate_ret hys.atoms) stack

end FunctionAt

/-! ### The functions that are made -/

/-- Definitions that were added one after the other are where they were added. -/
theorem getElem?_push_push (defns : Array Defn) (d₁ d₂ d₃ : Defn) :
    (((defns.push d₁).push d₂).push d₃)[defns.size]? = some d₁ ∧
    (((defns.push d₁).push d₂).push d₃)[defns.size + 1]? = some d₂ ∧
    (((defns.push d₁).push d₂).push d₃)[defns.size + 2]? = some d₃ := by
  simp only [Array.getElem?_push, Array.size_push]
  refine ⟨?_, ?_, ?_⟩
  · rw [if_neg (by omega), if_neg (by omega), if_pos trivial]
  · rw [if_neg (by omega), if_pos trivial]
  · rw [if_pos trivial]

/-- A function on vectors computes on numbers what is computed on words, modulo the power of two. -/
theorem makes_bitFunction (hn : Width n) {s : State} (hsize : s.table.size = n) (name : String)
    {compute : List Temp → TransM (List Atom × List Binding)} {g : List (BitVec n) → List (BitVec n)}
    {f : Nat → Nat}
    (hcompute : ∀ {s : State} {xs : List Temp}, (∀ x ∈ xs, x < s.program.temps.size) →
      Makes (compute xs) s fun r s' => Turns n s s' xs r (fun (_ : Unit) _ => True) fun _ => g)
    (hf : ∀ bs : List (BitVec n), bs.length = (wordsFor n w).toNat → number bs < 2 ^ w →
      number (g bs) % 2 ^ w = f (number bs)) :
    Makes (bitFunction name w compute) s fun id s' => ∀ q : Program,
      (∀ i d, s.program.defns.size ≤ i → s'.program.defns[i]? = some d → q.defns[i]? = some d) →
      Implements q n w id f := by
  unfold bitFunction
  refine (makes_get (Q := fun a s' => a.table.size = n ∧ s = s') ⟨hsize, rfl⟩).bind ?_
  rintro a _ ⟨ha, rfl⟩
  rw [ha]
  refine (makes_freshTemps _).bind ?_
  rintro params s₁ ⟨hmade₁, hparams, hlt⟩
  refine (hcompute hlt).bind ?_
  rintro ⟨out, bs⟩ s₂ ⟨hmade₂, ys, rfl, hys, hlt', hturn⟩
  have hlen : params.length = (wordsFor n w).toNat := by
    rw [hparams, List.length_range', Ty.words, List.length_replicate]
  refine (makes_maskLast hn hlt' (hys.trans hlen)).bind ?_
  rintro ⟨out, masking⟩ s₃ ⟨hmade₃, zs, rfl, hmask⟩
  refine (makes_add _).bind ?_
  rintro b s₄ ⟨rfl, hdefns₄⟩
  refine (makes_freshTemps _).bind ?_
  rintro args s₅ ⟨hmade₅, hargs, -⟩
  have hlen' : args.length = (wordsFor n w).toNat := by
    rw [hargs, List.length_range', Ty.words, List.length_replicate]
  refine (makes_add _).bind ?_
  rintro k s₆ ⟨rfl, hdefns₆⟩
  refine (makes_add _).mono ?_
  rintro id s₇ ⟨rfl, hdefns₇⟩ q hq
  have hdefns₃ : s₃.program.defns = s.program.defns := by rw [hmade₃.defns, hmade₂.defns, hmade₁.defns]
  have hsize₅ : s₅.program.defns.size = s.program.defns.size + 1 := by
    rw [hmade₅.defns, hdefns₄, Array.size_push, hdefns₃]
  have hsize₆ : s₆.program.defns.size = s.program.defns.size + 2 := by
    rw [hdefns₆, Array.size_push, hsize₅]
  rw [hsize₅, hdefns₆, hmade₅.defns, hdefns₄, hdefns₃] at hdefns₇
  rw [hdefns₇] at hq
  obtain ⟨hblock, hclosure, htop⟩ := getElem?_push_push s.program.defns _ _ _
  have hat : FunctionAt q s.program.defns.size params (sequence (bs ++ masking) (.ret (zs.map .temp)))
      args := by
    refine ⟨⟨_, _, hq _ _ (by omega) hblock, rfl, rfl, rfl, rfl⟩,
      ⟨_, _, _, hq _ _ (by omega) hclosure, rfl, rfl, rfl, rfl, rfl⟩,
      ⟨_, _, _, hq _ _ (by omega) htop, rfl, rfl, rfl⟩⟩
  rw [hsize₆]
  refine hat.implements hn ⟨hparams ▸ List.nodup_range', hlen⟩ ⟨hargs ▸ List.nodup_range', hlen'⟩ ?_
  intro env xs hxs hx
  have hreads : ReadsWords env params xs := List.Forall₂.imp (fun _ _ h => h.reads hn) hxs
  obtain ⟨env₁, hfills₁, -, hys₁⟩ := hturn () xs q env ⟨trivial, hreads⟩
  obtain ⟨env₂, hfills₂, -, zs', hzs, hlen₂, hnumber⟩ := hmask _ q env₁ hys₁
  have hxslen := List.Forall₂.length_eq hxs
  refine ⟨env₂, zs', hfills₁.append hfills₂, hzs, ?_, ?_⟩
  · rw [hlen₂, ← List.Forall₂.length_eq hys₁, hys, hxslen]
  · rw [hnumber, hf xs (hxslen.symm.trans hlen) hx]

/-- The external is implemented by a function on vectors of `w` bits, in every program that keeps the
definitions that are added for it. -/
def Supplies (n w : Nat) (s : State) (d : Defn) (e : External) (f : Nat → Nat) : Prop :=
  Makes (implement d e) s fun r s' => ∃ impl, r = some impl ∧ ∀ q : Program,
    (∀ i d, s.program.defns.size ≤ i → s'.program.defns[i]? = some d → q.defns[i]? = some d) →
    Implements q n w impl f

section Supplies

variable {s : State} {d : Defn} {e : External} {t : Ty} {ts : List Ty}

theorem widthOf?_eq (ht : s.program.store.resolve t = .nat w) (hw : w < 2 ^ 63) :
    widthOf? s.program.store t = some w := by
  unfold widthOf? natOf?
  rw [ht]
  exact Option.filter_some_pos (by simpa using hw)

/-- The implementation that a reference has for a width. -/
def functionFor (name : String) (t : Ty) (compute : List Temp → TransM (List Atom × List Binding)) :
    TransM (Option DefnId) := do
  let s ← store
  match widthOf? s t with
  | some w => some <$> bitFunction (name ++ toString w) w compute
  | none => return none

theorem implement_not (href : e.ref = "primBitNot") (htypes : e.types = t :: ts) :
    implement d e = functionFor "primBitNot" t notWords := by
  cases e
  cases href
  cases htypes
  rfl

theorem implement_negate (href : e.ref = "primBitNegate") (htypes : e.types = t :: ts) :
    implement d e = functionFor "primBitNegate" t (negateWords none) := by
  cases e
  cases href
  cases htypes
  rfl

/-- What an external is supplied with. -/
theorem supplies_of_computes (hn : Width n) (hsize : s.table.size = n) {name : String}
    {compute : List Temp → TransM (List Atom × List Binding)} {g : List (BitVec n) → List (BitVec n)}
    {f : Nat → Nat} (himplement : implement d e = functionFor name t compute)
    (ht : s.program.store.resolve t = .nat w) (hw : w < 2 ^ 63)
    (hcompute : ∀ {s : State} {xs : List Temp}, (∀ x ∈ xs, x < s.program.temps.size) →
      Makes (compute xs) s fun r s' => Turns n s s' xs r (fun (_ : Unit) _ => True) fun _ => g)
    (hf : ∀ xs : List (BitVec n), w ≤ n * xs.length → number xs < 2 ^ w →
      number (g xs) % 2 ^ w = f (number xs)) : Supplies n w s d e f := by
  unfold Supplies
  rw [himplement, functionFor]
  refine (makes_store (Q := fun a s' => a = s.program.store ∧ s = s') ⟨rfl, rfl⟩).bind ?_
  rintro _ _ ⟨rfl, rfl⟩
  rw [widthOf?_eq ht hw]
  refine (makes_bitFunction hn hsize _ hcompute fun xs hlen hx => hf xs ?_ hx).map some
  rw [hlen]
  exact (le_mul_wordsFor hn w).1

/-- **Externals on bit vectors.** A number that `w` bits hold is cut into as many words of the target as
`w` bits take, which add up to it and set no bit from `w` on. The closures that are made for complement and
for negation of `w` bits, entered with the words of a number, return the words of the number with all `w`
bits complemented and of the negated number modulo the power of two. -/
theorem implement_onNumbers (hn : Width n) {v w : Nat} (hv : v < 2 ^ w) (hw : w < 2 ^ 63) :
    ((splitWords n v w).length = (w + n - 1) / n ∧
      (∀ x ∈ splitWords n v w, Word.InRange n x) ∧
      ((splitWords n v w).mapIdx fun i x => (Word.unsigned n x).toNat * 2 ^ (n * i)).sum = v ∧
      ∀ (i : Nat) (x : Word), (splitWords n v w)[i]? = some x →
        ∀ j, w ≤ n * i + j → (Word.unsigned n x).toNat.testBit j = false) ∧
    ∀ (s : State) (d : Defn) (e : External) (t : Ty) (ts : List Ty), s.table.size = n →
      e.types = t :: ts → s.program.store.resolve t = .nat w →
      (e.ref = "primBitNot" → Supplies n w s d e fun x => 2 ^ w - 1 - x) ∧
      (e.ref = "primBitNegate" → Supplies n w s d e fun x => (2 ^ w - x) % 2 ^ w) := by
  refine ⟨splitWords_spec hn hv, fun s d e t ts hsize htypes ht => ⟨fun href => ?_, fun href => ?_⟩⟩
  · exact supplies_of_computes hn hsize (implement_not href htypes) ht hw (makes_notWords hn)
      fun _ => number_not_mod
  · -- there is no carry into the first word, so it is negated outright
    refine supplies_of_computes hn hsize (implement_negate href htypes) ht hw (g := negatedAll true)
      (fun hxs => ?_) fun _ => number_negatedAll_mod
    have hcarry (bound : Temp) : ∀ c ∈ (none : Option Temp), c < bound := fun _ h => nomatch h
    exact (makes_negateWords hn (hcarry _) hxs).mono fun _ _ h => h.at (i := true) fun _ => rfl

/-- An external for a function on vectors of forty bits. -/
def fortyBits (ref : String) : External :=
  ⟨.mono (.func (.ap (.con .bit) (.nat 40)) (.ap (.con .bit) (.nat 40))), ref, [.nat 40], none⟩

theorem implement_onNumbers_forty :
    splitWords 32 0xf123456789 40 = [0x23456789, 0xf1] ∧ 0xf123456789 < 2 ^ 40 ∧
    ((splitWords 32 0xf123456789 40).mapIdx fun i x => (Word.unsigned 32 x).toNat * 2 ^ (32 * i)).sum =
      0xf123456789 ∧
    let s : State := ⟨.empty, ⟨32, []⟩, [], [], [], []⟩
    let defn (ref : String) : Defn := .new "f" .builtin (.external (fortyBits ref))
    s.program.store.resolve (.nat 40) = .nat 40 ∧
    Supplies 32 40 s (defn "primBitNot") (fortyBits "primBitNot") (fun x => 2 ^ 40 - 1 - x) ∧
    Supplies 32 40 s (defn "primBitNegate") (fortyBits "primBitNegate") (fun x => (2 ^ 40 - x) % 2 ^ 40) := by
  have h := implement_onNumbers (n := 32) (.inl rfl) (v := 0xf123456789) (w := 40) (by decide) (by decide)
  have hmade (ref : String) := h.2 ⟨.empty, ⟨32, []⟩, [], [], [], []⟩
    (.new "f" .builtin (.external (fortyBits ref))) (fortyBits ref) (.nat 40) [] rfl rfl rfl
  exact ⟨by decide, by decide, h.1.2.2.1, rfl, (hmade _).1 rfl, (hmade _).2 rfl⟩

end Supplies

end Mil.Rep
