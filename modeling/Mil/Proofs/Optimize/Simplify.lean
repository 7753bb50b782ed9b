import Mil.Optimize.Simplify
import Mil.Proofs.Optimize.Facts
import Mil.Proofs.Optimize.Shrink
import Mil.Proofs.Prim.Fold

/-!
Simplification preserves behaviour, as far as its rewrites rest on what was evaluated before. Constants
are folded, results are used again, operands stand for temporaries, known closures are entered, fields of
known values are read, known branches are taken and dead bindings are dropped: a body that is rewritten in
these ways comes to the same values, with the same to be seen and in no more steps.

Four rewrites rest on more than that and are left out here. A neutral operand is right only beside a word
of the target. The sides of a negated branch may be swapped only if what is negated is a truth value. A
derived closure may be taken from an earlier derivation only if it has not been changed since. And a branch
is decided by the name of a constructor, while the machine goes by its tag.
-/

namespace Mil

open Machine

/-- The table has the built-in primitives, and those that are called where they can be reached. -/
def Program.Registered (p : Program) : Prop :=
  (∀ op ∈ PrimOp.builtins, (Prim.builtin op).Registered p.prims) ∧
    ∀ id ∈ p.reachable, ∀ d ∈ p.defns[id]?, ∀ t ∈ d.body.operations, t.Registered p.prims

instance (p : Program) : Decidable p.Registered := inferInstanceAs (Decidable (_ ∧ _))

namespace Optimize

namespace Simplify

open PassM (change changed)

/-! ### Simplification with exceptions -/

/-- What is to be kept as it is: tails, and ends of bodies. -/
structure Exceptions where
  tail : Facts → Tail → Bool
  last : Facts → Code → Bool

/-- Nothing is kept. -/
def nothing : Exceptions := ⟨fun _ _ => false, fun _ _ => false⟩

/-- Whatever would be rewritten by one of the four rewrites that rest on more than was evaluated. -/
def doubtful (size : Int) : Exceptions where
  tail f t :=
    match t with
    | .prim p args _ => (args.mapM Atom.lit? >>= p.fold? size).isNone && (identity? p args).isSome
    | .alloc _ args _ => (args.map f.dataOf?).any Option.isSome
    | _ => false
  last f c :=
    match c with
    | .branch cond _ _ => (f.primOf? cond).any fun x => x.1.op = .bnot
    | .case scrut alts _ => (f.dataOf? scrut).any fun x =>
      alts.findIdx (fun y => y.1 == x.1) ≠ alts.findIdx fun y => y.1.tag = x.1.tag
    | _ => false

def tailExcept (e : Exceptions) (size : Int) (f : Facts) (t : Tail) : PassM Tail :=
  if e.tail f (t.mapAtoms f.atom) then return t.mapAtoms f.atom else tail size f t

/-- What the results of a tail are known to be. -/
def same? (f : Facts) (vars : List Temp) (t : Tail) : Option (List Atom) :=
  match t with
  | .ret args => if args.length = vars.length then some args else none
  | t => (f.earlier? t vars.length).map fun vs => vs.map Atom.temp

def codeExcept (e : Exceptions) (size : Int) (f : Facts) : Code → PassM Code
  | .bind vars t next => do
    let t ← tailExcept e size f t
    if t.doesntReturn then change (.done t)
    else
      match same? f vars t with
      | some args => do
        changed
        codeExcept e size (f.rename vars args) next
      | none => return .bind vars t (← codeExcept e size (f.bind vars t) next)
  | .done t => return .done (← tailExcept e size f t)
  | c => if e.last f (c.mapAtoms f.atom) then return c.mapAtoms f.atom else code size f c

def bodyExcept (e : Exceptions) (size : Int) (c : Code) : PassM Code := do
  let (c, removed) := removeDead (← codeExcept e size .empty c)
  modify fun s => { s with changes := s.changes + removed }
  return c

theorem codeExcept_nothing (size : Int) (f : Facts) (c : Code) :
    codeExcept nothing size f c = code size f c := by
  have htail (f : Facts) (t : Tail) : tailExcept nothing size f t = tail size f t := rfl
  induction c generalizing f with
  | bind vars t next ih =>
      rw [codeExcept, code, htail]
      refine bind_congr fun t' => ?_
      simp only [ih]
      rfl
  | done t => rw [codeExcept, code, htail]
  | branch cond c d => rfl
  | case scrut alts default => rfl

/-! ### Tails that are rewritten -/

/-- Where the facts are known, the new tail comes to what the old one comes to. -/
def Rewrites (size : Int) (p : Program) (f : Facts) (t t' : Tail) : Prop :=
  ∀ ⦃quiet : Prop⦄ ⦃w w' : Machine⦄ ⦃env : Locals⦄ ⦃vs : List Value⦄, w.size = size → f.Knows p w env →
    Comes p quiet w (.tail t env) (.ok vs) w' →
    ∃ w'', Comes p quiet w (.tail t' env) (.ok vs) w'' ∧ w''.trace = w'.trace ∧ w''.steps ≤ w'.steps

section Rewrites

variable {size : Int} {p : Program} {f : Facts} {t t' : Tail} {q d : Prim} {args operands : List Atom}
  {a : Atom}

theorem Rewrites.refl (size : Int) (p : Program) (f : Facts) (t : Tail) : Rewrites size p f t t :=
  fun _ _ _ _ _ _ _ h => ⟨_, h, rfl, Nat.le_refl _⟩

theorem rewrites_timeless (ht : t.isTimeless = true) (ht' : t'.isTimeless = true)
    (h : ∀ w env vs, w.size = size → f.Knows p w env →
      operate p w env t = .ok (.values vs, w) → operate p w env t' = .ok (.values vs, w)) :
    Rewrites size p f t t' := by
  intro quiet w w' env vs hsize hf hc
  obtain ⟨rfl, hop⟩ := hc.timeless_inv ht
  exact ⟨_, comes_timeless ht' (h _ _ _ hsize hf hop), rfl, Nat.le_refl _⟩

theorem eq_map_of_lits {lits : List Literal} (h : args.mapM Atom.lit? = some lits) :
    args = lits.map .lit := by
  induction args generalizing lits with
  | nil =>
      cases h
      rfl
  | cons a args ih =>
      rw [List.mapM_cons] at h
      obtain ⟨l, hl, h⟩ := Option.bind_eq_some_iff.mp h
      obtain ⟨ls, hls, h⟩ := Option.bind_eq_some_iff.mp h
      cases h
      rw [List.map_cons, ← ih hls]
      cases a with
      | lit l' =>
          cases hl
          rfl
      | _ => cases hl

theorem atoms_lits (w : Machine) (env : Locals) (lits : List Literal) :
    atoms p w env (lits.map .lit) = .ok (lits.map .ofLit) := by
  rw [atoms_eq_ok, List.forall₂_map_left_iff, List.forall₂_map_right_iff]
  exact List.forall₂_same.mpr fun _ _ => rfl

/-- The machine divides as literals are divided. -/
theorem prim_nzdiv (hop : q.op = .nzdiv) {w : Machine} {lits : List Literal} {l : Literal}
    (h : q.op.eval? w.size lits = some l) : w.prim q (lits.map .ofLit) = .ok ([.ofLit l], w) := by
  have hword (i : Nat) : (((lits.map Value.ofLit)[i]?).map Value.asWord).getD 0 =
      ((lits[i]?).getD (.word 0)).asWord := by
    rw [List.getElem?_map]
    cases lits[i]? with
    | none => rfl
    | some l => cases l <;> rfl
  rw [hop] at h
  obtain ⟨z, hz, rfl⟩ := Option.map_eq_some_iff.mp h
  unfold PrimOp.wordResult? at hz
  dsimp only at hz
  unfold Machine.prim
  rw [hop]
  dsimp only
  unfold divide
  dsimp only
  rw [hword, hword]
  split at hz
  · cases hz
  · rename_i hy
    cases hz
    rw [if_neg hy]
    rfl

/-- A primitive on constants is folded. -/
theorem rewrites_fold {l : Literal} (inst : Option BlockType) (hq : q.Registered p.prims)
    (hl : args.mapM Atom.lit? >>= q.fold? size = some l) :
    Rewrites size p f (.prim q args inst) (.ret [.lit l]) := by
  obtain ⟨lits, hlits, hfold⟩ := Option.bind_eq_some_iff.mp hl
  rw [eq_map_of_lits hlits]
  unfold Prim.fold? at hfold
  split at hfold
  · rename_i hpure
    have hop : q.op.purity = .pure := purity_eq_pure hq (by rw [hpure]; decide)
    refine rewrites_timeless (Tail.isTimeless_prim hop _ inst) rfl fun w env vs hsize _ h => ?_
    have hval : operate p w env (.prim q (lits.map .lit) inst) = .ok (.values [.ofLit l], w) := by
      rcases pure_cases hop with hop | hop | hop
      · rw [hop] at hfold
        cases hfold
      · unfold operate
        dsimp only
        rw [atoms_lits]
        dsimp only [Bind.bind, Except.bind]
        rw [prim_nzdiv hop (hsize ▸ hfold)]
        rfl
      · exact operate_byRule hop hpure (atoms_lits w env lits) (hsize ▸ hfold)
    cases hval.symm.trans h
    rfl
  · cases hfold

theorem byRule_of_dual {op o : PrimOp} (h : op.dual? = some o) :
    op.purity = .pure ∧ ByRule op ∧ o.purity = .pure ∧ ByRule o ∧ o ∈ PrimOp.builtins := by
  cases op <;> cases h <;> decide

/-- A negated comparison is replaced by the opposite one. -/
theorem rewrites_opposite (inst inst' : Option BlockType) (h : opposite? f q args = some (d, operands)) :
    Rewrites size p f (.prim q args inst) (.prim d operands inst') ∧ ∃ o ∈ PrimOp.builtins, d = .builtin o := by
  unfold opposite? at h
  split at h
  · rename_i a rest hop
    obtain ⟨⟨r, operands'⟩, hr, h⟩ := Option.bind_eq_some_iff.mp h
    obtain ⟨d', hd, h⟩ := Option.bind_eq_some_iff.mp h
    cases h
    obtain ⟨o, ho, rfl⟩ := Option.map_eq_some_iff.mp hd
    obtain ⟨hpure, hrule, hpure', hrule', hbuiltin⟩ := byRule_of_dual ho
    refine ⟨?_, o, hbuiltin, rfl⟩
    refine rewrites_timeless (Tail.isTimeless_prim (by rw [hop]; rfl) _ inst)
      (Tail.isTimeless_prim hpure' operands inst') ?_
    intro w env vs hsize hf hval
    obtain ⟨lits, l, hlits, -, hl, rfl⟩ := operate_byRule_inv (by rw [hop]; decide) hval
    obtain ⟨v, vals, hv, -, hvals⟩ := List.forall₂_cons_left_iff.mp (atoms_eq_ok.mp hlits)
    obtain ⟨inst₀, -, hknown⟩ := hf.prim hr hpure hv
    obtain ⟨lits', l', hlits', -, hl', heq⟩ := operate_byRule_inv hrule hknown
    obtain ⟨b, hb, hb'⟩ := PrimOp.eval?_dual ho w.size lits'
    cases hl'.symm.trans hb
    cases heq
    -- the negated operand is the truth value that the comparison gave
    have hflag : l = .flag (!b) := by
      cases lits with
      | nil => cases hvals
      | cons l₀ lits =>
          rw [List.map_cons] at hvals
          obtain ⟨hl₀, -⟩ := List.cons.inj hvals
          rw [hop] at hl
          cases l₀ with
          | word w => cases hl₀
          | flag b₀ =>
              cases hl₀
              exact (Option.some.inj hl).symm
    rw [hflag]
    exact operate_byRule hrule' hpure' hlits' hb'
  · cases h

/-- A field of a known value is read. -/
theorem rewrites_select {k k' : Cfun} {field : Int} {arg : Atom} (inst inst' : Option AllocType)
    (hd : f.dataOf? arg = some (k', args, inst')) (ha : args[field.toNat]? = some a) :
    Rewrites size p f (.sel k field arg inst) (.ret [a]) := by
  refine rewrites_timeless rfl rfl fun w env vs _ hf hop => ?_
  obtain ⟨v, hv, hop⟩ := Except.bind_eq_ok.mp hop
  obtain ⟨vals, rfl, hvals⟩ := hf.data hd hv
  obtain ⟨x, hx, hax⟩ := forall₂_getElem? hvals.flip ha
  dsimp only at hop
  rw [hx] at hop
  cases hop
  have hatoms : atoms p w env [a] = .ok [x] := atoms_eq_ok.mpr (.cons hax .nil)
  exact Except.bind_eq_ok.mpr ⟨_, hatoms, rfl⟩

/-- A known closure is entered: its tail, with the operands in place of what they are bound to. -/
theorem rewrites_enter (hresolve : ∀ id, p.resolve id = id) {fn : Atom} {id : DefnId} {stored : List Atom}
    {k : Closure} (hf : f.closureOf? fn = some (id, stored)) (hk : p.closure id = .ok k) (ht : k.tail = some t)
    (hargs : k.args.length = args.length) (hstored : k.params.length = stored.length) :
    Rewrites size p f (.enter fn args)
      (t.mapAtoms (Replacement.extend (Replacement.extend [] k.params stored) k.args args).atom) := by
  intro quiet w w' env vs _ hknows hc
  obtain ⟨id', fields, vals, k', t', w₁, hfn, hvals, hk', ht', hstill, htrace₁, hrest⟩ := hc.enter_inv
  obtain ⟨fields', heq, hfields⟩ := hknows.closure hf hfn
  cases heq
  rw [hresolve, hresolve, hk] at hk'
  cases hk'
  cases ht.symm.trans ht'
  have hw : Abreast w₁.tick w :=
    (Abreast.refl w).steady (hstill.toSteady.trans (.tick w₁)) (.refl w) htrace₁.symm
  have hbase : Carried p w [] [] env := fun _ _ h => nomatch h
  have hcarried := (hbase.params hstored.symm hfields).params hargs.symm hvals
  obtain ⟨w'', hc', htrace, hsteps⟩ := hrest.replaced hw (hcarried.sameReads hw.toBeyond t.atoms)
  rw [steps_tick, hstill.steps] at hsteps
  exact ⟨w'', hc', htrace, by omega⟩

end Rewrites

/-- The table has the primitive of the tail, and what the tail allocates is one of some closures. -/
structure TailReady (T : PrimTable) (R : DefnId → Prop) (t : Tail) : Prop where
  registered : t.Registered T
  closure : ∀ {id : DefnId} {args : List Atom} {inst : Option AllocType}, t = .alloc id args inst → R id

/-- Nothing is replaced, the table has the built-in primitives, and the closures are there with tails that
are ready. -/
structure Ready (p : Program) (R : DefnId → Prop) : Prop where
  resolve : ∀ id, p.resolve id = id
  builtin : ∀ op ∈ PrimOp.builtins, (Prim.builtin op).Registered p.prims
  closures : ∀ id, R id → ∃ k, p.closure id = .ok k ∧ ∀ t ∈ k.tail, TailReady p.prims R t

section Tails

variable {size : Int} {p : Program} {R : DefnId → Prop} {T : PrimTable} {f : Facts} {s : Progress} {t : Tail}

theorem TailReady.mapAtoms (h : TailReady T R t) (g : Atom → Atom) : TailReady T R (t.mapAtoms g) where
  registered := h.registered.mapAtoms g
  closure heq := by
    cases t <;> cases heq
    exact h.closure rfl

theorem tailReady_ret (args : List Atom) : TailReady T R (.ret args) := ⟨nofun, nofun⟩

/-- What simplification makes of a tail. -/
def TailDone (size : Int) (p : Program) (R : DefnId → Prop) (f : Facts) (t t' : Tail) (s' : Progress) : Prop :=
  s'.program = p ∧ TailReady p.prims R t' ∧ Rewrites size p f t t'

theorem gets_prim {q : Prim} {args : List Atom} {inst : Option BlockType} (hs : s.program = p) (hp : Ready p R)
    (ht : TailReady p.prims R (.prim q args inst))
    (hkeep : (args.mapM Atom.lit? >>= q.fold? size).isSome ∨ identity? q args = none) :
    Gets (prim size f q args inst) s (TailDone size p R f (.prim q args inst)) := by
  unfold prim
  split
  · rename_i l hl
    exact gets_change fun s' hs' =>
      ⟨hs'.trans hs, tailReady_ret _, rewrites_fold inst (ht.registered q rfl) hl⟩
  · rename_i hl
    have hneutral : identity? q args = none := hkeep.resolve_left (by rw [hl]; decide)
    rw [hneutral]
    dsimp only
    split
    · rename_i d operands hd
      obtain ⟨hrewrites, o, ho, rfl⟩ := rewrites_opposite inst (some d.type) hd
      refine gets_change fun s' hs' => ⟨hs'.trans hs, ⟨fun q hq => ?_, nofun⟩, hrewrites⟩
      cases hq
      exact hp.builtin o ho
    · exact .pure ⟨hs, ht, .refl size p f _⟩

theorem gets_enter {fn : Atom} {args : List Atom} (hs : s.program = p) (hp : Ready p R)
    (hf : ∀ x ∈ f.known, TailReady p.prims R x.2) (ht : TailReady p.prims R (.enter fn args)) :
    Gets (enter f fn args) s (TailDone size p R f (.enter fn args)) := by
  have hsame {s : Progress} (hs : s.program = p) :
      Gets (pure (Tail.enter fn args)) s (TailDone size p R f (.enter fn args)) :=
    .pure ⟨hs, ht, .refl size p f _⟩
  unfold enter
  split
  · exact hsame hs
  · rename_i id stored hk
    obtain ⟨u, inst, hmem⟩ : ∃ u inst, (u, Tail.alloc id stored inst) ∈ f.known := by
      unfold Facts.closureOf? at hk
      split at hk
      · rename_i inst hs
        cases hk
        cases fn with
        | temp u => exact ⟨u, inst, mem_of_lookup hs⟩
        | _ => cases hs
      · cases hk
    obtain ⟨k, hclosure, htails⟩ := hp.closures id ((hf _ hmem).closure rfl)
    refine (gets_closure (hs ▸ hclosure)).bind ?_
    rintro k' s' ⟨rfl, rfl⟩
    split
    · exact hsame hs
    · rename_i t htail
      split
      · rename_i hlens
        exact gets_change fun s' hs' => ⟨hs'.trans hs, (htails t htail).mapAtoms _,
          rewrites_enter hp.resolve hk hclosure htail hlens.1 hlens.2⟩
      · exact hsame hs

theorem gets_select {k : Cfun} {field : Int} {arg : Atom} {inst : Option AllocType} (hs : s.program = p) :
    Gets (select f k field arg inst) s (TailDone size p R f (.sel k field arg inst)) := by
  have hsame : Gets (pure (Tail.sel k field arg inst)) s fun t' s' =>
      TailDone size p R f (.sel k field arg inst) t' s' :=
    .pure ⟨hs, ⟨nofun, nofun⟩, .refl size p f _⟩
  unfold select
  split
  · rename_i k' args inst' hd
    split
    · rename_i a ha
      split at ha
      · exact gets_change fun s' hs' => ⟨hs'.trans hs, tailReady_ret _, rewrites_select inst inst' hd ha⟩
      · cases ha
    · exact hsame
  · exact hsame

/-- A tail is rewritten into one that comes to the same. -/
theorem gets_tail (hs : s.program = p) (hp : Ready p R) (hf : ∀ x ∈ f.known, TailReady p.prims R x.2)
    (ht : TailReady p.prims R t) :
    Gets (tailExcept (doubtful size) size f t) s (TailDone size p R f (t.mapAtoms f.atom)) := by
  have ht := ht.mapAtoms f.atom
  unfold tailExcept tail
  generalize t.mapAtoms f.atom = t at ht ⊢
  have hsame : Gets (pure t) s (TailDone size p R f t) := .pure ⟨hs, ht, .refl size p f t⟩
  split
  · exact hsame
  · rename_i hkeep
    cases t with
    | prim q args inst =>
        refine gets_prim hs hp ht ?_
        simpa [doubtful, Option.isSome_iff_ne_none, or_iff_not_imp_left] using hkeep
    | enter fn args => exact gets_enter hs hp hf ht
    | sel k field arg inst => exact gets_select hs
    | alloc id args inst =>
        have hnone : (args.map f.dataOf?).any Option.isSome = false := by simpa [doubtful] using hkeep
        dsimp only
        unfold allocate
        dsimp only
        rw [hnone]
        exact hsame
    | _ => exact hsame

end Tails

/-! ### Bodies that are rewritten -/

/-- Where the facts hold and the temporaries of the old body are new, the new body comes to what the old one
comes to. -/
def CodeBetter (size : Int) (p : Program) (f : Facts) (c c' : Code) : Prop :=
  ∀ ⦃quiet : Prop⦄ ⦃w w₂ w' : Machine⦄ ⦃vs : List Value⦄ ⦃env env₂ : Locals⦄, w.size = size → Abreast w w₂ →
    f.Holds p w₂ env env₂ → f.Fresh env₂ c.binders → Comes p quiet w (.code c env) (.ok vs) w' →
    Attains p quiet w w₂ w' (.code c' env₂) vs

section Bodies

variable {size : Int} {p : Program} {R : DefnId → Prop} {f : Facts} {quiet : Prop} {w w₂ w' : Machine}
  {env env₂ : Locals} {s : Progress} {t t' : Tail} {c c' next next' : Code} {vars : List Temp}
  {args : List Atom} {vs : List Value}

/-- A tail that is replaced and then rewritten comes to the same values. -/
theorem Rewrites.comes (h : Rewrites size p f (t.mapAtoms f.atom) t') (hsize : w.size = size)
    (hw : Abreast w w₂) (hf : f.Holds p w₂ env env₂) (hc : Comes p quiet w (.tail t env) (.ok vs) w') :
    Attains p quiet w w₂ w' (.tail t' env₂) vs := by
  obtain ⟨w₂', hc₂, htrace, hsteps⟩ := hc.replaced hw (hf.sameReads hw.toBeyond t.atoms)
  obtain ⟨w₃', hc₃, htrace', hsteps'⟩ := h (hw.size.trans hsize) hf.toKnows hc₂
  exact ⟨w₃', hc₃, htrace'.trans htrace, by omega⟩

/-- A tail that never comes back has no values. -/
theorem not_comes_of_doesntReturn (ht : t.Registered p.prims) (hstop : t.doesntReturn = true) :
    ¬ Comes p quiet w (.tail t env) (.ok vs) w' := by
  cases t with
  | prim q args inst =>
      have hop : q.op = .halt ∨ q.op = .loop ∨ q.op = .user := by
        rcases (ht q rfl).2 with hop | hpurity
        · exact .inr (.inr hop)
        · have hpurity := hpurity.symm.trans (of_decide_eq_true hstop)
          revert hpurity
          cases q.op <;> decide
      have hinv {mv : Move} {w₁ : Machine} : Job.move p w (.tail (.prim q args inst) env) ≠ .ok (mv, w₁) := by
        intro hmove
        obtain ⟨e, hop', -⟩ := move_tail_inv hmove
        obtain ⟨vals, -, hop'⟩ := Except.bind_eq_ok.mp hop'
        obtain ⟨r, hprim, -⟩ := Except.bind_eq_ok.mp hop'
        have hprim := orHalt_eq_ok hprim
        rcases hop with hop | hop | hop <;> simp [Machine.prim, hop] at hprim
      intro hc
      cases hc with
      | values _ hmove => exact hinv hmove
      | job _ hmove => exact hinv hmove
      | bind _ hmove => exact hinv hmove
  | _ => cases hstop

theorem codeBetter_stops (h : Rewrites size p f (t.mapAtoms f.atom) t') (ht : t'.Registered p.prims)
    (hstop : t'.doesntReturn = true) (c : Code) : CodeBetter size p f (.bind vars t next) c := by
  intro quiet w w₂ w' vs env env₂ hsize hw hf _ hc
  rcases hc.bind_inv with ⟨vs₁, w₁, htail, -, -⟩ | ⟨_, hf', -⟩
  · obtain ⟨w₂', hc₂, -⟩ := h.comes (w := w.tick) hsize hw.tick (hf.beyond ⟨rfl, .refl _⟩) htail
    exact absurd hc₂ (not_comes_of_doesntReturn ht hstop)
  · cases hf'

/-- What the results are known to be has the values that the tail comes to. -/
theorem same?_spec (ht : t.Registered p.prims) (hsame : same? f vars t = some args) (hf : f.Knows p w env)
    (hc : Comes p quiet w (.tail t env) (.ok vs) w') :
    w' = w ∧ args.length = vars.length ∧ List.Forall₂ (fun a v => atom p w env a = .ok v) args vs := by
  unfold same? at hsame
  split at hsame
  · split at hsame
    · rename_i hlen
      cases hsame
      obtain ⟨rfl, hop⟩ := hc.timeless_inv rfl
      obtain ⟨vals, hvals, hop⟩ := Except.bind_eq_ok.mp hop
      cases hop
      exact ⟨rfl, hlen, atoms_eq_ok.mp hvals⟩
    · cases hsame
  · obtain ⟨ts, hts, rfl⟩ := Option.map_eq_some_iff.mp hsame
    obtain ⟨e, he, -⟩ := Option.bind_eq_some_iff.mp hts
    obtain ⟨rfl, hop⟩ := hc.timeless_inv (isTimeless_of_expression ht he)
    obtain ⟨hlen, hvals⟩ := hf.earlier hts ht hop
    exact ⟨rfl, by rw [List.length_map, hlen], hvals⟩

/-- A binding is left out if its results are known: their temporaries stand for what they are known to be. -/
theorem codeBetter_same (h : Rewrites size p f (t.mapAtoms f.atom) t') (ht : t'.Registered p.prims)
    (hsame : same? f vars t' = some args) (hnodup : (vars ++ next.binders).Nodup)
    (hnext : CodeBetter size p (f.rename vars args) next next') :
    CodeBetter size p f (.bind vars t next) next' := by
  intro quiet w w₂ w' vs env env₂ hsize hw hf hfresh hc
  rcases hc.bind_inv with ⟨vs₁, w₁, htail, -, hrest⟩ | ⟨_, hf', -⟩
  · have hf₁ : f.Holds p w₂.tick env env₂ := hf.beyond ⟨rfl, .refl _⟩
    obtain ⟨w₂₁, hc₂, htrace, -⟩ := h.comes (w := w.tick) hsize hw.tick hf₁ htail
    obtain ⟨rfl, hlen, hvals⟩ := same?_spec ht hsame hf₁.toKnows hc₂
    have hw₁ : Abreast w₁ w₂ := hw.steady (.trans (.tick w) htail.steady) (.refl w₂) htrace
    have hvals' : List.Forall₂ (fun a v => atom p w₂ env₂ a = .ok v) args vs₁ :=
      hvals.imp fun _ _ hv => atom_ok_beyond ⟨rfl, .refl _⟩ hv
    obtain ⟨w₂', hc', htrace', hsteps⟩ := hnext (htail.steady.size.trans hsize) hw₁ (hf.rename hlen hvals')
      (Facts.Fresh.rename hfresh hnodup args) hrest
    have hle := htail.steps_le
    rw [steps_tick] at hle
    exact ⟨w₂', hc', htrace', by omega⟩
  · cases hf'

/-- A binding of a tail that is rewritten. -/
theorem codeBetter_bind (h : Rewrites size p f (t.mapAtoms f.atom) t') (ht : t'.Registered p.prims)
    (hnodup : (vars ++ next.binders).Nodup) (hnext : CodeBetter size p (f.bind vars t') next next') :
    CodeBetter size p f (.bind vars t next) (.bind vars t' next') := by
  intro quiet w w₂ w' vs env env₂ hsize hw hf hfresh hc
  rcases hc.bind_inv with ⟨vs₁, w₁, htail, hlen, hrest⟩ | ⟨_, hf', -⟩
  · have hf₁ : f.Holds p w₂.tick env env₂ := hf.beyond ⟨rfl, .refl _⟩
    obtain ⟨w₂₁, hc₂, htrace, hsteps⟩ := h.comes (w := w.tick) hsize hw.tick hf₁ htail
    have hvars : f.Fresh env₂ vars := fun u hu => hfresh u (List.mem_append_left _ hu)
    obtain ⟨w₂', hc', htrace', hsteps'⟩ := hnext (htail.steady.size.trans hsize)
      (hw.tick.steady htail.steady hc₂.steady htrace)
      (hf₁.bind hvars (List.nodup_append.mp hnodup).1 ht hc₂ hlen)
      (Facts.Fresh.bind hfresh hnodup t' vs₁) hrest
    rw [steps_tick, steps_tick] at hsteps
    exact ⟨w₂', .bind (fun _ => rfl) rfl hc₂ hlen hc', htrace', by omega⟩
  · cases hf'

theorem codeBetter_done (h : Rewrites size p f (t.mapAtoms f.atom) t') :
    CodeBetter size p f (.done t) (.done t') := by
  intro quiet w w₂ w' vs env env₂ hsize hw hf _ hc
  obtain ⟨w₂', hc₂, htrace, hsteps⟩ :=
    h.comes (w := w.tick) hsize hw.tick (hf.beyond ⟨rfl, .refl _⟩) hc.done_inv
  rw [steps_tick, steps_tick] at hsteps
  exact ⟨w₂', .job (fun _ => rfl) rfl hc₂, htrace, by omega⟩

/-- The end of a body, with operands in place of temporaries. -/
theorem codeBetter_replaced (hc : ∀ vars t next, c ≠ .bind vars t next) :
    CodeBetter size p f c (c.mapAtoms f.atom) := by
  intro quiet w w₂ w' vs env env₂ _ hw hf _ h
  exact h.code_replaced hw (hf.sameReads hw.toBeyond c.atoms) hc

/-- Where the facts are known, the new end of a body makes the move that the old one makes. -/
def SameMove (p : Program) (f : Facts) (c c' : Code) : Prop :=
  ∀ ⦃w w' : Machine⦄ ⦃env : Locals⦄ ⦃mv : Move⦄, f.Knows p w env →
    Job.move p w (.code c env) = .ok (mv, w') → Job.move p w (.code c' env) = .ok (mv, w')

theorem CodeBetter.of_move (h : CodeBetter size p f c c') (hmove : SameMove p f c' next) :
    CodeBetter size p f c next := by
  intro quiet w w₂ w' vs env env₂ hsize hw hf hfresh hc
  obtain ⟨w₂', hc₂, hrest⟩ := h hsize hw hf hfresh hc
  refine ⟨w₂', ?_, hrest⟩
  cases hc₂ with
  | values hq hmv => exact .values (fun _ => rfl) (hmove hf.toKnows hmv)
  | job hq hmv hj => exact .job (fun _ => rfl) (hmove hf.toKnows hmv) hj
  | bind hq hmv ht hlen hn => exact .bind (fun _ => rfl) (hmove hf.toKnows hmv) ht hlen hn

/-- What simplification makes of the end of a body: it makes the same move, which is a call. -/
def EndDone (p : Program) (f : Facts) (c c' : Code) (s' : Progress) : Prop :=
  s'.program = p ∧ (∀ t ∈ c'.operations, ∃ call, t = .call call) ∧ SameMove p f c c'

theorem endDone_refl (hs : s.program = p) (hc : c.operations = c.calls.map .call) : EndDone p f c c s := by
  refine ⟨hs, fun t ht => ?_, fun _ _ _ _ _ h => h⟩
  obtain ⟨call, -, rfl⟩ := List.mem_map.mp (hc ▸ ht)
  exact ⟨call, rfl⟩

theorem endDone_call {call : BlockCall} (hs : s.program = p) (hmove : SameMove p f c (.done (.call call))) :
    EndDone p f c (.done (.call call)) s :=
  ⟨hs, fun _ ht => ⟨call, List.mem_singleton.mp ht⟩, hmove⟩

theorem gets_branch {cond : Atom} {ifTrue ifFalse : BlockCall} (hs : s.program = p)
    (hkeep : (f.primOf? cond).any (fun x => x.1.op = .bnot) = false) :
    Gets (branch f cond ifTrue ifFalse) s (EndDone p f (.branch cond ifTrue ifFalse)) := by
  unfold branch
  split
  · refine gets_change fun s' hs' => endDone_call (hs'.trans hs) fun w w' env mv _ hmove => ?_
    obtain ⟨call, hcall, hmove⟩ := Except.bind_eq_ok.mp hmove
    cases hcall
    exact hmove
  · split
    · rename_i q a rest hq
      split
      · rename_i hop
        rw [hq] at hkeep
        simp [hop] at hkeep
      · exact .pure (endDone_refl hs rfl)
    · exact .pure (endDone_refl hs rfl)

theorem gets_choose {scrut : Atom} {alts : List (Cfun × BlockCall)} {default : Option BlockCall}
    (hs : s.program = p)
    (hkeep : ((f.dataOf? scrut).any fun x =>
      alts.findIdx (fun y => y.1 == x.1) ≠ alts.findIdx fun y => y.1.tag = x.1.tag) = false) :
    Gets (choose f scrut alts default) s (EndDone p f (.case scrut alts default)) := by
  unfold choose
  split
  · rename_i k args inst hd
    split
    · rename_i call hcall
      refine gets_change fun s' hs' => endDone_call (hs'.trans hs) fun w w' env mv hf hmove => ?_
      obtain ⟨call', hchoose, hmove⟩ := Except.bind_eq_ok.mp hmove
      obtain ⟨v, hv, hchoose⟩ := Except.bind_eq_ok.mp hchoose
      obtain ⟨vals, rfl, -⟩ := hf.data hd hv
      -- the alternative of the name is the alternative of the tag
      have hsame : alts.find? (fun y => y.1 == k) = alts.find? fun y => y.1.tag = k.tag := by
        rw [List.find?_eq_getElem?_findIdx, List.find?_eq_getElem?_findIdx]
        rw [hd] at hkeep
        simp only [Option.any_some, decide_eq_false_iff_not, ne_eq, not_not] at hkeep
        rw [hkeep]
      have hfind : ((alts.find? fun y => y.1 == k).map Prod.snd).or default = some call := hcall
      rw [hsame] at hfind
      dsimp only at hchoose
      generalize alts.find? (fun y => y.1.tag = k.tag) = found at hfind hchoose
      cases found with
      | some x =>
          cases hfind
          cases hchoose
          exact hmove
      | none =>
          cases hfind
          cases hchoose
          exact hmove
    · exact .pure (endDone_refl hs rfl)
  · exact .pure (endDone_refl hs rfl)

/-- What simplification makes of a body. -/
def CodeDone (size : Int) (p : Program) (f : Facts) (c c' : Code) (s' : Progress) : Prop :=
  s'.program = p ∧ (∀ t ∈ c'.operations, t.Registered p.prims) ∧ CodeBetter size p f c c'

theorem EndDone.codeDone (h : EndDone p f (c.mapAtoms f.atom) c' s)
    (hc : ∀ vars t next, c ≠ .bind vars t next) : CodeDone size p f c c' s := by
  obtain ⟨hs, hcalls, hmove⟩ := h
  refine ⟨hs, fun t ht => ?_, (codeBetter_replaced hc).of_move hmove⟩
  obtain ⟨call, rfl⟩ := hcalls t ht
  exact nofun

/-- A body is rewritten into one that comes to the same. -/
theorem gets_code (hs : s.program = p) (hp : Ready p R) (hf : ∀ x ∈ f.known, TailReady p.prims R x.2)
    (hc : ∀ t ∈ c.operations, TailReady p.prims R t) (hnodup : c.binders.Nodup) :
    Gets (codeExcept (doubtful size) size f c) s (CodeDone size p f c) := by
  induction c generalizing f s with
  | bind vars t next ih =>
      refine (gets_tail hs hp hf (hc t (.head _))).bind fun t' s₁ ⟨hs₁, ht', hrewrites⟩ => ?_
      have hnext : ∀ t ∈ next.operations, TailReady p.prims R t := fun u hu => hc u (.tail _ hu)
      have hnodup' : next.binders.Nodup := (List.nodup_append.mp hnodup).2.1
      split
      · rename_i hstop
        refine gets_change fun s' hs' => ⟨hs'.trans hs₁, fun u hu => ?_,
          codeBetter_stops hrewrites ht'.registered hstop _⟩
        rw [List.mem_singleton.mp hu]
        exact ht'.registered
      · split
        · rename_i args hsame
          refine (gets_changed s₁).bind fun _ s₂ hs₂ => ?_
          refine (ih (f := f.rename vars args) (hs₂.trans hs₁) hf hnext hnodup').mono
            fun c' s' ⟨hs', hops, hbetter⟩ => ?_
          exact ⟨hs', hops, codeBetter_same hrewrites ht'.registered hsame hnodup hbetter⟩
        · have hf' : ∀ x ∈ (f.bind vars t').known, TailReady p.prims R x.2 := fun x hx => by
            rcases Facts.mem_known_bind hx with hx | ⟨-, rfl⟩
            · exact hf x hx
            · exact ht'
          refine (ih hs₁ hf' hnext hnodup').bind fun c' s' ⟨hs', hops, hbetter⟩ => .pure ⟨hs', fun u hu => ?_,
            codeBetter_bind hrewrites ht'.registered hnodup hbetter⟩
          rcases List.mem_cons.mp hu with rfl | hu
          · exact ht'.registered
          · exact hops u hu
  | done t =>
      refine (gets_tail hs hp hf (hc t (.head _))).bind fun t' s₁ ⟨hs₁, ht', hrewrites⟩ => .pure
        ⟨hs₁, fun u hu => ?_, codeBetter_done hrewrites⟩
      rw [List.mem_singleton.mp hu]
      exact ht'.registered
  | branch cond c d =>
      unfold codeExcept
      split
      · exact .pure ((endDone_refl hs rfl).codeDone (by rintro _ _ _ ⟨⟩))
      · rename_i hkeep
        exact (gets_branch hs (Bool.not_eq_true _ ▸ hkeep)).mono fun _ _ h => h.codeDone (by rintro _ _ _ ⟨⟩)
  | case scrut alts default =>
      unfold codeExcept
      split
      · exact .pure ((endDone_refl hs rfl).codeDone (by rintro _ _ _ ⟨⟩))
      · rename_i hkeep
        exact (gets_choose hs (Bool.not_eq_true _ ▸ hkeep)).mono fun _ _ h => h.codeDone (by rintro _ _ _ ⟨⟩)

/-! ### Dead bindings -/

theorem removeDead_bind (vars : List Temp) (t : Tail) (next : Code) :
    (removeDead (.bind vars t next)).1 =
      if t.hasNoEffect && vars.all (fun v => !(removeDead next).1.reads v) then (removeDead next).1
      else .bind vars t (removeDead next).1 := by
  rw [removeDead]
  dsimp only
  split <;> rfl

/-- A body without its dead bindings comes to the same, wherever the temporaries that are still read have the
same values. -/
theorem comes_removeDead {T : PrimTable} (hops : ∀ t ∈ c.operations, t.Registered T) (hw : Abreast w w₂)
    (hagree : AgreeOn (removeDead c).1.atoms env env₂) (hc : Comes p quiet w (.code c env) (.ok vs) w') :
    Attains p quiet w w₂ w' (.code (removeDead c).1 env₂) vs := by
  induction c generalizing w w₂ env env₂ with
  | bind vars t next ih =>
      rcases hc.bind_inv with ⟨vs₁, w₁, htail, hlen, hrest⟩ | ⟨_, hf, -⟩
      · have hnext : ∀ t ∈ next.operations, t.Registered T := fun u hu => hops u (.tail _ hu)
        rw [removeDead_bind] at hagree ⊢
        split at hagree
        · rename_i hdead
          obtain ⟨hquiet, hunread⟩ := Bool.and_eq_true_iff.mp hdead
          -- what is dropped came to its values at once
          obtain ⟨rfl, -⟩ := htail.timeless_inv (isTimeless_of_hasNoEffect (hops t (.head _)) hquiet)
          have hagree' : AgreeOn (removeDead next).1.atoms (assign env vars vs₁) env₂ := fun u hu => by
            have hnot : u ∉ vars := fun hmem => by
              simpa [Code.reads, hu] using List.all_eq_true.mp hunread u hmem
            rw [lookup_assign_of_not_mem hnot]
            exact hagree u hu
          obtain ⟨w₂', hc', htrace, hsteps⟩ := ih hnext (hw.steady (.tick w) (.refl w₂) hw.trace) hagree' hrest
          rw [steps_tick] at hsteps
          rw [if_pos hdead]
          exact ⟨w₂', hc', htrace, by omega⟩
        · rename_i hlive
          obtain ⟨w₂₁, htail₂, htrace, hsteps⟩ :=
            htail.agrees hw.tick fun u hu => hagree u (List.mem_append_left _ hu)
          rw [steps_tick, steps_tick] at hsteps
          have hagree' : AgreeOn (removeDead next).1.atoms (assign env vars vs₁) (assign env₂ vars vs₁) :=
            fun u hu => by
              rw [assign, assign, List.lookup_append, List.lookup_append,
                hagree u (List.mem_append_right _ hu)]
          obtain ⟨w₂', hc', htrace', hsteps'⟩ :=
            ih hnext (hw.tick.steady htail.steady htail₂.steady htrace) hagree' hrest
          rw [if_neg hlive]
          exact ⟨w₂', .bind (fun _ => rfl) rfl htail₂ hlen hc', htrace', by omega⟩
      · cases hf
  | done t => exact hc.code_agrees hw hagree (by rintro _ _ _ ⟨⟩)
  | branch cond c d => exact hc.code_agrees hw hagree (by rintro _ _ _ ⟨⟩)
  | case scrut alts default => exact hc.code_agrees hw hagree (by rintro _ _ _ ⟨⟩)

end Bodies

/-! ### The pass -/

/-- The definition binds no temporary twice, and its tails are ready. -/
structure BodyReady (T : PrimTable) (R : DefnId → Prop) (body : DefnBody) : Prop where
  nodup : (body.inputs ++ body.binders).Nodup
  tails : ∀ t ∈ body.operations, TailReady T R t

/-- The new body comes to what the old one comes to, with all values of the parameters. -/
def BodyBetter (size : Int) (p : Program) (params : List Temp) (c c' : Code) : Prop :=
  ∀ vals, Improves size p p (bodyJob c params vals) (bodyJob c' params vals)

/-- The new tail comes to what the old one comes to, and it is ready. -/
def TailBetter (size : Int) (p : Program) (R : DefnId → Prop) (t t' : Tail) : Prop :=
  TailReady p.prims R t' ∧ ∀ env, Improves size p p (.tail t env) (.tail t' env)

section Pass

variable {size : Int} {p : Program} {R : DefnId → Prop} {s : Progress} {id : DefnId} {d : Defn}
  {body : DefnBody} {params : List Temp} {c c' : Code} {t : Tail}

theorem CodeBetter.removeDead (h : CodeBetter size p .empty c c')
    (hops : ∀ t ∈ c'.operations, t.Registered p.prims) (hnodup : (params ++ c.binders).Nodup) :
    BodyBetter size p params c (Simplify.removeDead c').1 := by
  intro vals
  refine ⟨?_⟩
  intro quiet w w₂ w' vs hsize hw hc
  have hfresh : Facts.empty.Fresh (assign [] params vals) c.binders := fun u hu => by
    have hnot : u ∉ params := fun hmem => (List.nodup_append.mp hnodup).2.2 u hmem u hu rfl
    exact ⟨lookup_assign_of_not_mem hnot, rfl⟩
  obtain ⟨w₃, hc₃, htrace, hsteps⟩ := h hsize hw (Facts.holds_empty p w₂ _) hfresh hc
  obtain ⟨w₂', hc₂, htrace', hsteps'⟩ := comes_removeDead hops (.refl w₂) (fun _ _ => rfl) hc₃
  exact ⟨w₂', hc₂, htrace'.trans htrace, by omega⟩

theorem gets_body (hs : s.program = p) (hp : Ready p R) (hc : ∀ t ∈ c.operations, TailReady p.prims R t)
    (hnodup : (params ++ c.binders).Nodup) :
    Gets (bodyExcept (doubtful size) size c) s fun c' s' =>
      s'.program = p ∧ BodyBetter size p params c c' := by
  have hbinders := (List.nodup_append.mp hnodup).2.1
  refine (gets_code (f := .empty) hs hp (fun _ h => nomatch h) hc hbinders).bind
    fun c' s₁ ⟨hs₁, hops, hbetter⟩ => ?_
  exact ⟨_, _, rfl, hs₁, hbetter.removeDead hops hnodup⟩

theorem gets_bodyTail (hs : s.program = p) (hp : Ready p R) (ht : TailReady p.prims R t) :
    Gets (tailExcept (doubtful size) size .empty t) s fun t' s' =>
      s'.program = p ∧ TailBetter size p R t t' := by
  refine (gets_tail (f := .empty) hs hp (fun _ h => nomatch h) ht).mono
    fun t' s' ⟨hs', ht', hrewrites⟩ => ⟨hs', ht', fun env => ⟨?_⟩⟩
  intro quiet w w₂ w' vs hsize hw hc
  exact hrewrites.comes hsize hw (Facts.holds_empty p w₂ env) hc

/-- A definition is simplified. -/
theorem gets_defn (hd : s.program.defns[id]? = some d) (hp : Ready s.program R)
    (hready : BodyReady s.program.prims R d.body) :
    Gets (PassM.onBody (bodyExcept (doubtful size) size) (tailExcept (doubtful size) size .empty) id) s
      fun _ s' => ∃ body, s'.program = s.program.setBody id body ∧
        BodyEdit (BodyBetter size s.program d.body.params) (TailBetter size s.program R) d.body body := by
  obtain ⟨hnodup, htails⟩ := hready
  refine (gets_onBody hd (K := fun s' => s'.program = s.program)
    (C := BodyBetter size s.program d.body.params) (T := TailBetter size s.program R) rfl ?_ ?_ ?_).mono ?_
  · intro b c hb hc
    rw [hb, DefnBody.operations, hc] at htails
    rw [hb, DefnBody.inputs, DefnBody.binders, hc] at hnodup
    rw [hb]
    exact gets_body rfl hp htails hnodup
  · intro k t hk ht
    rw [hk, DefnBody.operations, ht] at htails
    exact gets_bodyTail rfl hp (htails t (.head _))
  · intro l t hl ht
    rw [hl, DefnBody.operations, ht] at htails
    exact gets_bodyTail rfl hp (htails t (.head _))
  · rintro _ s' ⟨s₁, body, hs₁, hedit, hs'⟩
    exact ⟨body, hs₁ ▸ hs', hedit⟩

/-- A program stays ready when the tail of a closure is replaced by one that is ready. -/
theorem Ready.of_edit (hp : Ready p R) (hd : p.defns[id]? = some d)
    (h : BodyEdit (BodyBetter size p d.body.params) (TailBetter size p R) d.body body)
    (hresolve : ∀ i, (p.setBody id body).resolve i = i) : Ready (p.setBody id body) R where
  resolve := hresolve
  builtin := hp.builtin
  closures i hi := by
    obtain ⟨k, hk, htails⟩ := hp.closures i hi
    obtain ⟨e, he, hbody⟩ := exists_of_closure hk
    by_cases hne : i = id
    · subst hne
      cases hd.symm.trans he
      have hd' : (p.setBody i body).defns[i]? = some { d with body } := by
        rw [Program.getElem?_setBody, if_pos rfl, hd]
        rfl
      generalize hold : d.body = old at h
      rw [hbody] at hold
      subst hold
      cases h with
      | @closure _ t t' htail h =>
          refine ⟨_, closure_eq hd' rfl, fun u hu => ?_⟩
          cases hu
          exact h.1
      | closureMissing => exact ⟨k, closure_eq hd' rfl, htails⟩
    · refine ⟨k, closure_eq (d := e) ?_ hbody, htails⟩
      rw [Program.getElem?_setBody, if_neg (Ne.symm hne)]
      exact he

/-- A program while its definitions are simplified: what it was before it still does, and the definitions
that are left are ready. -/
structure Stage (size : Int) (p : Program) (R : DefnId → Prop) (ids : List DefnId) (s : Progress) : Prop where
  refines : Refines size p s.program
  whole : ∀ {j : DefnId} {d : Defn}, s.program.defns[j]? = some d → d.replacedBy = none
  ready : Ready s.program R
  nodup : ids.Nodup
  rest : ∀ id ∈ ids, ∃ d, s.program.defns[id]? = some d ∧ BodyReady s.program.prims R d.body

theorem Stage.next {ids : List DefnId} (h : Stage size p R (id :: ids) s) :
    Gets (PassM.onBody (bodyExcept (doubtful size) size) (tailExcept (doubtful size) size .empty) id) s
      fun _ s' => Stage size p R ids s' := by
  obtain ⟨d, hd, hready⟩ := h.rest id (.head _)
  refine (gets_defn hd h.ready hready).mono fun _ s' ⟨body, hs', hedit⟩ => ?_
  have hpatch := bodyPatch_of_edit (hedit.mono (fun _ _ hc => hc) fun _ _ ht => ht.2)
  obtain ⟨hpatched, hwhole'⟩ := hpatch.patched hd s.program.temps h.whole
  obtain ⟨hid, hnodup⟩ := List.nodup_cons.mp h.nodup
  have hready' := h.ready.of_edit hd hedit hpatched.resolve'
  rw [← hs'] at hpatched hwhole' hready'
  refine ⟨h.refines.trans hpatched.refines, hwhole', hready', hnodup, fun i hi => ?_⟩
  obtain ⟨e, he, hbody⟩ := h.rest i (.tail _ hi)
  have hne : id ≠ i := fun heq => hid (heq ▸ hi)
  rw [hs', Program.getElem?_setBody, if_neg hne]
  exact ⟨e, he, hbody⟩

end Pass

end Simplify

/-- Simplifies every definition that can be reached, with exceptions. -/
def simplifyExcept (e : Simplify.Exceptions) (size : Int) (p : Program) : Except Defect (Bool × Program) :=
  PassM.run (p.reachable.forM
    (PassM.onBody (Simplify.bodyExcept e size) (Simplify.tailExcept e size .empty))) p

/-- Simplification with exceptions goes through, and what the program did it still does, in no more steps. -/
theorem simplify_refines {size : Int} {p : Program} {R : DefnId → Prop}
    (hwhole : ∀ {j : DefnId} {d : Defn}, p.defns[j]? = some d → d.replacedBy = none) (hp : Simplify.Ready p R)
    (hready : ∀ id ∈ p.reachable, ∃ d, p.defns[id]? = some d ∧ Simplify.BodyReady p.prims R d.body) :
    ∃ changed p', simplifyExcept (Simplify.doubtful size) size p = .ok (changed, p') ∧ Refines size p p' ∧
      ∀ id, p'.resolve id = id := by
  obtain ⟨changed, s, hrun, hstage⟩ := (gets_forM (I := Simplify.Stage size p R) (s := ⟨p, 0⟩)
    (fun _ _ _ h => h.next) ⟨.refl size p, hwhole, hp, List.nodup_range.filter _, hready⟩).run
  exact ⟨changed, s.program, hrun, hstage.refines, Program.resolve_of_whole hstage.whole⟩

/-- A linked program with its primitives in the table is ready. -/
theorem ready_of_registered {p : Program} (hp : p.Linked) (hregular : p.Regular) (hprims : p.Registered) :
    ∃ R, Simplify.Ready p R ∧
      ∀ id ∈ p.reachable, ∃ d, p.defns[id]? = some d ∧ Simplify.BodyReady p.prims R d.body := by
  let R : DefnId → Prop := fun id => id ∈ p.reachable ∧ ∃ k, p.closure id = .ok k
  have htails {id : DefnId} {d : Defn} (hid : id ∈ p.reachable) (hd : p.defns[id]? = some d) {t : Tail}
      (ht : t ∈ d.body.operations) : Simplify.TailReady p.prims R t := by
    refine ⟨hprims.2 id hid d hd t ht, ?_⟩
    rintro i args inst rfl
    obtain ⟨k, hk, -⟩ := Option.map_eq_some_iff.mp ((hregular id hid d hd).2.1 _ ht)
    obtain ⟨e, he, hbody⟩ := Source.exists_of_closure? hk
    refine ⟨hp.refs hid hd i (DefnBody.refs_operations ht ?_), k, closure_eq he hbody⟩
    exact List.mem_append_right _ (.head _)
  refine ⟨R, ⟨Program.resolve_of_whole hp.whole, hprims.1, ?_⟩, fun id hid => ?_⟩
  · rintro i ⟨hi, k, hk⟩
    obtain ⟨e, he, hbody⟩ := exists_of_closure hk
    refine ⟨k, hk, fun t ht => htails hi he ?_⟩
    rw [hbody, DefnBody.operations]
    exact Option.mem_toList.mpr ht
  · obtain ⟨d, hd⟩ := Program.exists_of_reachable hid
    exact ⟨d, hd, (hregular id hid d hd).1, fun t ht => htails hid hd ht⟩

/-- Without exceptions it is simplification. -/
theorem simplifyExcept_nothing (size : Int) (p : Program) :
    simplifyExcept Simplify.nothing size p = simplify size p := by
  have hbody : Simplify.bodyExcept Simplify.nothing size = Simplify.body size := by
    funext c
    rw [Simplify.bodyExcept, Simplify.body, Simplify.codeExcept_nothing]
  rw [simplifyExcept, simplify, hbody]
  rfl

end Optimize

end Mil
