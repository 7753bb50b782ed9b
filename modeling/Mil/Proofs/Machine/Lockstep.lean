import Mil.Proofs.Machine.Follow

/-!
Runs in lockstep. Two programs are twins if the second one is the first with some definitions merged
into others: its references lead to definitions whose code is the same up to the choice of temporaries.
Machines on the two programs then take the same steps. What they hold differs only in which of the
definitions that were merged a closure is of, and in the positions and names of merged definitions that
show in messages.
-/

namespace Mil

/-- Both numbers lead to one definition. -/
def Program.Joins (q : Program) (i j : DefnId) : Prop := q.resolve i = q.resolve j

namespace Machine

variable {p q : Program} {α α' β β' ε ε' : Type}

/-! ### Messages -/

/-- One temporary, or one of a definition that was merged and what stands for it. -/
def Renamed (p q : Program) (x y : Temp) : Prop :=
  x = y ∨ ∃ id d, p.defns[id]? = some d ∧ q.resolve id ≠ id ∧ x ∈ d.body.inputs ++ d.body.binders

/-- Two texts are the same but for names and numbers of merged definitions and names of their
temporaries. -/
inductive Says (p q : Program) : String → String → Prop
  | text (s : String) : Says p q s s
  | name (id : DefnId) : Says p q (p.nameOf id) (q.nameOf (q.resolve id))
  | handle {i j : DefnId} (h : q.Joins i j) : Says p q (toString i) (toString j)
  | temp {x y : Temp} (h : Renamed p q x y) : Says p q (toString x) (toString y)
  | append {s s' t t' : String} (h : Says p q s s') (h' : Says p q t t') : Says p q (s ++ t) (s' ++ t')

theorem Says.frame {s s' : String} (h : Says p q s s') (pre post : String) :
    Says p q (pre ++ s ++ post) (pre ++ s' ++ post) :=
  ((Says.text pre).append h).append (.text post)

/-- One position, or that of a definition that was merged and another one. -/
def Moved (p q : Program) (pos pos' : Position) : Prop :=
  pos = pos' ∨ ∃ id d, p.defns[id]? = some d ∧ q.resolve id ≠ id ∧ pos = d.pos

/-- Two ends of a run, with positions and names of merged definitions aside. -/
inductive HaltTwin (p q : Program) : Halt → Halt → Prop
  | failure {pos pos' : Position} {kind : FailureKind} {msg msg' : String} (hpos : Moved p q pos pos')
      (h : Says p q msg msg') : HaltTwin p q (.failure ⟨pos, kind, msg⟩) (.failure ⟨pos', kind, msg'⟩)
  | defect {d d' : Defect} (h : Says p q d.describe d'.describe) : HaltTwin p q (.defect d) (.defect d')

theorem haltTwin_refl (h : Halt) : HaltTwin p q h h := by
  cases h with
  | defect d => exact .defect (.text _)
  | failure f => exact .failure (.inl rfl) (.text _)

/-! ### Outcomes -/

/-- Both outcomes are results, or both are errors. -/
inductive Both (E : ε → ε' → Prop) (A : α → α' → Prop) : Except ε α → Except ε' α' → Prop
  | ok {a : α} {a' : α'} (h : A a a') : Both E A (.ok a) (.ok a')
  | error {e : ε} {e' : ε'} (h : E e e') : Both E A (.error e) (.error e')

section Both

variable {E : ε → ε' → Prop} {A : α → α' → Prop} {B : β → β' → Prop}

theorem Both.bind {x : Except ε α} {x' : Except ε' α'} {f : α → Except ε β} {f' : α' → Except ε' β'}
    (h : Both E A x x') (hf : ∀ a a', A a a' → Both E B (f a) (f' a')) :
    Both E B (x >>= f) (x' >>= f') := by
  cases h with
  | ok h => exact hf _ _ h
  | error h => exact .error h

theorem Both.map {x : Except ε α} {x' : Except ε' α'} {f : α → β} {f' : α' → β'}
    (h : Both E A x x') (hf : ∀ a a', A a a' → B (f a) (f' a')) : Both E B (x.map f) (x'.map f') := by
  cases h with
  | ok h => exact .ok (hf _ _ h)
  | error h => exact .error h

theorem Both.mapM {f : β → Except ε α} {f' : β' → Except ε' α'} {bs : List β} {bs' : List β'}
    (h : List.Forall₂ (fun b b' => Both E A (f b) (f' b')) bs bs') :
    Both E (List.Forall₂ A) (bs.mapM f) (bs'.mapM f') := by
  induction h with
  | nil => exact .ok .nil
  | cons hb _ ih =>
      rw [List.mapM_cons, List.mapM_cons]
      exact hb.bind fun a a' ha => ih.bind fun as as' has => .ok (.cons ha has)

end Both

/-! ### Values -/

mutual

theorem ValueCopy.says {v v' : Value} (h : ValueCopy q.Joins v v') :
    Says p q v.render v'.render := by
  cases v with
  | word w =>
      cases h
      exact .text _
  | flag b =>
      cases h
      exact .text _
  | closure i fields =>
      cases h with
      | closure hserves => exact (Says.handle hserves).frame _ _
  | data k fields =>
      cases h with
      | data hfields =>
          have hrest := ValuesCopy.says hfields
          cases hfields with
          | nil => exact .text _
          | cons hv hvs => exact ((Says.text (k.name ++ "(")).append hrest).append (.text _)
termination_by sizeOf v

theorem ValuesCopy.says {vs vs' : List Value} (h : ValuesCopy q.Joins vs vs') :
    Says p q (", ".intercalate (Value.renderList vs)) (", ".intercalate (Value.renderList vs')) := by
  cases vs with
  | nil =>
      cases h
      exact .text _
  | cons v vs =>
      cases h with
      | @cons _ v' _ vs' hv hvs =>
          have hhead := ValueCopy.says hv
          have htail := ValuesCopy.says hvs
          cases hvs with
          | nil => exact hhead
          | cons =>
              simp only [Value.renderList, String.intercalate_cons_cons] at htail ⊢
              exact (hhead.append (.text _)).append htail
termination_by sizeOf vs

end

mutual

theorem valueCopy_refl {S : DefnId → DefnId → Prop} (hS : ∀ i, S i i) (v : Value) :
    ValueCopy S v v := by
  cases v with
  | word w => exact .word w
  | flag b => exact .flag b
  | closure i fields => exact .closure (hS i) (valuesCopy_refl hS fields)
  | data k fields => exact .data (valuesCopy_refl hS fields)
termination_by sizeOf v

theorem valuesCopy_refl {S : DefnId → DefnId → Prop} (hS : ∀ i, S i i) (vs : List Value) :
    ValuesCopy S vs vs := by
  cases vs with
  | nil => exact .nil
  | cons v vs => exact .cons (valueCopy_refl hS v) (valuesCopy_refl hS vs)
termination_by sizeOf vs

end

/-! ### Code -/

/-- Which temporary of the second body stands for which of the first. -/
abbrev TempRel := Temp → Temp → Prop

/-- Temporaries that stand for each other have the same values. -/
def LocalsTwin (q : Program) (r : TempRel) (env env' : Locals) : Prop :=
  ∀ x y, r x y → Option.Rel (ValueCopy q.Joins) (env.lookup x) (env'.lookup y)

/-- Values for two lists of inputs give temporaries that stand for each other the same values. -/
def Opens (q : Program) (xs ys : List Temp) (r : TempRel) : Prop :=
  ∀ vals vals', ValuesCopy q.Joins vals vals' → LocalsTwin q r (assign [] xs vals) (assign [] ys vals')

/-- After two lists of temporaries have been bound, others stand for each other. -/
def Rebinds (q : Program) (r : TempRel) (xs ys : List Temp) (r' : TempRel) : Prop :=
  xs.length = ys.length ∧ ∀ env env' vals vals', LocalsTwin q r env env' → ValuesCopy q.Joins vals vals' →
    vals.length = xs.length → LocalsTwin q r' (assign env xs vals) (assign env' ys vals')

section Code

variable (p q : Program)

/-- Two operands that mean the same. -/
inductive AtomTwin (r : TempRel) : Atom → Atom → Prop
  | temp {x y : Temp} (h : r x y) (hname : Renamed p q x y) : AtomTwin r (.temp x) (.temp y)
  | lit (l : Literal) : AtomTwin r (.lit l) (.lit l)
  | top {i j : DefnId} (h : q.Joins i j) (index : Nat) (site site' : SiteId) :
      AtomTwin r (.top i index site) (.top j index site')

/-- Operands, position by position. -/
abbrev AtomsTwin (r : TempRel) (as as' : List Atom) : Prop := List.Forall₂ (AtomTwin p q r) as as'

/-- Two calls that do the same. -/
structure CallTwin (r : TempRel) (c c' : BlockCall) : Prop where
  block : q.Joins c.block c'.block
  args : AtomsTwin p q r c.args c'.args

/-- Two tails that do the same. -/
inductive TailTwin (r : TempRel) : Tail → Tail → Prop
  | ret {as as' : List Atom} (h : AtomsTwin p q r as as') : TailTwin r (.ret as) (.ret as')
  | call {c c' : BlockCall} (h : CallTwin p q r c c') : TailTwin r (.call c) (.call c')
  | prim (f : Prim) {as as' : List Atom} {inst inst' : Option BlockType} (h : AtomsTwin p q r as as') :
      TailTwin r (.prim f as inst) (.prim f as' inst')
  | alloc {i j : DefnId} {as as' : List Atom} {inst inst' : Option AllocType} (hid : q.Joins i j)
      (h : AtomsTwin p q r as as') : TailTwin r (.alloc i as inst) (.alloc j as' inst')
  | data (k : Cfun) {as as' : List Atom} {inst inst' : Option AllocType}
      (h : AtomsTwin p q r as as') : TailTwin r (.data k as inst) (.data k as' inst')
  | enter {f f' : Atom} {as as' : List Atom} (hfn : AtomTwin p q r f f')
      (h : AtomsTwin p q r as as') : TailTwin r (.enter f as) (.enter f' as')
  | sel (k : Cfun) (field : Int) {a a' : Atom} {inst inst' : Option AllocType}
      (h : AtomTwin p q r a a') : TailTwin r (.sel k field a inst) (.sel k field a' inst')

/-- Two bodies that do the same. -/
inductive CodeTwin : TempRel → Code → Code → Prop
  | bind {r r' : TempRel} {vars vars' : List Temp} {t t' : Tail} {next next' : Code}
      (ht : TailTwin p q r t t') (hvars : Rebinds q r vars vars' r') (hnext : CodeTwin r' next next') :
      CodeTwin r (.bind vars t next) (.bind vars' t' next')
  | done {r : TempRel} {t t' : Tail} (ht : TailTwin p q r t t') : CodeTwin r (.done t) (.done t')
  | branch {r : TempRel} {a a' : Atom} {c c' e e' : BlockCall} (ha : AtomTwin p q r a a')
      (hc : CallTwin p q r c c') (he : CallTwin p q r e e') :
      CodeTwin r (.branch a c e) (.branch a' c' e')
  | case {r : TempRel} {a a' : Atom} {alts alts' : List (Cfun × BlockCall)}
      {default default' : Option BlockCall} (ha : AtomTwin p q r a a')
      (halts : List.Forall₂ (fun x x' => x'.1 = x.1 ∧ CallTwin p q r x.2 x'.2) alts alts')
      (hdefault : Option.Rel (CallTwin p q r) default default') :
      CodeTwin r (.case a alts default) (.case a' alts' default')

/-- Two definitions that do the same. -/
inductive BodyTwin : DefnBody → DefnBody → Prop
  | block {b b' : Block} {r : TempRel} (hlen : b.params.length = b'.params.length)
      (hopens : Opens q b.params b'.params r) (hbody : Option.Rel (CodeTwin p q r) b.body b'.body) :
      BodyTwin (.block b) (.block b')
  | closure {k k' : Closure} {r : TempRel} (hparams : k.params.length = k'.params.length)
      (hargs : k.args.length = k'.args.length)
      (hopens : Opens q (k.params ++ k.args) (k'.params ++ k'.args) r)
      (htail : Option.Rel (TailTwin p q r) k.tail k'.tail) : BodyTwin (.closure k) (.closure k')
  | top {t t' : TopLevel} (htail : Option.Rel (TailTwin p q Eq) t.tail t'.tail) :
      BodyTwin (.top t) (.top t')
  | external {e e' : External} (href : e.ref = e'.ref) (himpl : Option.Rel q.Joins e.impl e'.impl) :
      BodyTwin (.external e) (.external e')

end Code

/-- The second program is the first one with some definitions merged into others, but no top-level
value. -/
structure Twins (p q : Program) : Prop where
  whole : ∀ id, p.resolve id = id
  resolved : ∀ id, q.resolve (q.resolve id) = q.resolve id
  defns : ∀ id, Option.Rel (fun d d' => BodyTwin p q d.body d'.body) (p.defns[id]?)
    (q.defns[q.resolve id]?)
  pos : ∀ {id : DefnId} {d d' : Defn}, p.defns[id]? = some d → q.defns[id]? = some d' → d.pos = d'.pos
  tops : ∀ {id : DefnId} {d : Defn} {t : TopLevel}, p.defns[id]? = some d → d.body = .top t →
    ∀ j, q.resolve j = q.resolve id → j = id

/-- The definition is a top-level value. -/
def IsTop (p : Program) (id : DefnId) : Prop := ∃ d t, p.defns[id]? = some d ∧ d.body = .top t

theorem Twins.resolve_top (h : Twins p q) {id : DefnId} (hid : IsTop p id) : q.resolve id = id := by
  obtain ⟨d, t, hd, ht⟩ := hid
  exact h.tops hd ht _ (h.resolved id)

/-! ### Machines -/

/-- Two machines that have done the same. -/
structure MachineTwin (p q : Program) (m m' : Machine) : Prop where
  pos : Moved p q m.pos m'.pos
  size : m'.size = m.size
  fuel : m'.fuel = m.fuel
  steps : m'.steps = m.steps
  memory : m'.memory = m.memory
  active : m'.active = m.active
  printed : m'.printed = m.printed
  tops : ∀ id, Option.Rel (ValuesCopy q.Joins) (m.tops.lookup id) (m'.tops.lookup (q.resolve id))

theorem haltTwin_fail {m m' : Machine} (hm : MachineTwin p q m m') {msg msg' : String}
    (h : Says p q msg msg') : HaltTwin p q (m.fail msg) (m'.fail msg') :=
  .failure hm.pos h

/-- Two operations that do not go through for the same reason. -/
inductive StallTwin (p q : Program) : Stall → Stall → Prop
  | halt {h h' : Halt} (hh : HaltTwin p q h h') : StallTwin p q (.halt h) (.halt h')
  | top {id : DefnId} {pos pos' : Position} {t t' : Option Tail} (hid : IsTop p id)
      (hpos : Moved p q pos pos') (ht : Option.Rel (TailTwin p q Eq) t t') :
      StallTwin p q (.top id pos t) (.top id pos' t')

section Operands

variable {m m' : Machine} {r : TempRel} {env env' : Locals}

theorem Says.stall {d d' : Defect} (h : Says p q d.describe d'.describe) :
    StallTwin p q (.halt (.defect d)) (.halt (.defect d')) :=
  .halt (.defect h)

theorem stallTwin_fail (hm : MachineTwin p q m m') {msg msg' : String} (h : Says p q msg msg') :
    StallTwin p q (.halt (m.fail msg)) (.halt (m'.fail msg')) :=
  .halt (haltTwin_fail hm h)

theorem Twins.joins (h : Twins p q) (id : DefnId) : q.Joins id (q.resolve id) := (h.resolved id).symm

theorem Twins.says_name {id : DefnId} {d d' : Defn} (hd : p.defns[id]? = some d)
    (hd' : q.defns[q.resolve id]? = some d') : Says p q d.name d'.name := by
  have h := Says.name (p := p) (q := q) id
  rw [Program.nameOf, Program.nameOf, hd, hd'] at h
  exact h

/-- The definitions at two places that lead to one definition. -/
theorem Twins.exists_or (h : Twins p q) (id : DefnId) :
    (p.defns[id]? = none ∧ q.defns[q.resolve id]? = none) ∨
      ∃ d d', p.defns[id]? = some d ∧ q.defns[q.resolve id]? = some d' ∧
        BodyTwin p q d.body d'.body ∧ Says p q d.name d'.name ∧ Moved p q d.pos d'.pos := by
  have hrel := h.defns id
  cases hd : p.defns[id]? with
  | none =>
      rw [hd] at hrel
      cases hd' : q.defns[q.resolve id]? with
      | none => exact .inl ⟨rfl, rfl⟩
      | some d' =>
          rw [hd'] at hrel
          cases hrel
  | some d =>
      rw [hd] at hrel
      cases hd' : q.defns[q.resolve id]? with
      | none =>
          rw [hd'] at hrel
          cases hrel
      | some d' =>
          rw [hd'] at hrel
          cases hrel with
          | some hbody =>
              refine .inr ⟨d, d', rfl, rfl, hbody, says_name hd hd', ?_⟩
              by_cases hid : q.resolve id = id
              · exact .inl (h.pos hd (hid ▸ hd'))
              · exact .inr ⟨id, d, hd, hid, rfl⟩

theorem Twins.out_of_range (h : Twins p q) (id : DefnId) :
    Says p q (Defect.handleOutOfRange id).describe (Defect.handleOutOfRange (q.resolve id)).describe :=
  (Says.handle (h.joins id)).frame "definition handle " " out of range"

theorem Twins.defn (h : Twins p q) (id : DefnId) :
    Both (StallTwin p q) (fun d d' => BodyTwin p q d.body d'.body ∧ Moved p q d.pos d'.pos)
      (orDefect (p.defn id)) (orDefect (q.defn (q.resolve id))) := by
  unfold Program.defn
  rcases h.exists_or id with ⟨hd, hd'⟩ | ⟨d, d', hd, hd', hbody, -, hpos⟩
  · rw [hd, hd']
    exact .error (h.out_of_range id).stall
  · rw [hd, hd']
    exact .ok ⟨hbody, hpos⟩

theorem orDefect_bind (x : Except Defect α) (f : α → Except Defect β) :
    orDefect (x >>= f) = orDefect x >>= fun a => orDefect (f a) := by
  cases x <;> rfl

theorem Twins.block (h : Twins p q) (id : DefnId) :
    Both (StallTwin p q) (fun b b' => BodyTwin p q (.block b) (.block b'))
      (orDefect (p.block id)) (orDefect (q.block (q.resolve id))) := by
  have hnot : Says p q (Defect.notBlock id).describe (Defect.notBlock (q.resolve id)).describe :=
    (Says.handle (h.joins id)).frame "definition " " is not a block"
  rw [Program.block, Program.block, orDefect_bind, orDefect_bind]
  refine (h.defn id).bind fun d d' hd => ?_
  have hbody := hd.1
  generalize d.body = body at hbody ⊢
  generalize d'.body = body' at hbody ⊢
  cases hbody with
  | block hlen hopens hcode => exact .ok (.block hlen hopens hcode)
  | _ => exact .error hnot.stall

theorem Twins.closure (h : Twins p q) (id : DefnId) :
    Both (StallTwin p q) (fun k k' => BodyTwin p q (.closure k) (.closure k'))
      (orDefect (p.closure id)) (orDefect (q.closure (q.resolve id))) := by
  have hnot : Says p q (Defect.notClosure id).describe (Defect.notClosure (q.resolve id)).describe :=
    (Says.handle (h.joins id)).frame "definition " " is not a closure"
  rw [Program.closure, Program.closure, orDefect_bind, orDefect_bind]
  refine (h.defn id).bind fun d d' hd => ?_
  have hbody := hd.1
  generalize d.body = body at hbody ⊢
  generalize d'.body = body' at hbody ⊢
  cases hbody with
  | closure hparams hargs hopens htail => exact .ok (.closure hparams hargs hopens htail)
  | _ => exact .error hnot.stall

/-! ### Operands -/

theorem topValues_twin (h : Twins p q) (hm : MachineTwin p q m m') (id : DefnId) :
    Both (StallTwin p q) (ValuesCopy q.Joins) (topValues p m id) (topValues q m' (q.resolve id)) := by
  have hlookup := hm.tops id
  unfold topValues
  generalize m.tops.lookup id = x at hlookup ⊢
  generalize m'.tops.lookup (q.resolve id) = x' at hlookup ⊢
  cases hlookup with
  | some hvals => exact .ok hvals
  | none =>
      unfold Program.defn
      rcases h.exists_or id with ⟨hd, hd'⟩ | ⟨d, d', hd, hd', hbody, hname, hpos⟩
      · rw [hd, hd']
        exact .error (h.out_of_range id).stall
      · rw [hd, hd']
        dsimp only
        have hnot : Says p q (Defect.notTopLevel d.name).describe (Defect.notTopLevel d'.name).describe :=
          hname.append (.text " is not a top-level definition")
        have htop : ∀ t, d.body = .top t → IsTop p id := fun t ht => ⟨d, t, hd, ht⟩
        generalize d.body = body at hbody htop ⊢
        generalize d'.body = body' at hbody ⊢
        cases hbody with
        | top htail =>
            dsimp only
            rw [h.resolve_top (htop _ rfl), hm.active]
            split
            · exact .error (stallTwin_fail hm (hname.frame _ _))
            · exact .error (.top (htop _ rfl) hpos htail)
        | _ => exact .error hnot.stall

theorem topTarget_twin (h : Twins p q) (hm : MachineTwin p q m m') {i j : DefnId} (hij : q.Joins i j) :
    Both (StallTwin p q) (fun a b => b = q.resolve a) (topTarget p m i) (topTarget q m' j) := by
  unfold topTarget
  dsimp only
  rw [h.whole, ← hij]
  rcases h.exists_or i with ⟨hd, hd'⟩ | ⟨d, d', hd, hd', hbody, hname, -⟩
  · rw [hd, hd']
    exact .ok rfl
  · rw [hd, hd']
    dsimp only
    generalize d.body = body at hbody ⊢
    generalize d'.body = body' at hbody ⊢
    cases hbody with
    | @external e e' href himpl =>
        dsimp only
        rw [← href]
        generalize e.impl = x at himpl ⊢
        generalize e'.impl = x' at himpl ⊢
        cases himpl with
        | none => exact .error (stallTwin_fail hm ((((hname.frame _ _).append (.text _)).append (.text _))))
        | some hjoins =>
            refine .ok ?_
            rw [h.whole]
            exact hjoins.symm
    | _ => exact .ok rfl

theorem topValue_twin (h : Twins p q) (hm : MachineTwin p q m m') {i j : DefnId} (hij : q.Joins i j)
    (index : Nat) :
    Both (StallTwin p q) (ValueCopy q.Joins) (topValue p m i index) (topValue q m' j index) := by
  refine (topTarget_twin h hm hij).bind fun a b hb => ?_
  subst hb
  refine (topValues_twin h hm a).bind fun vals vals' hvals => ?_
  have hlen : vals'.length = vals.length := hvals.length_eq.symm
  cases hv : vals[index]? with
  | none =>
      have hv' : vals'[index]? = none := by
        rw [List.getElem?_eq_none_iff] at hv ⊢
        omega
      rw [hv', hlen]
      refine .error (Says.stall ?_)
      exact (((Says.name a).frame _ _).append (.text _))
  | some v =>
      obtain ⟨v', hv', hcopy⟩ := forall₂_getElem? hvals.flip hv
      rw [hv']
      exact .ok hcopy

theorem atom_twin (h : Twins p q) (hm : MachineTwin p q m m') (henv : LocalsTwin q r env env')
    {a a' : Atom} (ha : AtomTwin p q r a a') :
    Both (StallTwin p q) (ValueCopy q.Joins) (atom p m env a) (atom q m' env' a') := by
  cases ha with
  | @temp x y hxy hname =>
      have hlookup := henv x y hxy
      unfold atom
      dsimp only
      generalize env.lookup x = v at hlookup ⊢
      generalize env'.lookup y = v' at hlookup ⊢
      cases hlookup with
      | none => exact .error (Says.stall ((Says.text _).append ((Says.text _).append (.temp hname))))
      | some hv => exact .ok hv
  | lit l => exact .ok (valueCopy_ofLit l)
  | top hij index => exact topValue_twin h hm hij index

theorem atoms_twin (h : Twins p q) (hm : MachineTwin p q m m') (henv : LocalsTwin q r env env')
    {as as' : List Atom} (has : AtomsTwin p q r as as') :
    Both (StallTwin p q) (ValuesCopy q.Joins) (atoms p m env as) (atoms q m' env' as') :=
  Both.mapM (has.imp fun _ _ ha => atom_twin h hm henv ha)

end Operands

/-! ### Primitives -/

section Primitives

variable {m m' : Machine} {vals vals' : List Value}

theorem divide_twin (hm : MachineTwin p q m m') (h : ValuesCopy q.Joins vals vals') (rem : Bool) :
    Both (HaltTwin p q) (ValuesCopy q.Joins) (m.divide rem vals) (m'.divide rem vals') := by
  unfold divide
  dsimp only
  rw [h.getElem?_asWord, h.getElem?_asWord, hm.size]
  split
  · exact .error (haltTwin_fail hm (.text _))
  · exact .ok (.cons (.word _) .nil)

theorem operand_twin (hm : MachineTwin p q m m') {v v' : Value} (h : ValueCopy q.Joins v v') (f : Prim) :
    Both (HaltTwin p q) Eq (m.operand f v) (m'.operand f v') := by
  unfold operand
  rw [h.lit?]
  split
  · exact .ok rfl
  · exact .error (haltTwin_fail hm ((Says.text _).append h.says))

theorem pureCall_twin (hm : MachineTwin p q m m') (h : ValuesCopy q.Joins vals vals') (f : Prim) :
    Both (HaltTwin p q) (ValuesCopy q.Joins) (m.pureCall f vals) (m'.pureCall f vals') := by
  refine (Both.mapM (h.imp fun _ _ hv => operand_twin hm hv f)).bind fun lits lits' hlits => ?_
  obtain rfl := List.forall₂_eq_eq_eq ▸ hlits
  rw [hm.size]
  split
  · exact .ok (.cons (valueCopy_ofLit _) .nil)
  · exact .error (haltTwin_fail hm (.text _))

/-- What an operation leaves: values and a machine. -/
def ResultTwin (p q : Program) (x x' : List Value × Machine) : Prop :=
  ValuesCopy q.Joins x.1 x'.1 ∧ MachineTwin p q x.2 x'.2

theorem access_twin (hm : MachineTwin p q m m') (h : ValuesCopy q.Joins vals vals') (a : MemAccess) :
    ResultTwin p q (m.access a vals) (m'.access a vals') := by
  have htail : vals'.tail.map Value.asWord = vals.tail.map Value.asWord := by
    rw [List.map_tail, List.map_tail, h.map_asWord]
  unfold access
  dsimp only
  rw [h.head?_asWord, htail, hm.size, hm.memory]
  split
  · exact ⟨.nil, hm.pos, rfl, hm.fuel, hm.steps, rfl, hm.active, hm.printed, hm.tops⟩
  · exact ⟨valuesCopy_words _, hm⟩

theorem prim_twin (hm : MachineTwin p q m m') (h : ValuesCopy q.Joins vals vals') (f : Prim) :
    Both (HaltTwin p q) (ResultTwin p q) (m.prim f vals) (m'.prim f vals') := by
  have hpair : ∀ vs vs', ValuesCopy q.Joins vs vs' → ResultTwin p q (vs, m) (vs', m') :=
    fun _ _ hvs => ⟨hvs, hm⟩
  unfold prim
  split
  · exact (divide_twin hm h false).map hpair
  · exact (divide_twin hm h false).map hpair
  · exact (divide_twin hm h true).map hpair
  · exact .error (haltTwin_fail hm (.text _))
  · exact .error (haltTwin_fail hm (.text _))
  · refine .ok ⟨.nil, hm.pos, hm.size, hm.fuel, hm.steps, hm.memory, hm.active, ?_, hm.tops⟩
    rw [h.head?_asWord, hm.size, hm.printed]
  · exact .error (haltTwin_fail hm (.text _))
  · split
    · exact .ok (access_twin hm h _)
    · exact (pureCall_twin hm h f).map hpair

end Primitives

/-! ### Operations -/

/-- What an operation comes to on two twins. -/
inductive EffectTwin (p q : Program) : Effect → Effect → Prop
  | values {vs vs' : List Value} (h : ValuesCopy q.Joins vs vs') : EffectTwin p q (.values vs) (.values vs')
  | body {r : TempRel} {c c' : Option Code} {env env' : Locals} (hc : Option.Rel (CodeTwin p q r) c c')
      (henv : LocalsTwin q r env env') : EffectTwin p q (.body c env) (.body c' env')
  | tail {r : TempRel} {t t' : Option Tail} {env env' : Locals} (ht : Option.Rel (TailTwin p q r) t t')
      (henv : LocalsTwin q r env env') : EffectTwin p q (.tail t env) (.tail t' env')

section Operations

variable {m m' : Machine} {r : TempRel} {env env' : Locals}

theorem MachineTwin.move (hm : MachineTwin p q m m') {pos pos' : Position} (hpos : Moved p q pos pos') :
    MachineTwin p q { m with pos } { m' with pos := pos' } :=
  ⟨hpos, hm.size, hm.fuel, hm.steps, hm.memory, hm.active, hm.printed, hm.tops⟩

theorem assign_append {env : Locals} {xs ys : List Temp} {as bs : List Value}
    (h : xs.length = as.length) : assign env (xs ++ ys) (as ++ bs) = assign (assign env xs as) ys bs := by
  rw [assign, assign, assign, List.zip_append h, List.reverse_append, List.append_assoc]

theorem orHalt_twin {A : α → α' → Prop} {x : Except Halt α} {x' : Except Halt α'}
    (h : Both (HaltTwin p q) A x x') : Both (StallTwin p q) A (orHalt x) (orHalt x') := by
  cases h with
  | ok h => exact .ok h
  | error h => exact .error (.halt h)

theorem enter_twin (h : Twins p q) (hm : MachineTwin p q m m') (henv : LocalsTwin q r env env')
    {f f' : Atom} {as as' : List Atom} (hf : AtomTwin p q r f f') (has : AtomsTwin p q r as as') :
    Both (StallTwin p q) (fun x x' => EffectTwin p q x.1 x'.1 ∧ MachineTwin p q x.2 x'.2)
      (enter p m env f as) (enter q m' env' f' as') := by
  refine (atom_twin h hm henv hf).bind fun v v' hv => ?_
  have hnot : Says p q ("entering " ++ v.render ++ ", which is not a closure")
      ("entering " ++ v'.render ++ ", which is not a closure") := hv.says.frame _ _
  cases hv with
  | @closure i j fields fields' hij hfields =>
      refine (atoms_twin h hm henv has).bind fun vals vals' hvals => ?_
      dsimp only
      rw [h.whole, ← hij]
      refine (h.closure i).bind fun k k' hk => ?_
      cases hk with
      | @closure _ _ r hparams hargs hopens htail =>
          rw [← hparams, ← hargs, ← hvals.length_eq, ← hfields.length_eq]
          split
          · refine .error (stallTwin_fail hm ?_)
            exact (((Says.name i).frame _ _).append (.text _)).append (.text _)
          · rename_i hlen
            refine (h.defn i).bind fun d d' hd => .ok ⟨.tail htail ?_, hm.move hd.2⟩
            have hfields' : k.params.length = fields.length := by omega
            rw [← assign_append hfields',
              ← assign_append (hparams ▸ hfields.length_eq ▸ hfields')]
            exact hopens _ _ (List.rel_append hfields hvals)
  | _ => exact .error (stallTwin_fail hm hnot)

theorem operate_twin (h : Twins p q) (hm : MachineTwin p q m m') (henv : LocalsTwin q r env env')
    {t t' : Tail} (ht : TailTwin p q r t t') :
    Both (StallTwin p q) (fun x x' => EffectTwin p q x.1 x'.1 ∧ MachineTwin p q x.2 x'.2)
      (operate p m env t) (operate q m' env' t') := by
  cases ht with
  | ret has => exact (atoms_twin h hm henv has).bind fun _ _ hvals => .ok ⟨.values hvals, hm⟩
  | @call c c' hc =>
      refine (atoms_twin h hm henv hc.args).bind fun vals vals' hvals => ?_
      dsimp only
      rw [h.whole, ← hc.block]
      refine (h.block c.block).bind fun b b' hb => ?_
      cases hb with
      | block _ hopens hbody =>
          exact (h.defn c.block).bind fun d d' hd => .ok ⟨.body hbody (hopens _ _ hvals), hm.move hd.2⟩
  | prim f has =>
      refine (atoms_twin h hm henv has).bind fun vals vals' hvals => ?_
      exact (orHalt_twin (prim_twin hm hvals f)).bind fun x x' hx => .ok ⟨.values hx.1, hx.2⟩
  | @alloc i j _ _ _ _ hij has =>
      refine (atoms_twin h hm henv has).bind fun vals vals' hvals => .ok ⟨.values ?_, hm⟩
      refine .cons (.closure ?_ hvals) .nil
      rw [h.whole]
      exact hij.trans (h.resolved j).symm
  | data k has =>
      exact (atoms_twin h hm henv has).bind fun vals vals' hvals =>
        .ok ⟨.values (.cons (.data hvals) .nil), hm⟩
  | enter hf has => exact enter_twin h hm henv hf has
  | @sel k field a a' _ _ ha =>
      refine (atom_twin h hm henv ha).bind fun v v' hv => ?_
      have hnot : Says p q
          ("cannot select field " ++ toString field ++ " of " ++ k.name ++ " from " ++ v.render)
          ("cannot select field " ++ toString field ++ " of " ++ k.name ++ " from " ++ v'.render) :=
        (Says.text _).append hv.says
      cases hv with
      | @data l fields fields' hfields =>
          dsimp only
          cases hf : fields[field.toNat]? with
          | none =>
              have hf' : fields'[field.toNat]? = none := by
                rw [List.getElem?_eq_none_iff] at hf ⊢
                exact hfields.length_eq ▸ hf
              rw [hf']
              exact .error (stallTwin_fail hm hnot)
          | some v =>
              obtain ⟨v', hv', hcopy⟩ := forall₂_getElem? hfields.flip hf
              rw [hv']
              exact .ok ⟨.values (.cons hcopy .nil), hm⟩
      | _ => exact .error (stallTwin_fail hm hnot)

theorem chooseFlag_twin (h : Twins p q) (hm : MachineTwin p q m m') (henv : LocalsTwin q r env env')
    {a a' : Atom} {c c' e e' : BlockCall} (ha : AtomTwin p q r a a') (hc : CallTwin p q r c c')
    (he : CallTwin p q r e e') :
    Both (StallTwin p q) (CallTwin p q r) (chooseFlag p m env a c e) (chooseFlag q m' env' a' c' e') := by
  refine (atom_twin h hm henv ha).bind fun v v' hv => ?_
  have hnot : Says p q ("branching on " ++ v.render ++ ", which is not a flag")
      ("branching on " ++ v'.render ++ ", which is not a flag") := hv.says.frame _ _
  cases hv with
  | flag b =>
      cases b with
      | true => exact .ok hc
      | false => exact .ok he
  | _ => exact .error (stallTwin_fail hm hnot)

theorem chooseAlt_twin (h : Twins p q) (hm : MachineTwin p q m m') (henv : LocalsTwin q r env env')
    {a a' : Atom} {alts alts' : List (Cfun × BlockCall)} {default default' : Option BlockCall}
    (ha : AtomTwin p q r a a')
    (halts : List.Forall₂ (fun x x' => x'.1 = x.1 ∧ CallTwin p q r x.2 x'.2) alts alts')
    (hdefault : Option.Rel (CallTwin p q r) default default') :
    Both (StallTwin p q) (CallTwin p q r) (chooseAlt p m env a alts default)
      (chooseAlt q m' env' a' alts' default') := by
  refine (atom_twin h hm henv ha).bind fun v v' hv => ?_
  have hnot : Says p q ("case on " ++ v.render ++ ", which is not a data value")
      ("case on " ++ v'.render ++ ", which is not a data value") := hv.says.frame _ _
  cases hv with
  | @data k fields fields' _ =>
      dsimp only
      have hfind := find?_alts k halts
      generalize alts.find? (fun a => a.1.tag = k.tag) = x at hfind ⊢
      generalize alts'.find? (fun a => a.1.tag = k.tag) = x' at hfind ⊢
      cases hfind with
      | some hcall => exact .ok hcall
      | none =>
          cases hdefault with
          | some hcall => exact .ok hcall
          | none => exact .error (stallTwin_fail hm (.text _))
  | _ => exact .error (stallTwin_fail hm hnot)

end Operations

/-! ### Steps -/

section Steps

variable (p q : Program)

/-- What is taken up again on two twins. -/
inductive ResumeTwin : Resume → Resume → Prop
  | operation {r : TempRel} {t t' : Tail} {env env' : Locals} (ht : TailTwin p q r t t')
      (henv : LocalsTwin q r env env') : ResumeTwin (.operation t env) (.operation t' env')
  | code {r : TempRel} {c c' : Code} {env env' : Locals} (hc : CodeTwin p q r c c')
      (henv : LocalsTwin q r env env') : ResumeTwin (.code c env) (.code c' env')

/-- What remains to be done on two twins. -/
inductive FrameTwin : Frame → Frame → Prop
  | bind {r r' : TempRel} {vars vars' : List Temp} {next next' : Code} {env env' : Locals}
      (hvars : Rebinds q r vars vars' r') (hnext : CodeTwin p q r' next next')
      (henv : LocalsTwin q r env env') : FrameTwin (.bind vars next env) (.bind vars' next' env')
  | top {id : DefnId} {saved saved' : Position} {resume resume' : Option Resume} (hid : IsTop p id)
      (hsaved : Moved p q saved saved') (hresume : Option.Rel (ResumeTwin p q) resume resume') :
      FrameTwin (.top id saved resume) (.top id saved' resume')

/-- What comes next on two twins. -/
inductive NextTwin : Next → Next → Prop
  | tail {r : TempRel} {t t' : Option Tail} {env env' : Locals} {stack stack' : List Frame}
      (ht : Option.Rel (TailTwin p q r) t t') (henv : LocalsTwin q r env env')
      (hstack : List.Forall₂ (FrameTwin p q) stack stack') :
      NextTwin (.tail t env stack) (.tail t' env' stack')
  | finish {vals vals' : List Value} (h : ValuesCopy q.Joins vals vals') :
      NextTwin (.finish vals) (.finish vals')
  | halt {h h' : Halt} (hh : HaltTwin p q h h') : NextTwin (.halt h) (.halt h')

/-- What comes next and the machine it comes on. -/
structure StateTwin (x x' : Next × Machine) : Prop where
  next : NextTwin p q x.1 x'.1
  machine : MachineTwin p q x.2 x'.2

end Steps

section Runs

variable {m m' : Machine} {r : TempRel} {env env' : Locals} {stack stack' : List Frame}

theorem localsTwin_nil (q : Program) (r : TempRel) : LocalsTwin q r [] [] := fun _ _ _ => .none

theorem onStall_twin (hm : MachineTwin p q m m') {s s' : Stall} (hs : StallTwin p q s s')
    {resume resume' : Option Resume} (hresume : Option.Rel (ResumeTwin p q) resume resume')
    (hstack : List.Forall₂ (FrameTwin p q) stack stack') :
    StateTwin p q (onStall m s resume stack) (onStall m' s' resume' stack') := by
  cases hs with
  | halt hh => exact ⟨.halt hh, hm⟩
  | @top id pos pos' _ _ hid hpos ht =>
      refine ⟨.tail ht (localsTwin_nil q Eq) (.cons (.top hid hm.pos hresume) hstack), hpos, hm.size,
        hm.fuel, hm.steps, hm.memory, ?_, hm.printed, hm.tops⟩
      exact congrArg (id :: ·) hm.active

theorem enterCode_twin (h : Twins p q) (hm : MachineTwin p q m m') (henv : LocalsTwin q r env env')
    {c c' : Code} (hc : CodeTwin p q r c c') (hstack : List.Forall₂ (FrameTwin p q) stack stack') :
    StateTwin p q (enterCode p m c env stack) (enterCode q m' c' env' stack') := by
  have hresume : Option.Rel (ResumeTwin p q) (some (.code c env)) (some (.code c' env')) :=
    .some (.code hc henv)
  cases hc with
  | bind ht hvars hnext => exact ⟨.tail (.some ht) henv (.cons (.bind hvars hnext henv) hstack), hm⟩
  | done ht => exact ⟨.tail (.some ht) henv hstack, hm⟩
  | @branch _ a a' c c' e e' ha hcall he =>
      have hchoose := chooseFlag_twin h hm henv ha hcall he
      unfold enterCode
      dsimp only
      generalize chooseFlag p m env a c e = x at hchoose ⊢
      generalize chooseFlag q m' env' a' c' e' = x' at hchoose ⊢
      cases hchoose with
      | ok hcall => exact ⟨.tail (.some (.call hcall)) henv hstack, hm⟩
      | error hs => exact onStall_twin hm hs hresume hstack
  | @case _ a a' alts alts' default default' ha halts hdefault =>
      have hchoose := chooseAlt_twin h hm henv ha halts hdefault
      unfold enterCode
      dsimp only
      generalize chooseAlt p m env a alts default = x at hchoose ⊢
      generalize chooseAlt q m' env' a' alts' default' = x' at hchoose ⊢
      cases hchoose with
      | ok hcall => exact ⟨.tail (.some (.call hcall)) henv hstack, hm⟩
      | error hs => exact onStall_twin hm hs hresume hstack

theorem enterBody_twin (h : Twins p q) (hm : MachineTwin p q m m') (henv : LocalsTwin q r env env')
    {c c' : Option Code} (hc : Option.Rel (CodeTwin p q r) c c')
    (hstack : List.Forall₂ (FrameTwin p q) stack stack') :
    StateTwin p q (enterBody p m c env stack) (enterBody q m' c' env' stack') := by
  cases hc with
  | none => exact ⟨.halt (haltTwin_refl _), hm⟩
  | some hc => exact enterCode_twin h hm henv hc hstack

/-- The values of a top-level definition are kept. -/
theorem MachineTwin.keep (h : Twins p q) (hm : MachineTwin p q m m') {id : DefnId} (hid : IsTop p id)
    {vals vals' : List Value} (hvals : ValuesCopy q.Joins vals vals') {pos pos' : Position}
    (hpos : Moved p q pos pos') :
    MachineTwin p q { m with pos, tops := (id, vals) :: m.tops, active := m.active.erase id }
      { m' with pos := pos', tops := (id, vals') :: m'.tops, active := m'.active.erase id } := by
  refine ⟨hpos, hm.size, hm.fuel, hm.steps, hm.memory, ?_, hm.printed, fun j => ?_⟩
  · exact congrArg (List.erase · id) hm.active
  · dsimp only
    rw [lookup_cons_ite, lookup_cons_ite]
    have hresolve := h.resolve_top hid
    by_cases hj : j = id
    · rw [if_pos hj, if_pos (by rw [hj, hresolve])]
      exact .some hvals
    · rw [if_neg hj, if_neg fun heq => hj ?_]
      · exact hm.tops j
      · obtain ⟨d, t, hd, ht⟩ := hid
        exact h.tops hd ht j (heq.trans hresolve.symm)

/-- What an operation comes to is handed on in the same way, if values are. -/
theorem perform_twin (h : Twins p q) (hstack : List.Forall₂ (FrameTwin p q) stack stack')
    (hdeliver : ∀ {m m' vals vals'}, MachineTwin p q m m' → ValuesCopy q.Joins vals vals' →
      StateTwin p q (deliver p stack m vals) (deliver q stack' m' vals'))
    (hm : MachineTwin p q m m') (henv : LocalsTwin q r env env') {t t' : Tail} (ht : TailTwin p q r t t') :
    StateTwin p q (perform p m t env stack) (perform q m' t' env' stack') := by
  have hop := operate_twin h hm henv ht
  unfold perform
  generalize operate p m env t = x at hop ⊢
  generalize operate q m' env' t' = x' at hop ⊢
  cases hop with
  | error hs => exact onStall_twin hm hs (.some (.operation ht henv)) hstack
  | @ok x x' hx =>
      obtain ⟨e, m⟩ := x
      obtain ⟨e', m'⟩ := x'
      obtain ⟨he, hm⟩ := hx
      dsimp only at he hm
      cases he with
      | values hvals => exact hdeliver hm hvals
      | body hc henv => exact enterBody_twin h hm henv hc hstack
      | tail ht henv => exact ⟨.tail ht henv hstack, hm⟩

theorem deliver_twin (h : Twins p q) (hstack : List.Forall₂ (FrameTwin p q) stack stack')
    {vals vals' : List Value} (hm : MachineTwin p q m m') (hvals : ValuesCopy q.Joins vals vals') :
    StateTwin p q (deliver p stack m vals) (deliver q stack' m' vals') := by
  induction hstack generalizing m m' vals vals' with
  | nil => exact ⟨.finish hvals, hm⟩
  | cons hframe hrest ih =>
      cases hframe with
      | bind hvars hnext henv =>
          unfold deliver
          rw [← hvars.1, ← hvals.length_eq]
          split
          · exact ⟨.halt (haltTwin_refl _), hm⟩
          · rename_i hlen
            exact enterCode_twin h hm (hvars.2 _ _ _ _ henv hvals (by omega)) hnext hrest
      | top hid hsaved hresume =>
          unfold deliver
          dsimp only
          have hkeep := hm.keep h hid hvals hsaved
          cases hresume with
          | none => exact ih hkeep hvals
          | some hresume =>
              cases hresume with
              | code hc henv => exact enterCode_twin h hkeep henv hc hrest
              | operation ht henv => exact perform_twin h hrest (fun hm hvals => ih hm hvals) hkeep henv ht

theorem step_twin (h : Twins p q) (hm : MachineTwin p q m m') (henv : LocalsTwin q r env env')
    {t t' : Option Tail} (ht : Option.Rel (TailTwin p q r) t t')
    (hstack : List.Forall₂ (FrameTwin p q) stack stack') :
    StateTwin p q (step p m t env stack) (step q m' t' env' stack') := by
  have hm : MachineTwin p q { m with steps := m.steps + 1 } { m' with steps := m'.steps + 1 } :=
    ⟨hm.pos, hm.size, hm.fuel, congrArg Nat.succ hm.steps, hm.memory, hm.active, hm.printed, hm.tops⟩
  unfold step
  generalize ({ m with steps := m.steps + 1 } : Machine) = m₁ at hm ⊢
  generalize ({ m' with steps := m'.steps + 1 } : Machine) = m₁' at hm ⊢
  dsimp only
  rw [hm.fuel, hm.steps]
  split
  · refine ⟨.halt (haltTwin_fail hm ?_), hm⟩
    rw [hm.fuel]
    exact .text _
  · cases ht with
    | none => exact ⟨.halt (haltTwin_refl _), hm⟩
    | some ht => exact perform_twin h hstack (deliver_twin h hstack) hm henv ht

/-- Two runs end in the same way: both give values, or both fail. -/
abbrev EndTwin (p q : Program) : Except Halt (List Value) → Except Halt (List Value) → Prop :=
  Both (HaltTwin p q) (ValuesCopy q.Joins)

theorem loop_twin (h : Twins p q) (budget : Nat) {x x' : Next × Machine} (hx : StateTwin p q x x') :
    EndTwin p q (loop p budget x.1 x.2).1 (loop q budget x'.1 x'.2).1 ∧
      MachineTwin p q (loop p budget x.1 x.2).2 (loop q budget x'.1 x'.2).2 := by
  induction budget generalizing x x' with
  | zero =>
      obtain ⟨next, m⟩ := x
      obtain ⟨next', m'⟩ := x'
      obtain ⟨hnext, hm⟩ := hx
      dsimp only at hnext hm ⊢
      cases hnext with
      | finish hvals => exact ⟨.ok hvals, hm⟩
      | halt hh => exact ⟨.error hh, hm⟩
      | tail =>
          refine ⟨.error (haltTwin_fail hm ?_), hm⟩
          rw [hm.fuel]
          exact .text _
  | succ budget ih =>
      obtain ⟨next, m⟩ := x
      obtain ⟨next', m'⟩ := x'
      obtain ⟨hnext, hm⟩ := hx
      dsimp only at hnext hm ⊢
      cases hnext with
      | finish hvals => exact ⟨.ok hvals, hm⟩
      | halt hh => exact ⟨.error hh, hm⟩
      | tail ht henv hstack => exact ih (step_twin h hm henv ht hstack)

theorem start_twin (h : Twins p q) (hm : MachineTwin p q m m') (id : DefnId) {args args' : List Value}
    (hargs : ValuesCopy q.Joins args args') :
    StateTwin p q (start p m id args) (start q m' id args') := by
  unfold start
  dsimp only
  rw [h.whole]
  unfold Program.defn
  rcases h.exists_or id with ⟨hd, hd'⟩ | ⟨d, d', hd, hd', hbody, hname, hpos⟩
  · rw [hd, hd']
    exact ⟨.halt (.defect (h.out_of_range id)), hm⟩
  · rw [hd, hd']
    dsimp only
    have hm := hm.move hpos
    have hcannot : HaltTwin p q (({ m with pos := d.pos } : Machine).fail (d.name ++ " cannot be run"))
        (({ m' with pos := d'.pos } : Machine).fail (d'.name ++ " cannot be run")) :=
      haltTwin_fail hm (hname.append (.text _))
    generalize ({ m with pos := d.pos } : Machine) = m₁ at hm hcannot ⊢
    generalize ({ m' with pos := d'.pos } : Machine) = m₁' at hm hcannot ⊢
    generalize d.body = body at hbody ⊢
    generalize d'.body = body' at hbody ⊢
    cases hbody with
    | block hlen hopens hcode =>
        dsimp only
        rw [← hlen, ← hargs.length_eq]
        split
        · refine ⟨.halt (haltTwin_fail hm ?_), hm⟩
          exact (((hname.append (.text _)).append (.text _)).append (.text _)).append (.text _)
        · exact enterBody_twin h hm (hopens _ _ hargs) hcode .nil
    | top =>
        have hvals := topValues_twin h hm id
        dsimp only
        generalize topValues p m₁ id = x at hvals ⊢
        generalize topValues q m₁' (q.resolve id) = x' at hvals ⊢
        cases hvals with
        | ok hvals => exact ⟨.finish hvals, hm⟩
        | error hs => exact onStall_twin hm hs .none .nil
    | closure => exact ⟨.halt hcannot, hm⟩
    | external => exact ⟨.halt hcannot, hm⟩

/-- Runs on two twins end in the same way, with machines that have done the same. -/
theorem run_twin (h : Twins p q) (hm : MachineTwin p q m m') (id : DefnId) {args args' : List Value}
    (hargs : ValuesCopy q.Joins args args') :
    EndTwin p q (run p m id args).1 (run q m' id args').1 ∧
      MachineTwin p q (run p m id args).2 (run q m' id args').2 := by
  have hm : MachineTwin p q { m with printed := [], active := [] }
      { m' with printed := [], active := [] } :=
    ⟨hm.pos, hm.size, hm.fuel, hm.steps, hm.memory, rfl, rfl, hm.tops⟩
  unfold run
  dsimp only
  have hstart := start_twin h hm id hargs
  have hbudget : ∀ {m m' : Machine}, MachineTwin p q m m' → m'.budget = m.budget := fun hm => by
    rw [budget, budget, hm.fuel, hm.steps]
  rw [hbudget hstart.machine]
  obtain ⟨hend, hm'⟩ := loop_twin h _ hstart
  exact ⟨hend, hm'.pos, hm'.size, hm'.fuel, hm'.steps, hm'.memory, rfl, hm'.printed, hm'.tops⟩

end Runs

end Machine

end Mil
