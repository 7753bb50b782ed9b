import Mil.Proofs.Rtl.Build
import Mil.Proofs.Rtl.WordLevel
import Mil.Rtl.Generate

/-!
The construction of a function from word-level code consists of lawful actions. An instruction is
lawful in a function if a return gives as many words as the function, a call or a tail call of a
symbol fits the block that the symbol belongs to, or is that of a primitive that the program declares,
and a code symbol belongs to a closure. Everything else is lawful anywhere.
-/

namespace Mil

/-- The tails of a definition. -/
def DefnBody.tails : DefnBody → List Tail
  | .block b => (b.body.map Rtl.tails).getD []
  | .closure k => k.tail.toList
  | .top t => t.tail.toList
  | .external _ => []

/-- A primitive that the program declares and uses where it can be reached. -/
def Program.UserPrim (p : Program) (name : String) : Prop :=
  ∃ id d t, id ∈ p.reachable ∧ p.defns[id]? = some d ∧ t ∈ d.body.tails ∧ name ∈ Rtl.primNames t

namespace Rtl

open Typing BuildM

/-- The number of words that a block gives. -/
def blockResults (s : Store) (b : Block) : Nat := (b.declared.map fun t => width s t.rng).getD 0

theorem width_tuple (s : Store) (τs : List Ty) : width s (.tuple τs) = τs.length := by
  unfold width Store.resolve
  cases s.cells.size with
  | zero => rfl
  | succ fuel =>
      simp only [Store.resolveWith, Ty.mapVars, Ty.subst, Ty.elems?, Ty.substList_eq_map,
        List.length_map]

/-- A symbol of a block that is a function, with the numbers of its operands and results. -/
def BlockSymbol (cx : Setting) (s : Symbols) (name : String) (args results : Nat) : Prop :=
  ∃ id d b, id ∈ cx.roots ∧ cx.program.defns[id]? = some d ∧ d.body = .block b ∧
    s.names.lookup id = some name ∧ args = b.params.length ∧ results = blockResults cx.program.store b

/-- A symbol of the code of a closure. -/
def CodeSymbol (cx : Setting) (s : Symbols) (name : String) : Prop :=
  ∃ id d k, id ∈ cx.program.reachable ∧ cx.program.defns[id]? = some d ∧ d.body = .closure k ∧
    s.codeNames.lookup id = some name

/-- The instructions that may stand in a function of some results. -/
def Lawful (cx : Setting) (results : Nat) (s : Symbols) : Instr → Prop
  | .ret args => args.length = results
  | .call (.symbol name) args dests _ =>
    cx.program.UserPrim name ∨ BlockSymbol cx s name args.length dests.length
  | .tailcall (.symbol name) args => BlockSymbol cx s name args.length results
  | .op (.addressOf name _) _ _ _ => CodeSymbol cx s name
  | _ => True

/-- A block that may be a part of a function of some results. -/
def Joins (cx : Setting) (results : Nat) (id : DefnId) : Prop :=
  id ∈ cx.program.reachable ∧ ∃ d b, cx.program.defns[id]? = some d ∧ d.body = .block b ∧
    blockResults cx.program.store b = results

theorem Lawful.mono {cx : Setting} {results : Nat} {s s' : Symbols} {i : Instr} (hle : s.Le s')
    (h : Lawful cx results s i) : Lawful cx results s' i := by
  have hblock : ∀ {name args results}, BlockSymbol cx s name args results →
      BlockSymbol cx s' name args results := by
    rintro name args results ⟨id, d, b, hroot, hd, hb, hname, hargs, hresults⟩
    exact ⟨id, d, b, hroot, hd, hb, hle.names hname, hargs, hresults⟩
  unfold Lawful at h ⊢
  split at h
  · exact h
  · exact h.imp_right hblock
  · exact hblock h
  · obtain ⟨id, d, k, hreach, hd, hk, hname⟩ := h
    exact ⟨id, d, k, hreach, hd, hk, hle.codes hname⟩
  · trivial

/-- The rules for a function of some results. -/
def lawful (cx : Setting) (results : Nat) : Rules where
  instr := Lawful cx results
  label := Joins cx results
  mono := Lawful.mono

/-! ### Single instructions -/

section Basic

variable {α β : Type} {R : Rules} {cx : Setting} {D D' : List Node} {b b' : Builder}

theorem Acts.labels (h : Acts R D b D' b') {id : DefnId} {n : Node}
    (hn : b.labels.lookup id = some n) : b'.labels.lookup id = some n := by
  induction h with
  | refl => exact hn
  | step hfirst _ ih =>
      refine ih ?_
      cases hfirst with
      | label hnone => exact lookup_cons_of_none hnone hn
      | node | reg | bind | symbols | place | perm | start => exact hn

theorem Acts.symbols (h : Acts R D b D' b') : b.symbols.Le b'.symbols := by
  induction h with
  | refl => exact .refl _
  | step hfirst _ ih =>
      cases hfirst with
      | symbols hle => exact hle.trans ih
      | node | reg | bind | label | place | perm | start => exact ih

theorem acts_mapM {f : α → BuildM β} {as : List α} {xs : List β}
    (hf : ∀ a ∈ as, ∀ {b x b'}, Builds cx (f a) b x b' → Acts R D b D b')
    (h : Builds cx (as.mapM f) b xs b') : Acts R D b D b' ∧ xs.length = as.length := by
  induction as generalizing b xs with
  | nil =>
      obtain ⟨rfl, rfl⟩ := Builds.mapM_nil_iff.mp h
      exact ⟨.refl, rfl⟩
  | cons a as ih =>
      obtain ⟨x, ys, b₁, hx, hys, rfl⟩ := Builds.mapM_cons_iff.mp h
      obtain ⟨hacts, hlen⟩ := ih (fun a ha => hf a (.tail _ ha)) hys
      exact ⟨(hf a (.head _) hx).trans hacts, congrArg Nat.succ hlen⟩

theorem acts_forM {f : α → BuildM Unit} {as : List α} {u : Unit}
    (hf : ∀ a ∈ as, ∀ {b b'}, Builds cx (f a) b () b' → Acts R D b D b')
    (h : Builds cx (as.forM f) b u b') : Acts R D b D b' := by
  induction as generalizing b with
  | nil =>
      rw [Builds.forM_nil_iff.mp h]
      exact .refl
  | cons a as ih =>
      obtain ⟨b₁, hx, hxs⟩ := Builds.forM_cons_iff.mp h
      exact (hf a (.head _) hx).trans (ih (fun a ha => hf a (.tail _ ha)) hxs)

theorem acts_freshReg {r : Reg} (h : Builds cx freshReg b r b') : Acts R D b D b' := by
  obtain ⟨-, rfl⟩ := Builds.freshReg_iff.mp h
  exact .of .reg

theorem acts_freshRegs {n : Nat} {rs : List Reg} (h : Builds cx (freshRegs n) b rs b') :
    Acts R D b D b' ∧ rs.length = n := by
  obtain ⟨hacts, hlen⟩ := acts_mapM (fun _ _ => acts_freshReg) h
  exact ⟨hacts, hlen.trans List.length_range⟩

theorem acts_regOf {t : Temp} {r : Reg} (h : Builds cx (regOf t) b r b') : Acts R D b D b' := by
  rcases Builds.regOf_iff.mp h with ⟨-, rfl⟩ | ⟨hnone, -, rfl⟩
  · exact .refl
  · exact .of (.bind hnone)

theorem acts_emit {make : Node → Instr} {u : Unit} (h : Builds cx (emit make) b u b')
    (hsucc : ∀ n, (make n).successors = [n]) (hok : ∀ n, R.instr b.symbols (make n)) :
    Acts R D b D b' := by
  rcases Builds.emit_iff.mp h with ⟨-, rfl⟩ | ⟨n, hcur, rfl⟩
  · exact .refl
  · refine .step .node (.step (.place hcur (hok _) fun s hs => .inl ?_) (.of (.start rfl)))
    rw [hsucc, List.mem_singleton] at hs
    exact hs ▸ .head _

theorem acts_terminate {i : Instr} {u : Unit} (h : Builds cx (terminate i) b u b')
    (hok : R.instr b.symbols i)
    (hsucc : ∀ s ∈ i.successors, s ∈ D ∨ ∃ id, b.labels.lookup id = some s) :
    Acts R D b D b' ∧ b'.current = none := by
  rcases Builds.terminate_iff.mp h with ⟨hcur, rfl⟩ | ⟨n, hcur, rfl⟩
  · exact ⟨.refl, hcur⟩
  · exact ⟨.of (.place hcur hok hsucc), rfl⟩

theorem acts_startAt {D' : List Node} {n : Node} {u : Unit} (h : Builds cx (startAt n) b u b')
    (hcur : b.current = none) (hheld : D.Perm (n :: D')) : Acts R D b D' b' := by
  rw [Builds.startAt_iff.mp h]
  exact .step (.perm hheld) (.of (.start hcur))

theorem acts_symbol {id : DefnId} {name : String} (h : Builds cx (symbol id) b name b') :
    Acts R D b D b' ∧ b'.symbols.names.lookup id = some name := by
  obtain ⟨rfl, rfl⟩ := Builds.symbol_iff.mp h
  exact ⟨.of (.symbols (Symbols.le_ofDefn _ _ _)), Symbols.lookup_ofDefn _ _ _⟩

theorem acts_codeSymbol {id : DefnId} {name : String} (h : Builds cx (codeSymbol id) b name b') :
    Acts R D b D b' ∧ b'.symbols.codeNames.lookup id = some name := by
  obtain ⟨rfl, rfl⟩ := Builds.codeSymbol_iff.mp h
  exact ⟨.of (.symbols (Symbols.le_ofCode _ _ _)), Symbols.lookup_ofCode _ _ _⟩

end Basic

/-! ### Operands and operations -/

section Operands

variable {cx : Setting} {w : Nat} {D : List Node} {b b' : Builder}

theorem acts_move {src dest : Reg} {u : Unit} (h : Builds cx (move src dest) b u b') :
    Acts (lawful cx w) D b D b' :=
  acts_emit h (fun _ => rfl) fun _ => trivial

theorem acts_const {n : Int} {r : Reg} (h : Builds cx (const n) b r b') :
    Acts (lawful cx w) D b D b' := by
  rw [BuildM.const, Builds.freshReg_bind] at h
  obtain ⟨_, b₁, hop, h⟩ := Builds.bind_iff.mp h
  obtain ⟨-, rfl⟩ := Builds.pure_iff.mp h
  exact .step .reg (acts_emit hop (fun _ => rfl) fun _ => trivial)

theorem acts_loadWord {record dest : Reg} {index : Int} {u : Unit}
    (h : Builds cx (loadWord record index dest) b u b') : Acts (lawful cx w) D b D b' := by
  rw [loadWord, Builds.read_bind, Builds.wordOffset_bind] at h
  exact acts_emit h (fun _ => rfl) fun _ => trivial

theorem acts_storeWord {record src : Reg} {index : Int} {u : Unit}
    (h : Builds cx (storeWord record index src) b u b') : Acts (lawful cx w) D b D b' := by
  rw [storeWord, Builds.read_bind, Builds.wordOffset_bind] at h
  exact acts_emit h (fun _ => rfl) fun _ => trivial

theorem acts_topAddress {id : DefnId} {index : Nat} {a : Address}
    (h : Builds cx (topAddress id index) b a b') : Acts (lawful cx w) D b D b' := by
  have hsymbol : ∀ {i : DefnId} {offset : Int}, Builds cx (do
      return .global (← symbol i) offset) b a b' → Acts (lawful cx w) D b D b' := by
    intro i offset h
    obtain ⟨name, b₁, hname, h⟩ := Builds.bind_iff.mp h
    obtain ⟨-, rfl⟩ := Builds.pure_iff.mp h
    exact (acts_symbol hname).1
  rw [topAddress, Builds.read_bind] at h
  dsimp only at h
  rw [Builds.wordOffset_bind] at h
  split at h
  · exact (Builds.throw_iff h).elim
  · split at h
    · split at h
      · obtain ⟨-, rfl⟩ := Builds.pure_iff.mp h
        exact .refl
      · exact hsymbol h
    · exact hsymbol h

theorem acts_atom {a : Atom} {r : Reg} (h : Builds cx (atom a) b r b') :
    Acts (lawful cx w) D b D b' := by
  unfold BuildM.atom at h
  split at h
  · obtain ⟨-, rfl⟩ := Builds.boundReg_iff.mp h
    exact .refl
  · rw [Builds.read_bind] at h
    exact acts_const h
  · exact acts_const h
  · rw [Builds.freshReg_bind] at h
    obtain ⟨address, b₁, haddress, h⟩ := Builds.bind_iff.mp h
    rw [Builds.read_bind] at h
    obtain ⟨_, b₂, hload, h⟩ := Builds.bind_iff.mp h
    obtain ⟨-, rfl⟩ := Builds.pure_iff.mp h
    exact .step .reg ((acts_topAddress haddress).trans
      (acts_emit hload (fun _ => rfl) fun _ => trivial))

theorem acts_atoms {as : List Atom} {rs : List Reg} (h : Builds cx (atoms as) b rs b') :
    Acts (lawful cx w) D b D b' ∧ rs.length = as.length :=
  acts_mapM (fun _ _ => acts_atom) h

theorem acts_firstDest {dests : List Reg} {r : Reg} (h : Builds cx (firstDest dests) b r b') :
    Acts (lawful cx w) D b D b' := by
  unfold firstDest at h
  split at h
  · obtain ⟨-, rfl⟩ := Builds.pure_iff.mp h
    exact .refl
  · exact acts_freshReg h

theorem acts_record {head : BuildM Reg} {args : List Atom} {dests : List Reg} {u : Unit}
    (hhead : ∀ {b r b'}, Builds cx head b r b' → Acts (lawful cx w) D b D b')
    (h : Builds cx (record head args dests) b u b') : Acts (lawful cx w) D b D b' := by
  obtain ⟨words, b₁, hwords, h⟩ := Builds.bind_iff.mp h
  obtain ⟨d, b₂, hdest, h⟩ := Builds.bind_iff.mp h
  obtain ⟨_, b₃, halloc, h⟩ := Builds.bind_iff.mp h
  obtain ⟨r, b₄, hr, h⟩ := Builds.bind_iff.mp h
  obtain ⟨_, b₅, hstore, h⟩ := Builds.bind_iff.mp h
  have halloc := acts_emit (R := lawful cx w) (D := D) halloc (fun _ => rfl) fun _ => trivial
  exact (acts_atoms hwords).1.trans ((acts_firstDest hdest).trans (halloc.trans ((hhead hr).trans
    ((acts_storeWord hstore).trans (acts_forM (fun _ _ => acts_storeWord) h)))))

theorem acts_checkDivisor {y : Reg} {u : Unit} (h : Builds cx (checkDivisor y) b u b') :
    Acts (lawful cx w) D b D b' := by
  rw [checkDivisor, Builds.freshNode_bind, Builds.freshNode_bind] at h
  dsimp only at h
  obtain ⟨_, b₁, hbranch, h⟩ := Builds.bind_iff.mp h
  obtain ⟨_, b₂, hbad, h⟩ := Builds.bind_iff.mp h
  obtain ⟨_, b₃, habort, h⟩ := Builds.bind_iff.mp h
  obtain ⟨hacts₁, hcur₁⟩ := acts_terminate (R := lawful cx w)
    (D := (b.nextNode + 1) :: b.nextNode :: D) hbranch trivial (by simp [Instr.successors])
  have hacts₂ := acts_startAt (R := lawful cx w) hbad hcur₁ (.swap b.nextNode (b.nextNode + 1) D)
  obtain ⟨hacts₃, hcur₃⟩ := acts_terminate (R := lawful cx w)
    (D := (b.nextNode + 1) :: D) habort trivial nofun
  exact .step .node (.step .node (hacts₁.trans (hacts₂.trans (hacts₃.trans
    (acts_startAt h hcur₃ (.refl _))))))

theorem lawful_ofPrim? {op : PrimOp} {o : Operation} (h : Operation.ofPrim? op = some o) (s : Symbols)
    (args : List Reg) (d : Reg) (n : Node) : Lawful cx w s (.op o args d n) := by
  cases op <;> cases h <;> trivial

theorem acts_access {name : String} {a : MemAccess} {args dests : List Reg} {u : Unit}
    (h : Builds cx (access name a args dests) b u b') : Acts (lawful cx w) D b D b' := by
  unfold access at h
  rw [Builds.read_bind] at h
  dsimp only at h
  split at h
  · obtain ⟨_, _, hthrow, -⟩ := Builds.bind_iff.mp h
    exact (Builds.throw_iff hthrow).elim
  · split at h
    · exact acts_emit h (fun _ => rfl) fun _ => trivial
    · obtain ⟨d, b₁, hdest, h⟩ := Builds.bind_iff.mp h
      exact (acts_firstDest hdest).trans (acts_emit h (fun _ => rfl) fun _ => trivial)
    · obtain ⟨-, rfl⟩ := Builds.pure_iff.mp h
      exact .refl

theorem acts_primOperation {q : Prim} {args dests : List Reg} {u : Unit}
    (h : Builds cx (primOperation q args dests) b u b') : Acts (lawful cx w) D b D b' := by
  unfold primOperation at h
  split at h
  · exact acts_access h
  · split at h
    · rename_i o ho
      obtain ⟨d, b₁, hdest, h⟩ := Builds.bind_iff.mp h
      exact (acts_firstDest hdest).trans
        (acts_emit h (fun _ => rfl) fun n => lawful_ofPrim? ho _ args d n)
    · exact (Builds.throw_iff h).elim

/-- A primitive that never comes back ends the path. -/
theorem acts_prim {q : Prim} {operands : List Atom} {dests : List Reg} {u : Unit}
    (hq : q.OnWords) (huser : q.op = .user → cx.program.UserPrim q.name)
    (h : Builds cx (prim q operands dests) b u b') : Acts (lawful cx w) D b D b' ∧
      (q.doesntReturn = true → b'.current = none) := by
  have habort : ∀ {b b' : Builder} {u : Unit}, Builds cx (terminate (.abort q.name)) b u b' →
      Acts (lawful cx w) D b D b' ∧ b'.current = none :=
    fun h => acts_terminate h trivial nofun
  obtain ⟨args, b₁, hargs, h⟩ := Builds.bind_iff.mp h
  have hacts := (acts_atoms (w := w) (D := D) hargs).1
  by_cases hop : q.op = .user ∨ q.op = .halt ∨ q.op = .loop
  · rcases hop with hop | hop | hop
    · simp only [hop] at h
      obtain ⟨_, b₂, hcall, h⟩ := Builds.bind_iff.mp h
      have hcall := acts_emit (R := lawful cx w) (D := D) hcall (fun _ => rfl)
        fun _ => .inl (huser hop)
      split at h
      · obtain ⟨hend, hcur⟩ := habort h
        exact ⟨hacts.trans (hcall.trans hend), fun _ => hcur⟩
      · rename_i hreturns
        obtain ⟨-, rfl⟩ := Builds.pure_iff.mp h
        exact ⟨hacts.trans hcall, fun hq => absurd hq hreturns⟩
    · simp only [hop] at h
      obtain ⟨hend, hcur⟩ := habort h
      exact ⟨hacts.trans hend, fun _ => hcur⟩
    · simp only [hop] at h
      obtain ⟨hend, hcur⟩ := habort h
      exact ⟨hacts.trans hend, fun _ => hcur⟩
  · simp only [not_or] at hop
    refine ⟨hacts.trans ?_, fun hq' => ?_⟩
    · split at h
      · exact absurd ‹q.op = .halt› hop.2.1
      · exact absurd ‹q.op = .loop› hop.2.2
      · exact acts_emit h (fun _ => rfl) fun _ => trivial
      · exact absurd ‹q.op = .user› hop.1
      · obtain ⟨_, b₂, hcheck, h⟩ := Builds.bind_iff.mp h
        exact (acts_checkDivisor hcheck).trans (acts_primOperation h)
      · obtain ⟨_, b₂, hcheck, h⟩ := Builds.bind_iff.mp h
        exact (acts_checkDivisor hcheck).trans (acts_primOperation h)
      · exact acts_primOperation h
    · rw [hq.returns hop.1 hop.2.1 hop.2.2] at hq'
      cases hq'

end Operands

/-! ### Tails -/

/-- A tail of word-level code: it is typed, and refers to what can be reached. -/
structure TailOk (cx : Setting) (fields : FieldLayout) (t : Tail) (ρs : List Ty) : Prop where
  typed : TailHas (cx.program.wordContext fields) t (.tuple ρs)
  refs : ∀ r ∈ t.refs, r ∈ cx.program.reachable
  prims : ∀ name ∈ primNames t, cx.program.UserPrim name

/-- A call of word-level code. -/
structure CallOk (cx : Setting) (fields : FieldLayout) (c : BlockCall) (ρs : List Ty) : Prop where
  typed : CallHas (cx.program.wordContext fields) c (.tuple ρs)
  reach : c.block ∈ cx.program.reachable

section Tails

variable {cx : Setting} {fields : FieldLayout} {w : Nat} {D : List Node} {b b' : Builder}
  {ρs : List Ty}

theorem TailOk.call {c : BlockCall} (h : TailOk cx fields (.call c) ρs) : CallOk cx fields c ρs := by
  refine ⟨?_, h.refs _ (List.mem_append_right _ (.head _))⟩
  cases h.typed with
  | call hcall => exact hcall

theorem TailOk.prim {q : Prim} {args : List Atom} {inst : Option BlockType}
    (h : TailOk cx fields (.prim q args inst) ρs) :
    q.OnWords ∧ q.type.rng = .tuple ρs ∧ (q.op = .user → cx.program.UserPrim q.name) := by
  obtain ⟨hq, hrng, -⟩ := h.typed.prim_inv
  exact ⟨hq, hrng, fun hop => h.prims _ (by simp [primNames, hop])⟩

/-- A block that is called has a symbol that fits the call. -/
theorem CallOk.symbol (hp : cx.program.WordLevel fields) {c : BlockCall} (h : CallOk cx fields c ρs)
    (hroot : c.block ∈ cx.roots) {s : Symbols} {name : String}
    (hname : s.names.lookup c.block = some name) :
    BlockSymbol cx s name c.args.length ρs.length := by
  obtain ⟨d, k, type, hd, hk, htype, hrng, hlen⟩ := h.typed.fits hp h.reach
  refine ⟨c.block, d, k, hroot, hd, hk, hname, hlen, ?_⟩
  rw [blockResults, htype, Option.map_some, Option.getD_some, hrng, width_tuple]

theorem CallOk.joins (hp : cx.program.WordLevel fields) {c : BlockCall} (h : CallOk cx fields c ρs) :
    Joins cx ρs.length c.block := by
  obtain ⟨d, k, type, hd, hk, htype, hrng, -⟩ := h.typed.fits hp h.reach
  refine ⟨h.reach, d, k, hd, hk, ?_⟩
  rw [blockResults, htype, Option.map_some, Option.getD_some, hrng, width_tuple]

/-- What neither calls nor enters anything is computed. A primitive that never comes back ends the
path. -/
theorem acts_compute (hp : cx.program.WordLevel fields) {t : Tail} {dests : List Reg} {u : Unit}
    (ht : TailOk cx fields t ρs) (h : Builds cx (compute (some t) dests) b u b') :
    Acts (lawful cx w) D b D b' ∧ (t.doesntReturn = true → b'.current = none) := by
  cases t with
  | ret args =>
      obtain ⟨srcs, b₁, hsrcs, h⟩ := Builds.bind_iff.mp h
      exact ⟨(acts_atoms hsrcs).1.trans (acts_forM (fun _ _ => acts_move) h), nofun⟩
  | prim q args inst =>
      obtain ⟨hq, -, huser⟩ := ht.prim
      exact acts_prim hq huser h
  | alloc id args inst =>
      refine ⟨?_, nofun⟩
      unfold compute at h
      have hid : id ∈ cx.program.reachable := ht.refs id (List.mem_append_right _ (.head _))
      rw [Builds.resolve_bind, hp.resolve hid] at h
      refine acts_record (fun {b r b'} h => ?_) h
      rw [Builds.freshReg_bind] at h
      obtain ⟨name, b₁, hname, h⟩ := Builds.bind_iff.mp h
      obtain ⟨_, b₂, hop, h⟩ := Builds.bind_iff.mp h
      obtain ⟨-, rfl⟩ := Builds.pure_iff.mp h
      obtain ⟨hacts, hname⟩ := acts_codeSymbol (R := lawful cx w) (D := D) hname
      refine .step .reg (hacts.trans (acts_emit hop (fun _ => rfl) fun _ => ?_))
      obtain ⟨d, k, type, hd, hk, -⟩ := ht.typed.alloc_inv
      exact ⟨id, d, k, hid, hd, hk, hname⟩
  | data k args inst => exact ⟨acts_record acts_const h, nofun⟩
  | sel k field arg inst =>
      refine ⟨?_, nofun⟩
      obtain ⟨r, b₁, hr, h⟩ := Builds.bind_iff.mp h
      obtain ⟨d, b₂, hdest, h⟩ := Builds.bind_iff.mp h
      exact (acts_atom hr).trans ((acts_firstDest hdest).trans (acts_loadWord h))
  | call c => exact (Builds.throw_iff h).elim
  | enter fn args => exact (Builds.throw_iff h).elim

theorem acts_entered {fn : Atom} {args : List Atom} {r : Callee × List Reg}
    (h : Builds cx (entered fn args) b r b') :
    Acts (lawful cx w) D b D b' ∧ ∃ code, r.1 = .reg code := by
  obtain ⟨record, b₁, hrecord, h⟩ := Builds.bind_iff.mp h
  obtain ⟨rest, b₂, hrest, h⟩ := Builds.bind_iff.mp h
  rw [Builds.freshReg_bind] at h
  obtain ⟨_, b₃, hload, h⟩ := Builds.bind_iff.mp h
  obtain ⟨rfl, rfl⟩ := Builds.pure_iff.mp h
  exact ⟨(acts_atom hrecord).trans ((acts_atoms hrest).1.trans (.step .reg (acts_loadWord hload))),
    _, rfl⟩

theorem acts_bind (hp : cx.program.WordLevel fields) {t : Tail} {dests : List Reg} {u : Unit}
    (ht : TailOk cx fields t ρs) (hroot : ∀ c, t = .call c → c.block ∈ cx.roots)
    (hdests : dests.length = ρs.length) (h : Builds cx (BuildM.bind dests (some t)) b u b') :
    Acts (lawful cx w) D b D b' := by
  unfold BuildM.bind at h
  split at h
  · rename_i c heq
    cases heq
    rw [Builds.resolve_bind, hp.resolve ht.call.reach] at h
    obtain ⟨name, b₁, hname, h⟩ := Builds.bind_iff.mp h
    obtain ⟨args, b₂, hargs, h⟩ := Builds.bind_iff.mp h
    obtain ⟨hacts₁, hname⟩ := acts_symbol (R := lawful cx w) (D := D) hname
    obtain ⟨hacts₂, hlen⟩ := acts_atoms (w := w) (D := D) hargs
    refine hacts₁.trans (hacts₂.trans (acts_emit h (fun _ => rfl) fun _ => .inr ?_))
    rw [hlen, hdests]
    exact ht.call.symbol hp (hroot c rfl) (hacts₂.symbols.names hname)
  · obtain ⟨⟨code, args⟩, b₁, hentered, h⟩ := Builds.bind_iff.mp h
    obtain ⟨hacts, r, hr⟩ := acts_entered (w := w) (D := D) hentered
    cases hr
    exact hacts.trans (acts_emit h (fun _ => rfl) fun _ => trivial)
  · exact (acts_compute hp ht h).1

end Tails

/-! ### Jumps -/

/-- How operands are copied to the parameters of a block that is a part of the function, and the path
ends with a jump to it. -/
inductive Lands (cx : Setting) (target : DefnId) (args : List Reg) (node : Node) (b b' : Builder) : Prop
  | mk {k : Block} {params copies : List Reg} {b₁ b₂ b₃ b₄ : Builder}
      (hblock : cx.program.block target = .ok k)
      (hparams : Builds cx (k.params.mapM regOf) b params b₁)
      (hlen : params.length = args.length)
      (hcopies : Builds cx (freshRegs args.length) b₁ copies b₂)
      (hout : Builds cx ((args.zip copies).forM fun (a, r) => move a r) b₂ () b₃)
      (hin : Builds cx ((copies.zip params).forM fun (r, p) => move r p) b₃ () b₄)
      (hend : Builds cx (terminate (.nop node)) b₄ () b')

/-- A jump leaves the function, goes to a block that has a node already, or to one that gets a node
for it. -/
inductive Jumps (cx : Setting) (c : BlockCall) (b b' : Builder) : Prop
  | leave {args : List Reg} {name : String} {b₁ b₂ : Builder}
      (hargs : Builds cx (atoms c.args) b args b₁)
      (hnone : b₁.labels.lookup (cx.program.resolve c.block) = none)
      (hroot : cx.program.resolve c.block ∈ cx.roots)
      (hname : Builds cx (symbol (cx.program.resolve c.block)) b₁ name b₂)
      (hend : Builds cx (terminate (.tailcall (.symbol name) args)) b₂ () b')
  | again {args : List Reg} {node : Node} {b₁ : Builder}
      (hargs : Builds cx (atoms c.args) b args b₁)
      (hlabel : b₁.labels.lookup (cx.program.resolve c.block) = some node)
      (hlands : Lands cx (cx.program.resolve c.block) args node b₁ b')
  | new {args : List Reg} {node : Node} {b₁ b₂ : Builder}
      (hargs : Builds cx (atoms c.args) b args b₁)
      (hnone : b₁.labels.lookup (cx.program.resolve c.block) = none)
      (hnew : Builds cx (newLabel (cx.program.resolve c.block)) b₁ node b₂)
      (hlands : Lands cx (cx.program.resolve c.block) args node b₂ b')

section Jumps

variable {cx : Setting} {fields : FieldLayout} {w : Nat} {D : List Node} {b b' : Builder}
  {ρs : List Ty}

theorem jumps_of_builds {c : BlockCall} {u : Unit} (h : Builds cx (jump c) b u b') :
    Jumps cx c b b' := by
  have hlands : ∀ {args : List Reg} {node : Node} {b : Builder}, Builds cx (do
      let k ← block (cx.program.resolve c.block)
      let params ← k.params.mapM regOf
      if params.length ≠ args.length then
        throw (.jumpArity (← symbol (cx.program.resolve c.block)) args.length params.length)
      let copies ← freshRegs args.length
      (args.zip copies).forM fun (a, r) => move a r
      (copies.zip params).forM fun (r, p) => move r p
      terminate (.nop node)) b u b' → Lands cx (cx.program.resolve c.block) args node b b' := by
    intro args node b h
    obtain ⟨k, b₀, hk, hrest⟩ := Builds.bind_iff.mp h
    obtain ⟨hblock, rfl⟩ := Builds.block_iff.mp hk
    obtain ⟨params, b₁, hparams, h⟩ := Builds.bind_iff.mp hrest
    dsimp only at h
    split at h
    · obtain ⟨_, _, _, h⟩ := Builds.bind_iff.mp h
      obtain ⟨_, _, hthrow, -⟩ := Builds.bind_iff.mp h
      exact (Builds.throw_iff hthrow).elim
    · rename_i hlen
      obtain ⟨copies, b₂, hcopies, h⟩ := Builds.bind_iff.mp h
      obtain ⟨_, b₃, hout, h⟩ := Builds.bind_iff.mp h
      obtain ⟨_, b₄, hin, hend⟩ := Builds.bind_iff.mp h
      exact .mk hblock hparams (not_not.mp hlen) hcopies hout hin hend
  unfold jump at h
  rw [Builds.resolve_bind] at h
  obtain ⟨args, b₁, hargs, h⟩ := Builds.bind_iff.mp h
  rw [Builds.label?_bind, Builds.read_bind] at h
  cases hlabel : b₁.labels.lookup (cx.program.resolve c.block) with
  | some node =>
      rw [hlabel] at h
      exact .again hargs hlabel (hlands h)
  | none =>
      rw [hlabel] at h
      split at h
      · rename_i hroot
        obtain ⟨name, b₂, hname, hend⟩ := Builds.bind_iff.mp h
        exact .leave hargs hlabel (of_decide_eq_true hroot) hname hend
      · obtain ⟨node, b₂, hnew, h⟩ := Builds.bind_iff.mp h
        exact .new hargs hlabel hnew (hlands h)

theorem acts_lands {target : DefnId} {args : List Reg} {node : Node}
    (hlabel : b.labels.lookup target = some node) (h : Lands cx target args node b b') :
    Acts (lawful cx w) D b D b' ∧ b'.current = none := by
  obtain ⟨hblock, hparams, hlen, hcopies, hout, hin, hend⟩ := h
  have hacts := (acts_mapM (R := lawful cx w) (D := D) (fun _ _ => acts_regOf) hparams).1
  have hacts := hacts.trans (acts_freshRegs hcopies).1
  have hacts := hacts.trans (acts_forM (fun _ _ => acts_move) hout)
  have hacts := hacts.trans (acts_forM (fun _ _ => acts_move) hin)
  obtain ⟨hnop, hcur⟩ := acts_terminate (R := lawful cx w) (D := D) hend trivial fun s hs =>
    .inr ⟨target, List.mem_singleton.mp hs ▸ hacts.labels hlabel⟩
  exact ⟨hacts.trans hnop, hcur⟩

theorem acts_jump (hp : cx.program.WordLevel fields) {c : BlockCall} {u : Unit}
    (hc : CallOk cx fields c ρs) (h : Builds cx (jump c) b u b') :
    Acts (lawful cx ρs.length) D b D b' ∧ b'.current = none := by
  cases jumps_of_builds h with
  | leave hargs hnone hroot hname hend =>
      rw [hp.resolve hc.reach] at hroot hname
      obtain ⟨hacts₁, hlen⟩ := acts_atoms (w := ρs.length) (D := D) hargs
      obtain ⟨hacts₂, hname⟩ := acts_symbol (R := lawful cx ρs.length) (D := D) hname
      have hsymbol := hc.symbol hp hroot hname
      rw [← hlen] at hsymbol
      obtain ⟨hacts₃, hcur⟩ := acts_terminate (R := lawful cx ρs.length) (D := D) hend hsymbol nofun
      exact ⟨hacts₁.trans (hacts₂.trans hacts₃), hcur⟩
  | again hargs hlabel hlands =>
      obtain ⟨hacts, hcur⟩ := acts_lands (w := ρs.length) (D := D) hlabel hlands
      exact ⟨(acts_atoms hargs).1.trans hacts, hcur⟩
  | new hargs hnone hnew hlands =>
      rw [hp.resolve hc.reach] at hnone hnew hlands
      obtain ⟨rfl, rfl⟩ := Builds.newLabel_iff.mp hnew
      obtain ⟨hacts, hcur⟩ := acts_lands (w := ρs.length) (D := D)
        ((lookup_cons_ite _ _ _ _).trans (if_pos rfl)) hlands
      exact ⟨(acts_atoms hargs).1.trans (.step (.label hnone (hc.joins hp)) hacts), hcur⟩

/-- What neither calls nor enters anything and comes back gives as many words as its type says. -/
theorem TailOk.resultsOf {t : Tail} (ht : TailOk cx fields t ρs)
    (hcall : ∀ c, t = .call c → False) (henter : ∀ fn args, t = .enter fn args → False)
    (hreturns : t.doesntReturn = false) : resultsOf cx.program.store (some t) = ρs.length := by
  cases t with
  | call c => exact (hcall c rfl).elim
  | enter fn args => exact (henter fn args rfl).elim
  | ret args =>
      obtain ⟨_, hτ, hargs⟩ := ht.typed.ret_inv
      cases hτ
      exact length_of_argsHave hargs
  | prim q args inst =>
      rw [BuildM.resultsOf, if_neg (by simpa [Tail.doesntReturn] using hreturns), ht.prim.2.1,
        width_tuple]
  | alloc id args inst =>
      obtain ⟨_, _, _, -, -, -, hτ, -⟩ := ht.typed.alloc_inv
      cases hτ
      rfl
  | data k args inst =>
      obtain ⟨_, -, hτ, -⟩ := ht.typed.data_inv
      cases hτ
      rfl
  | sel k field arg inst =>
      obtain ⟨_, _, -, -, -, -, hτ⟩ := ht.typed.sel_inv
      cases hτ
      rfl

theorem acts_tail (hp : cx.program.WordLevel fields) {t : Tail} {u : Unit}
    (ht : TailOk cx fields t ρs) (h : Builds cx (BuildM.tail (some t)) b u b') :
    Acts (lawful cx ρs.length) D b D b' ∧ b'.current = none := by
  unfold BuildM.tail at h
  split at h
  · rename_i c heq
    cases heq
    exact acts_jump hp ht.call h
  · obtain ⟨⟨code, args⟩, b₁, hentered, h⟩ := Builds.bind_iff.mp h
    obtain ⟨hacts, r, hr⟩ := acts_entered (w := ρs.length) (D := D) hentered
    cases hr
    obtain ⟨hend, hcur⟩ := acts_terminate (R := lawful cx ρs.length) (D := D) h trivial nofun
    exact ⟨hacts.trans hend, hcur⟩
  · rename_i args heq
    cases heq
    obtain ⟨regs, b₁, hregs, h⟩ := Builds.bind_iff.mp h
    obtain ⟨hacts, hlen⟩ := acts_atoms (w := ρs.length) (D := D) hregs
    obtain ⟨τs, hτs, hargs⟩ := ht.typed.ret_inv
    cases hτs
    obtain ⟨hend, hcur⟩ := acts_terminate (R := lawful cx ρs.length) (D := D) h
      (hlen.trans (length_of_argsHave hargs)) nofun
    exact ⟨hacts.trans hend, hcur⟩
  · rename_i hcall henter hret
    rw [Builds.read_bind] at h
    obtain ⟨dests, b₁, hdests, h⟩ := Builds.bind_iff.mp h
    obtain ⟨_, b₂, hcompute, h⟩ := Builds.bind_iff.mp h
    rw [Builds.isOpen_bind] at h
    obtain ⟨hacts₁, hlen⟩ := acts_freshRegs (R := lawful cx ρs.length) (D := D) hdests
    obtain ⟨hacts₂, hends⟩ := acts_compute (w := ρs.length) (D := D) hp ht hcompute
    split at h
    · rename_i hopen
      -- the path is still open, so the tail is none that never comes back
      have hreturns : t.doesntReturn = false := by
        by_contra hdoesnt
        rw [hends (by simpa using hdoesnt)] at hopen
        cases hopen
      have hresults := ht.resultsOf (fun c hc => hcall c (congrArg some hc))
        (fun fn args he => henter fn args (congrArg some he)) hreturns
      obtain ⟨hend, hcur⟩ := acts_terminate (R := lawful cx ρs.length) (D := D) h
        (hlen.trans hresults) nofun
      exact ⟨hacts₁.trans (hacts₂.trans hend), hcur⟩
    · rename_i hclosed
      obtain ⟨-, rfl⟩ := Builds.pure_iff.mp h
      exact ⟨hacts₁.trans hacts₂, by simpa using hclosed⟩

theorem acts_otherwise (hp : cx.program.WordLevel fields) {default : Option BlockCall} {u : Unit}
    (hdefault : ∀ c, default = some c → CallOk cx fields c ρs)
    (h : Builds cx (otherwise default) b u b') :
    Acts (lawful cx ρs.length) D b D b' ∧ b'.current = none := by
  cases default with
  | some c => exact acts_jump hp (hdefault c rfl) h
  | none => exact acts_terminate h trivial nofun

end Jumps

/-! ### Bodies -/

/-- How a branch on a constructor is placed: nodes are taken for the alternatives, and one for the
rest if some constructor has none; then each gets its jump. -/
inductive Chooses (cx : Setting) (scrut : Atom) (alts : List (Cfun × BlockCall))
    (default : Option BlockCall) (b b' : Builder) : Prop
  | rest {value : Reg} {b₁ : Builder} (hnil : alts = [])
      (hvalue : Builds cx (BuildM.atom scrut) b value b₁)
      (hrest : Builds cx (otherwise default) b₁ () b')
  | split {first : Cfun} {call : BlockCall} {others : List (Cfun × BlockCall)} {count : Nat}
      {value : Reg} {placed : List (Node × BlockCall)} {targets : List (Nat × Node)}
      {rest : Option Node} {b₁ b₂ b₃ b₄ b₅ b₆ : Builder} (hcons : alts = (first, call) :: others)
      (hcount : count = (cx.program.env.cfunsOf first.data).length)
      (hvalue : Builds cx (BuildM.atom scrut) b value b₁)
      (hload : Builds cx (loadWord value 0 b₁.nextReg) { b₁ with nextReg := b₁.nextReg + 1 } () b₂)
      (hplace : Builds cx (placeAlts count alts []) b₂ (placed, targets) b₃)
      (hrest : ((∀ t < count, (targets.lookup t).isSome) ∧ rest = none ∧ b₄ = b₃) ∨
        (rest = some b₃.nextNode ∧ b₄ = { b₃ with nextNode := b₃.nextNode + 1 }))
      (hjump : Builds cx (terminate (.jump b₁.nextReg ((List.range count).map fun t =>
        (targets.lookup t).getD (rest.getD 0)))) b₄ () b₅)
      (halts : Builds cx (placed.forM fun (n, c) => do startAt n; jump c) b₅ () b₆)
      (hother : (rest = none ∧ b' = b₆) ∨ ∃ n, rest = some n ∧
        Builds cx (otherwise default) { b₆ with current := some n } () b')

/-- A body of word-level code. Blocks whose results it binds are functions. -/
structure CodeOk (cx : Setting) (fields : FieldLayout) (c : Code) (ρs : List Ty) : Prop where
  typed : CodeHas (cx.program.wordContext fields) c (.tuple ρs)
  refs : ∀ r ∈ c.refs, r ∈ cx.program.reachable
  bound : ∀ r ∈ Roots.bound c, r ∈ cx.roots
  prims : ∀ t ∈ tails c, ∀ name ∈ primNames t, cx.program.UserPrim name

section Bodies

variable {cx : Setting} {fields : FieldLayout} {w : Nat} {D : List Node} {b b' : Builder}
  {ρs : List Ty}

theorem chooses_of_builds {scrut : Atom} {alts : List (Cfun × BlockCall)}
    {default : Option BlockCall} {u : Unit} (h : Builds cx (choose scrut alts default) b u b') :
    Chooses cx scrut alts default b b' := by
  obtain ⟨value, b₁, hvalue, h⟩ := Builds.bind_iff.mp h
  cases alts with
  | nil => exact .rest rfl hvalue h
  | cons alt others =>
      obtain ⟨first, call⟩ := alt
      rw [Builds.read_bind] at h
      dsimp only at h
      rw [Builds.freshReg_bind] at h
      obtain ⟨_, b₂, hload, h⟩ := Builds.bind_iff.mp h
      obtain ⟨⟨placed, targets⟩, b₃, hplace, h⟩ := Builds.bind_iff.mp h
      dsimp only at h
      split at h
      · rename_i hall
        rw [pure_bind] at h
        obtain ⟨_, b₅, hjump, h⟩ := Builds.bind_iff.mp h
        obtain ⟨_, b₆, halts, h⟩ := Builds.bind_iff.mp h
        refine .split rfl rfl hvalue hload hplace (.inl ⟨fun t ht => ?_, rfl, rfl⟩) hjump halts
          (.inl ⟨rfl, (Builds.pure_iff.mp h).2⟩)
        exact List.all_eq_true.mp hall t (List.mem_range.mpr ht)
      · obtain ⟨rest, b₄, hrest, h⟩ := Builds.bind_iff.mp h
        obtain ⟨n, hn, rfl⟩ := Builds.map_iff.mp hrest
        obtain ⟨rfl, rfl⟩ := Builds.freshNode_iff.mp hn
        obtain ⟨_, b₅, hjump, h⟩ := Builds.bind_iff.mp h
        obtain ⟨_, b₆, halts, h⟩ := Builds.bind_iff.mp h
        rw [Builds.startAt_bind] at h
        exact .split rfl rfl hvalue hload hplace (.inr ⟨rfl, rfl⟩) hjump halts
          (.inr ⟨_, rfl, h⟩)

/-- The nodes that were taken for alternatives are held, the last one first. -/
theorem acts_placeAlts {R : Rules} {count : Nat} {alts : List (Cfun × BlockCall)}
    {targets : List (Nat × Node)} {r : List (Node × BlockCall) × List (Nat × Node)}
    (h : Builds cx (placeAlts count alts targets) b r b') :
    Acts R D b ((r.1.map Prod.fst).reverse ++ D) b' ∧ (∀ q ∈ r.1, ∃ k, (k, q.2) ∈ alts) ∧
      ∀ {t n}, r.2.lookup t = some n → targets.lookup t = some n ∨ n ∈ r.1.map Prod.fst := by
  induction alts generalizing b targets r D with
  | nil =>
      obtain ⟨rfl, rfl⟩ := Builds.pure_iff.mp h
      exact ⟨.refl, nofun, fun h => .inl h⟩
  | cons alt alts ih =>
      obtain ⟨k, c⟩ := alt
      unfold placeAlts at h
      split at h
      · obtain ⟨hacts, hcalls, htargets⟩ := ih h
        exact ⟨hacts, fun q hq => (hcalls q hq).imp fun _ hk => .tail _ hk, htargets⟩
      · rw [Builds.freshNode_bind] at h
        obtain ⟨⟨placed, found⟩, b₁, hrest, h⟩ := Builds.bind_iff.mp h
        obtain ⟨rfl, rfl⟩ := Builds.pure_iff.mp h
        obtain ⟨hacts, hcalls, htargets⟩ := ih (D := b.nextNode :: D) hrest
        refine ⟨.step .node ?_, fun q hq => ?_, fun {t n} hn => ?_⟩
        · rw [List.map_cons, List.reverse_cons, List.append_assoc]
          exact hacts
        · rcases List.mem_cons.mp hq with rfl | hq
          · exact ⟨k, .head _⟩
          · exact (hcalls q hq).imp fun _ hk => .tail _ hk
        · rcases htargets hn with hn | hn
          · rw [List.lookup_append] at hn
            cases hold : targets.lookup t with
            | some m =>
                rw [hold] at hn
                exact .inl hn
            | none =>
                rw [hold, Option.none_or] at hn
                rcases lookup_cons_eq_some hn with ⟨-, rfl⟩ | hn
                · exact .inr (.head _)
                · cases hn
          · exact .inr (.tail _ hn)

theorem current_placeAlts {count : Nat} {alts : List (Cfun × BlockCall)}
    {targets : List (Nat × Node)} {r : List (Node × BlockCall) × List (Nat × Node)}
    (h : Builds cx (placeAlts count alts targets) b r b') : b'.current = b.current := by
  induction alts generalizing b targets r with
  | nil =>
      obtain ⟨-, rfl⟩ := Builds.pure_iff.mp h
      rfl
  | cons alt alts ih =>
      unfold placeAlts at h
      split at h
      · exact ih h
      · rw [Builds.freshNode_bind] at h
        obtain ⟨⟨placed, found⟩, b₁, hrest, h⟩ := Builds.bind_iff.mp h
        obtain ⟨-, rfl⟩ := Builds.pure_iff.mp h
        have hcur := ih hrest
        exact hcur

/-- Every alternative that has a node gets its jump. -/
theorem acts_alts (hp : cx.program.WordLevel fields) {placed : List (Node × BlockCall)} {u : Unit}
    (hcalls : ∀ q ∈ placed, CallOk cx fields q.2 ρs) (hcur : b.current = none)
    (h : Builds cx (placed.forM fun (n, c) => do startAt n; jump c) b u b') :
    Acts (lawful cx ρs.length) (placed.map Prod.fst ++ D) b D b' ∧ b'.current = none := by
  induction placed generalizing b with
  | nil =>
      rw [Builds.forM_nil_iff.mp h]
      exact ⟨.refl, hcur⟩
  | cons q placed ih =>
      obtain ⟨b₁, hjump, h⟩ := Builds.forM_cons_iff.mp h
      dsimp only at hjump
      rw [Builds.startAt_bind] at hjump
      obtain ⟨hacts₁, hcur₁⟩ := acts_jump (D := placed.map Prod.fst ++ D) hp (hcalls q (.head _)) hjump
      obtain ⟨hacts₂, hcur₂⟩ := ih (fun q hq => hcalls q (.tail _ hq)) hcur₁ h
      exact ⟨.step (.start hcur) (hacts₁.trans hacts₂), hcur₂⟩

/-- The jump of an alternative is placed at its node. -/
theorem exists_alt (hp : cx.program.WordLevel fields) {placed : List (Node × BlockCall)}
    (hcalls : ∀ q ∈ placed, CallOk cx fields q.2 ρs)
    (hb : b.Sound (lawful cx ρs.length) (placed.map Prod.fst ++ D)) (hcur : b.current = none)
    (h : Builds cx (placed.forM fun (n, c) => do startAt n; jump c) b () b') {q : Node × BlockCall}
    (hq : q ∈ placed) : ∃ b₁ b₂ D', b₁.Sound (lawful cx ρs.length) D' ∧ b₁.current = some q.1 ∧
      Builds cx (jump q.2) b₁ () b₂ ∧ b₂.Le b' := by
  induction placed generalizing b with
  | nil => cases hq
  | cons q' placed ih =>
      obtain ⟨b₁, hjump, h⟩ := Builds.forM_cons_iff.mp h
      dsimp only at hjump
      rw [Builds.startAt_bind] at hjump
      obtain ⟨hb₀, -⟩ := Act.sound hb (.start hcur)
      obtain ⟨hacts, hcur₁⟩ := acts_jump (D := placed.map Prod.fst ++ D) hp (hcalls q' (.head _)) hjump
      obtain ⟨hb₁, -⟩ := hacts.sound hb₀
      have hrest := fun q hq => hcalls q (.tail _ hq)
      obtain ⟨-, hle⟩ := (acts_alts (D := D) hp hrest hcur₁ h).1.sound hb₁
      rcases List.mem_cons.mp hq with rfl | hq
      · exact ⟨_, b₁, _, hb₀, rfl, hjump, hle⟩
      · exact ih hrest hb₁ hcur₁ h hq

/-- A branch on a constructor: the table is placed, then the jumps of the alternatives, then the rest. -/
theorem sound_split (hp : cx.program.WordLevel fields) {alts : List (Cfun × BlockCall)}
    {default : Option BlockCall} (hcalls : ∀ alt ∈ alts, CallOk cx fields alt.2 ρs)
    (hdefault : ∀ c, default = some c → CallOk cx fields c ρs) {count : Nat} {r : Reg}
    {placed : List (Node × BlockCall)} {targets : List (Nat × Node)} {rest : Option Node}
    {b₂ b₃ b₄ b₅ b₆ b' : Builder} (hb : b₂.Sound (lawful cx ρs.length) D)
    (hplace : Builds cx (placeAlts count alts []) b₂ (placed, targets) b₃)
    (hrest : ((∀ t < count, (targets.lookup t).isSome) ∧ rest = none ∧ b₄ = b₃) ∨
      (rest = some b₃.nextNode ∧ b₄ = { b₃ with nextNode := b₃.nextNode + 1 }))
    (hjump : Builds cx (terminate (.jump r ((List.range count).map fun t =>
      (targets.lookup t).getD (rest.getD 0)))) b₄ () b₅)
    (halts : Builds cx (placed.forM fun (n, c) => do startAt n; jump c) b₅ () b₆)
    (hother : (rest = none ∧ b' = b₆) ∨ ∃ n, rest = some n ∧
      Builds cx (otherwise default) { b₆ with current := some n } () b') :
    (∀ q ∈ placed, CallOk cx fields q.2 ρs) ∧ b₄.current = b₂.current ∧ b₂.Le b₅ ∧
      b₅.Sound (lawful cx ρs.length) (placed.map Prod.fst ++ (rest.toList ++ D)) ∧ b₅.current = none ∧
      b₅.Le b₆ ∧ b₆.Sound (lawful cx ρs.length) (rest.toList ++ D) ∧ b₆.current = none ∧ b₆.Le b' := by
  obtain ⟨hacts₃, hplaced, htargets⟩ := acts_placeAlts (R := lawful cx ρs.length) (D := D) hplace
  have hcalls' : ∀ q ∈ placed, CallOk cx fields q.2 ρs := fun q hq => by
    obtain ⟨k, hk⟩ := hplaced q hq
    exact hcalls _ hk
  have hacts₄ : Acts (lawful cx ρs.length) ((placed.map Prod.fst).reverse ++ D) b₃
      (rest.toList ++ ((placed.map Prod.fst).reverse ++ D)) b₄ := by
    rcases hrest with ⟨-, rfl, rfl⟩ | ⟨rfl, rfl⟩
    · exact .refl
    · exact .of .node
  obtain ⟨hacts₅, hcur₅⟩ := acts_terminate (R := lawful cx ρs.length)
    (D := rest.toList ++ ((placed.map Prod.fst).reverse ++ D)) hjump trivial fun s hs => by
      obtain ⟨t, ht, rfl⟩ := List.mem_map.mp hs
      refine .inl ?_
      cases hn : targets.lookup t with
      | some node =>
          have hmem := (htargets hn).resolve_left nofun
          exact List.mem_append_right _ (List.mem_append_left _ (List.mem_reverse.mpr hmem))
      | none =>
          rcases hrest with ⟨hall, -, -⟩ | ⟨rfl, -⟩
          · have := hall t (List.mem_range.mp ht)
            rw [hn] at this
            cases this
          · exact .head _
  have hback : (rest.toList ++ ((placed.map Prod.fst).reverse ++ D)).Perm
      (placed.map Prod.fst ++ (rest.toList ++ D)) :=
    (List.perm_append_comm_assoc _ _ _).trans ((List.reverse_perm _).append_right _)
  obtain ⟨hacts₆, hcur₆⟩ := acts_alts (D := rest.toList ++ D) hp hcalls' hcur₅ halts
  obtain ⟨hb₅, hle₅⟩ := (hacts₃.trans (hacts₄.trans (hacts₅.trans (.of (.perm hback))))).sound hb
  obtain ⟨hb₆, hle₆⟩ := hacts₆.sound hb₅
  have hother' : b₆.Le b' := by
    rcases hother with ⟨-, rfl⟩ | ⟨node, rfl, hother⟩
    · exact .refl _
    · obtain ⟨hb₆', hle⟩ := Act.sound hb₆ (.start hcur₆)
      exact hle.trans ((acts_otherwise (D := D) hp hdefault hother).1.sound hb₆').2
  have hcur₄ : b₄.current = b₂.current := by
    rw [← current_placeAlts hplace]
    rcases hrest with ⟨-, -, rfl⟩ | ⟨-, rfl⟩ <;> rfl
  exact ⟨hcalls', hcur₄, hle₅, hb₅, hcur₅, hle₆, hb₆, hcur₆, hother'⟩

theorem acts_choose (hp : cx.program.WordLevel fields) {scrut : Atom}
    {alts : List (Cfun × BlockCall)} {default : Option BlockCall} {u : Unit}
    (hcalls : ∀ alt ∈ alts, CallOk cx fields alt.2 ρs)
    (hdefault : ∀ c, default = some c → CallOk cx fields c ρs)
    (h : Builds cx (choose scrut alts default) b u b') :
    Acts (lawful cx ρs.length) D b D b' ∧ b'.current = none := by
  cases chooses_of_builds h with
  | rest hnil hvalue hrest =>
      obtain ⟨hacts, hcur⟩ := acts_otherwise (D := D) hp hdefault hrest
      exact ⟨(acts_atom hvalue).trans hacts, hcur⟩
  | @split first call others count value placed targets rest b₁ b₂ b₃ b₄ b₅ b₆ hcons hcount hvalue
      hload hplace hrest hjump halts hother =>
      have hacts₁ := (acts_atom (w := ρs.length) (D := D) hvalue).trans
        (.step .reg (acts_loadWord hload))
      obtain ⟨hacts₂, hplaced, htargets⟩ := acts_placeAlts (R := lawful cx ρs.length) (D := D) hplace
      have hcalls' : ∀ q ∈ placed, CallOk cx fields q.2 ρs := fun q hq => by
        obtain ⟨k, hk⟩ := hplaced q hq
        exact hcalls _ hk
      have hheld : ∀ {t n}, targets.lookup t = some n → n ∈ placed.map Prod.fst := fun hn =>
        (htargets hn).resolve_left nofun
      have hback : ((placed.map Prod.fst).reverse ++ D).Perm (placed.map Prod.fst ++ D) :=
        (List.reverse_perm _).append_right D
      rcases hrest with ⟨hall, rfl, rfl⟩ | ⟨rfl, rfl⟩
      · obtain ⟨hacts₃, hcur₃⟩ := acts_terminate (R := lawful cx ρs.length)
          (D := (placed.map Prod.fst).reverse ++ D) hjump trivial fun s hs => by
            obtain ⟨t, ht, rfl⟩ := List.mem_map.mp hs
            obtain ⟨n, hn⟩ := Option.isSome_iff_exists.mp (hall t (List.mem_range.mp ht))
            rw [hn]
            exact .inl (List.mem_append_left _ (List.mem_reverse.mpr (hheld hn)))
        obtain ⟨hacts₄, hcur₄⟩ := acts_alts (D := D) hp hcalls' hcur₃ halts
        rcases hother with ⟨-, rfl⟩ | ⟨n, hn, -⟩
        · exact ⟨hacts₁.trans (hacts₂.trans (hacts₃.trans (.step (.perm hback) hacts₄))), hcur₄⟩
        · cases hn
      · obtain ⟨hacts₃, hcur₃⟩ := acts_terminate (R := lawful cx ρs.length)
          (D := b₃.nextNode :: ((placed.map Prod.fst).reverse ++ D)) hjump trivial fun s hs => by
            obtain ⟨t, -, rfl⟩ := List.mem_map.mp hs
            cases hn : targets.lookup t with
            | some n => exact .inl (.tail _ (List.mem_append_left _ (List.mem_reverse.mpr (hheld hn))))
            | none => exact .inl (.head _)
        obtain ⟨hacts₄, hcur₄⟩ := acts_alts (D := b₃.nextNode :: D) hp hcalls' hcur₃ halts
        rcases hother with ⟨hn, -⟩ | ⟨n, hn, hother⟩
        · cases hn
        · cases hn
          obtain ⟨hacts₅, hcur₅⟩ := acts_otherwise (D := D) hp hdefault hother
          have hheld₃ : (b₃.nextNode :: ((placed.map Prod.fst).reverse ++ D)).Perm
              (placed.map Prod.fst ++ b₃.nextNode :: D) :=
            (hback.cons _).trans List.perm_middle.symm
          exact ⟨hacts₁.trans (hacts₂.trans (.step .node (hacts₃.trans (.step (.perm hheld₃)
            (hacts₄.trans (.step (.start hcur₄) hacts₅)))))), hcur₅⟩

/-! The parts of a body of word-level code. -/

theorem CodeOk.tail {t : Tail} (h : CodeOk cx fields (.done t) ρs) : TailOk cx fields t ρs := by
  refine ⟨?_, h.refs, h.prims t (.head _)⟩
  cases h.typed with
  | done ht => exact ht

theorem CodeOk.bind {vars : List Temp} {t : Tail} {next : Code}
    (h : CodeOk cx fields (.bind vars t next) ρs) :
    (∃ τs, TailOk cx fields t τs ∧ ArgsHave (cx.program.wordContext fields) (vars.map .temp) τs) ∧
      (∀ c, t = .call c → c.block ∈ cx.roots) ∧ CodeOk cx fields next ρs := by
  have hrefs : (∀ r ∈ t.refs, r ∈ cx.program.reachable) ∧ ∀ r ∈ next.refs, r ∈ cx.program.reachable :=
    List.forall_mem_append.mp h.refs
  have hprims := List.forall_mem_cons.mp h.prims
  have hbound : (∀ c, t = .call c → c.block ∈ cx.roots) ∧ ∀ r ∈ Roots.bound next, r ∈ cx.roots := by
    refine ⟨fun c hc => ?_, fun r hr => ?_⟩
    · cases hc
      exact h.bound _ (.head _)
    · refine h.bound r ?_
      unfold Roots.bound
      split
      · rename_i heq
        cases heq
        exact .tail _ hr
      · rename_i heq
        cases heq
        exact hr
      · rename_i hne
        exact absurd rfl (hne _ _ _)
  cases h.typed with
  | bind ht hvars hnext =>
      exact ⟨⟨_, ⟨ht, hrefs.1, hprims.1⟩, hvars⟩, hbound.1, hnext, hrefs.2, hbound.2, hprims.2⟩

theorem CodeOk.branch {cond : Atom} {c d : BlockCall} (h : CodeOk cx fields (.branch cond c d) ρs) :
    CallOk cx fields c ρs ∧ CallOk cx fields d ρs := by
  have hc : c.block ∈ cx.program.reachable := h.refs _ (by simp [Code.refs, Tail.refs, Tail.target?])
  have hd : d.block ∈ cx.program.reachable := h.refs _ (by simp [Code.refs, Tail.refs, Tail.target?])
  cases h.typed with
  | branch hcond ht hf => exact ⟨⟨ht, hc⟩, ⟨hf, hd⟩⟩

theorem CodeOk.case {scrut : Atom} {alts : List (Cfun × BlockCall)} {default : Option BlockCall}
    (h : CodeOk cx fields (.case scrut alts default) ρs) :
    (∀ alt ∈ alts, CallOk cx fields alt.2 ρs) ∧ ∀ c, default = some c → CallOk cx fields c ρs := by
  have hreach : ∀ c ∈ (Code.case scrut alts default).calls, c.block ∈ cx.program.reachable := by
    intro c hc
    refine h.refs _ (List.mem_append_right _ (List.mem_flatMap.mpr ⟨c, hc, ?_⟩))
    exact List.mem_append_right _ (.head _)
  cases h.typed with
  | case hscrut halts hdefault =>
      refine ⟨fun alt halt => ⟨(halts alt halt).2, hreach _ ?_⟩, fun c hc => ⟨hdefault c hc, hreach c ?_⟩⟩
      · exact List.mem_append_left _ (List.mem_map_of_mem halt)
      · exact List.mem_append_right _ (hc ▸ .head _)

/-- A body is placed by lawful actions, and ends all its paths. -/
theorem acts_code (hp : cx.program.WordLevel fields) {c : Code} {u : Unit}
    (hc : CodeOk cx fields c ρs) (h : Builds cx (code c) b u b') :
    Acts (lawful cx ρs.length) D b D b' ∧ b'.current = none := by
  induction c generalizing b with
  | bind vars t next ih =>
      obtain ⟨⟨τs, ht, hvars⟩, hroot, hnext⟩ := hc.bind
      obtain ⟨dests, b₁, hdests, h⟩ := Builds.bind_iff.mp h
      obtain ⟨_, b₂, hbind, h⟩ := Builds.bind_iff.mp h
      rw [Builds.isOpen_bind] at h
      obtain ⟨hacts₁, hlen⟩ := acts_mapM (R := lawful cx ρs.length) (D := D) (fun _ _ => acts_regOf) hdests
      have hvars := length_of_argsHave hvars
      rw [List.length_map] at hvars
      have hacts₂ := acts_bind (w := ρs.length) (D := D) hp ht hroot (hlen.trans hvars) hbind
      split at h
      · obtain ⟨hacts₃, hcur⟩ := ih hnext h
        exact ⟨hacts₁.trans (hacts₂.trans hacts₃), hcur⟩
      · rename_i hclosed
        obtain ⟨-, rfl⟩ := Builds.pure_iff.mp h
        exact ⟨hacts₁.trans hacts₂, by simpa using hclosed⟩
  | done t => exact acts_tail hp hc.tail h
  | branch cond c d =>
      obtain ⟨hc, hd⟩ := hc.branch
      obtain ⟨r, b₁, hr, h⟩ := Builds.bind_iff.mp h
      rw [Builds.freshNode_bind, Builds.freshNode_bind] at h
      dsimp only at h
      obtain ⟨_, b₂, hbranch, h⟩ := Builds.bind_iff.mp h
      rw [Builds.startAt_bind] at h
      obtain ⟨_, b₃, hjump, h⟩ := Builds.bind_iff.mp h
      rw [Builds.startAt_bind] at h
      have hacts₁ := acts_atom (w := ρs.length) (D := D) hr
      obtain ⟨hacts₂, hcur₂⟩ := acts_terminate (R := lawful cx ρs.length)
        (D := (b₁.nextNode + 1) :: b₁.nextNode :: D) hbranch trivial (by simp [Instr.successors])
      obtain ⟨hacts₃, hcur₃⟩ := acts_jump (D := (b₁.nextNode + 1) :: D) hp hc hjump
      obtain ⟨hacts₄, hcur₄⟩ := acts_jump (D := D) hp hd h
      exact ⟨hacts₁.trans (.step .node (.step .node (hacts₂.trans (.step (.perm (.swap _ _ _))
        (.step (.start hcur₂) (hacts₃.trans (.step (.start hcur₃) hacts₄))))))), hcur₄⟩
  | case scrut alts default =>
      obtain ⟨hcalls, hdefault⟩ := hc.case
      exact acts_choose hp hcalls hdefault h

end Bodies

end Rtl

end Mil
