import Mil.Proofs.Rtl.WellFormed

/-!
The lowering of word-level programs does not fail. Temporaries have registers where they are read,
since they are in scope; the parameters of a block have registers from the time on that it waits in
line; operands fit the parameters that they go to; and every primitive has an instruction. All that can
go wrong is that the words of the machine are of no size that memory is accessed in, or that a primitive
moves more bytes than a word has.
-/

namespace Mil

/-- A tail that accesses no more than some bytes of memory at once. -/
def Tail.Narrow (bytes : Int) : Tail → Prop
  | .prim q _ _ => ∀ a, q.op.access? = some a → a.bytes ≤ bytes
  | _ => True

namespace Rtl

open Typing BuildM

/-! ### Constructions that end well -/

/-- The temporaries in scope have registers, and the blocks that wait in line are blocks that can be
reached, whose parameters have registers. -/
structure Builder.Serves (cx : Setting) (scope : List Temp) (b : Builder) : Prop where
  scope : ∀ t ∈ scope, (b.regs.lookup t).isSome
  pending : ∀ id ∈ b.pending, id ∈ cx.program.reachable ∧ ∃ d k, cx.program.defns[id]? = some d ∧
    d.body = .block k ∧ ∀ v ∈ k.params, (b.regs.lookup v).isSome

/-- From wherever a scope has registers, a construction ends with a value as described, and another scope
has registers then. -/
def Succeeds {α : Type} (cx : Setting) (scope : List Temp) (x : BuildM α) (scope' : List Temp)
    (P : α → Prop) : Prop :=
  ∀ b : Builder, b.Serves cx scope → ∃ a b', Builds cx x b a b' ∧ b'.Serves cx scope' ∧ P a

section Rules

variable {cx : Setting} {scope scope' scope'' : List Temp} {α β : Type} {x : BuildM α} {P : α → Prop}
  {Q : β → Prop} {b b' : Builder}

/-- What has a register keeps one, and more blocks may wait. -/
theorem Builder.Serves.grow (h : b.Serves cx scope)
    (hregs : ∀ t, (b.regs.lookup t).isSome → (b'.regs.lookup t).isSome)
    (hscope : ∀ t ∈ scope', t ∈ scope ∨ (b'.regs.lookup t).isSome)
    (hpending : ∀ id ∈ b'.pending, id ∈ b.pending ∨ id ∈ cx.program.reachable ∧ ∃ d k,
      cx.program.defns[id]? = some d ∧ d.body = .block k ∧ ∀ v ∈ k.params, (b'.regs.lookup v).isSome) :
    b'.Serves cx scope' := by
  refine ⟨fun t ht => (hscope t ht).elim (fun ht => hregs t (h.scope t ht)) id, fun id hid => ?_⟩
  rcases hpending id hid with hid | hid
  · obtain ⟨hreach, d, k, hd, hk, hparams⟩ := h.pending id hid
    exact ⟨hreach, d, k, hd, hk, fun v hv => hregs v (hparams v hv)⟩
  · exact hid

theorem Builder.Serves.weaken (h : b.Serves cx scope) (hsub : scope' ⊆ scope) : b.Serves cx scope' :=
  h.grow (fun _ ht => ht) (fun _ ht => .inl (hsub ht)) fun _ hid => .inl hid

theorem succeeds_of_eq (h : ∀ b, ∃ a b', Builds cx x b a b' ∧ b'.regs = b.regs ∧
    b'.pending = b.pending ∧ P a) : Succeeds cx scope x scope P := fun b hb => by
  obtain ⟨a, b', hx, hregs, hpending, ha⟩ := h b
  exact ⟨a, b', hx, hb.grow (fun t ht => hregs ▸ ht) (fun t ht => .inl ht) (fun id hid => .inl (hpending ▸ hid)), ha⟩

theorem succeeds_pure {a : α} (ha : P a) : Succeeds cx scope (pure a) scope P :=
  fun b hb => ⟨a, b, Builds.pure_iff.mpr ⟨rfl, rfl⟩, hb, ha⟩

theorem Succeeds.bind {f : α → BuildM β} (hx : Succeeds cx scope x scope' P)
    (hf : ∀ a, P a → Succeeds cx scope' (f a) scope'' Q) : Succeeds cx scope (x >>= f) scope'' Q :=
  fun b hb => by
    obtain ⟨a, b₁, hbuilds, hb₁, ha⟩ := hx b hb
    obtain ⟨c, b₂, hbuilds', hb₂, hc⟩ := hf a ha b₁ hb₁
    exact ⟨c, b₂, Builds.bind_iff.mpr ⟨a, b₁, hbuilds, hbuilds'⟩, hb₂, hc⟩

theorem Succeeds.imp (hx : Succeeds cx scope x scope' P) {P' : α → Prop} (h : ∀ a, P a → P' a) :
    Succeeds cx scope x scope' P' := fun b hb => by
  obtain ⟨a, b', hbuilds, hb', ha⟩ := hx b hb
  exact ⟨a, b', hbuilds, hb', h a ha⟩

theorem Succeeds.shrink (hx : Succeeds cx scope x scope' P) (hsub : scope'' ⊆ scope') :
    Succeeds cx scope x scope'' P := fun b hb => by
  obtain ⟨a, b', hbuilds, hb', ha⟩ := hx b hb
  exact ⟨a, b', hbuilds, hb'.weaken hsub, ha⟩

theorem succeeds_get_bind {f : Builder → BuildM β} (h : ∀ b, Succeeds cx scope (f b) scope' Q) :
    Succeeds cx scope (get >>= f) scope' Q := fun b hb => h b b hb

theorem succeeds_read_bind {f : Setting → BuildM β} (h : Succeeds cx scope (f cx) scope' Q) :
    Succeeds cx scope (read >>= f) scope' Q := h

theorem succeeds_resolve_bind {id : DefnId} {f : DefnId → BuildM β}
    (h : Succeeds cx scope (f (cx.program.resolve id)) scope' Q) :
    Succeeds cx scope (resolve id >>= f) scope' Q := h

theorem succeeds_block_bind {id : DefnId} {k : Block} (hk : cx.program.block id = .ok k)
    {f : Block → BuildM β} (h : Succeeds cx scope (f k) scope' Q) :
    Succeeds cx scope (block id >>= f) scope' Q := fun b hb => by
  obtain ⟨c, b', hbuilds, hb', hc⟩ := h b hb
  exact ⟨c, b', Builds.bind_iff.mpr ⟨k, _, Builds.block_iff.mpr ⟨hk, rfl⟩, hbuilds⟩, hb', hc⟩

theorem succeeds_mapM {f : α → BuildM β} {as : List α}
    (hf : ∀ a ∈ as, Succeeds cx scope (f a) scope fun _ => True) :
    Succeeds cx scope (as.mapM f) scope fun bs => bs.length = as.length := by
  induction as with
  | nil => exact succeeds_pure rfl
  | cons a as ih =>
      rw [List.mapM_cons]
      exact (hf a (.head _)).bind fun _ _ => (ih fun a ha => hf a (.tail _ ha)).bind fun _ hlen =>
        succeeds_pure (congrArg Nat.succ hlen)

theorem succeeds_forM {f : α → BuildM Unit} {as : List α}
    (hf : ∀ a ∈ as, Succeeds cx scope (f a) scope fun _ => True) :
    Succeeds cx scope (as.forM f) scope fun _ => True := by
  rw [List.forM_eq_forM]
  induction as with
  | nil => exact succeeds_pure trivial
  | cons a as ih =>
      rw [List.forM_cons]
      exact (hf a (.head _)).bind fun _ _ => ih fun a ha => hf a (.tail _ ha)

end Rules

/-! ### Steps -/

section Steps

variable {cx : Setting} {fields : FieldLayout} {scope scope' : List Temp} {ρs : List Ty}

theorem succeeds_freshNode : Succeeds cx scope freshNode scope fun _ => True :=
  succeeds_of_eq fun _ => ⟨_, _, Builds.freshNode_iff.mpr ⟨rfl, rfl⟩, rfl, rfl, trivial⟩

theorem succeeds_freshReg : Succeeds cx scope freshReg scope fun _ => True :=
  succeeds_of_eq fun _ => ⟨_, _, Builds.freshReg_iff.mpr ⟨rfl, rfl⟩, rfl, rfl, trivial⟩

theorem succeeds_freshRegs (n : Nat) : Succeeds cx scope (freshRegs n) scope fun rs => rs.length = n :=
  (succeeds_mapM fun _ _ => succeeds_freshReg).imp fun _ h => h.trans List.length_range

theorem succeeds_startAt (n : Node) : Succeeds cx scope (startAt n) scope fun _ => True :=
  succeeds_of_eq fun _ => ⟨(), _, Builds.startAt_iff.mpr rfl, rfl, rfl, trivial⟩

theorem succeeds_emit (make : Node → Instr) : Succeeds cx scope (emit make) scope fun _ => True :=
  succeeds_of_eq fun b => by
    cases hcur : b.current with
    | none => exact ⟨(), b, Builds.emit_iff.mpr (.inl ⟨hcur, rfl⟩), rfl, rfl, trivial⟩
    | some n => exact ⟨(), _, Builds.emit_iff.mpr (.inr ⟨n, hcur, rfl⟩), rfl, rfl, trivial⟩

theorem succeeds_terminate (i : Instr) : Succeeds cx scope (terminate i) scope fun _ => True :=
  succeeds_of_eq fun b => by
    cases hcur : b.current with
    | none => exact ⟨(), b, Builds.terminate_iff.mpr (.inl ⟨hcur, rfl⟩), rfl, rfl, trivial⟩
    | some n => exact ⟨(), _, Builds.terminate_iff.mpr (.inr ⟨n, hcur, rfl⟩), rfl, rfl, trivial⟩

theorem succeeds_symbol (id : DefnId) : Succeeds cx scope (symbol id) scope fun _ => True :=
  succeeds_of_eq fun _ => ⟨_, _, Builds.symbol_iff.mpr ⟨rfl, rfl⟩, rfl, rfl, trivial⟩

theorem succeeds_codeSymbol (id : DefnId) : Succeeds cx scope (codeSymbol id) scope fun _ => True :=
  succeeds_of_eq fun _ => ⟨_, _, Builds.codeSymbol_iff.mpr ⟨rfl, rfl⟩, rfl, rfl, trivial⟩

theorem succeeds_reserve (name : String) : Succeeds cx scope (reserve name) scope fun _ => True :=
  succeeds_of_eq fun _ => ⟨_, _, Builds.modifyGet_iff.mpr rfl, rfl, rfl, trivial⟩

theorem succeeds_isOpen_bind {β : Type} {f : Bool → BuildM β} {Q : β → Prop}
    (h : ∀ o, Succeeds cx scope (f o) scope' Q) : Succeeds cx scope (isOpen >>= f) scope' Q :=
  fun b hb => h _ b hb

theorem succeeds_label?_bind {β : Type} {id : DefnId} {f : Option Node → BuildM β} {Q : β → Prop}
    (h : ∀ label, Succeeds cx scope (f label) scope' Q) :
    Succeeds cx scope (label? id >>= f) scope' Q :=
  fun b hb => h _ b hb

theorem succeeds_boundReg {t : Temp} (ht : t ∈ scope) :
    Succeeds cx scope (boundReg t) scope fun _ => True := fun b hb => by
  obtain ⟨r, hr⟩ := Option.isSome_iff_exists.mp (hb.scope t ht)
  exact ⟨r, b, Builds.boundReg_iff.mpr ⟨hr, rfl⟩, hb, trivial⟩

/-- What a binding of temporaries leaves: they have registers, and nothing else is lost or waits. -/
structure Bound (vars : List Temp) (b b' : Builder) : Prop where
  pending : b'.pending = b.pending
  kept : ∀ t, (b.regs.lookup t).isSome → (b'.regs.lookup t).isSome
  bound : ∀ v ∈ vars, (b'.regs.lookup v).isSome

theorem exists_regOf (cx : Setting) (v : Temp) (b : Builder) :
    ∃ r b', Builds cx (regOf v) b r b' ∧ Bound [v] b b' := by
  cases hr : b.regs.lookup v with
  | some r =>
      refine ⟨r, b, Builds.regOf_iff.mpr (.inl ⟨hr, rfl⟩), rfl, fun _ h => h, fun w hw => ?_⟩
      rw [List.mem_singleton.mp hw, hr]
      rfl
  | none =>
      refine ⟨_, _, Builds.regOf_iff.mpr (.inr ⟨hr, rfl, rfl⟩), rfl, fun t ht => ?_, fun w hw => ?_⟩
      · obtain ⟨r, ht⟩ := Option.isSome_iff_exists.mp ht
        exact Option.isSome_iff_exists.mpr ⟨r, lookup_cons_of_none hr ht⟩
      · rw [List.mem_singleton.mp hw]
        exact Option.isSome_iff_exists.mpr ⟨_, (lookup_cons_ite v v _ _).trans (if_pos rfl)⟩

theorem exists_regOfs (cx : Setting) (vars : List Temp) (b : Builder) :
    ∃ rs b', Builds cx (vars.mapM regOf) b rs b' ∧ rs.length = vars.length ∧ Bound vars b b' := by
  induction vars generalizing b with
  | nil => exact ⟨[], b, Builds.mapM_nil_iff.mpr ⟨rfl, rfl⟩, rfl, rfl, fun _ h => h, nofun⟩
  | cons v vars ih =>
      obtain ⟨r, b₁, hbuilds, hbound⟩ := exists_regOf cx v b
      obtain ⟨rs, b₂, hbuilds', hlen, hbound'⟩ := ih b₁
      refine ⟨r :: rs, b₂, Builds.mapM_cons_iff.mpr ⟨r, rs, b₁, hbuilds, hbuilds', rfl⟩,
        congrArg Nat.succ hlen, hbound'.pending.trans hbound.pending,
        fun t ht => hbound'.kept t (hbound.kept t ht), fun w hw => ?_⟩
      rcases List.mem_cons.mp hw with rfl | hw
      · exact hbound'.kept w (hbound.bound w (.head _))
      · exact hbound'.bound w hw

theorem Builder.Serves.bound {vars : List Temp} {b b' : Builder} (hb : b.Serves cx scope)
    (h : Bound vars b b') : b'.Serves cx (vars ++ scope) :=
  hb.grow h.kept (fun t ht => (List.mem_append.mp ht).symm.imp_right (h.bound t))
    fun _ hid => .inl (h.pending ▸ hid)

theorem succeeds_regOf (v : Temp) : Succeeds cx scope (regOf v) (v :: scope) fun _ => True := fun b hb => by
  obtain ⟨r, b', hbuilds, hbound⟩ := exists_regOf cx v b
  exact ⟨r, b', hbuilds, hb.bound hbound, trivial⟩

theorem succeeds_regOfs (vars : List Temp) : Succeeds cx scope (vars.mapM regOf) (vars ++ scope)
    fun rs => rs.length = vars.length := fun b hb => by
  obtain ⟨rs, b', hbuilds, hlen, hbound⟩ := exists_regOfs cx vars b
  exact ⟨rs, b', hbuilds, hb.bound hbound, hlen⟩

/-! ### Operands -/

/-- An operand that is in scope or refers to what can be reached. -/
def Atom.Available (cx : Setting) (scope : List Temp) (a : Atom) : Prop :=
  (∀ t, a = .temp t → t ∈ scope) ∧ ∀ id, a.defn? = some id → id ∈ cx.program.reachable

theorem available_of_tail {t : Tail} (ht : TailOk cx fields t ρs) (hscope : InScope scope t.atoms) :
    ∀ a ∈ t.atoms, Atom.Available cx scope a := fun a ha =>
  ⟨fun v hv => hscope v (hv ▸ ha), fun _ hid =>
    ht.refs _ (List.mem_append_left _ (List.mem_filterMap.mpr ⟨a, ha, hid⟩))⟩

theorem succeeds_const (n : Int) : Succeeds cx scope (const n) scope fun _ => True :=
  succeeds_freshReg.bind fun _ _ => (succeeds_emit _).bind fun _ _ => succeeds_pure trivial

theorem succeeds_move (src dest : Reg) : Succeeds cx scope (move src dest) scope fun _ => True :=
  succeeds_emit _

theorem succeeds_loadWord (record : Reg) (index : Int) (dest : Reg) :
    Succeeds cx scope (loadWord record index dest) scope fun _ => True :=
  succeeds_read_bind (succeeds_emit _)

theorem succeeds_storeWord (record : Reg) (index : Int) (src : Reg) :
    Succeeds cx scope (storeWord record index src) scope fun _ => True :=
  succeeds_read_bind (succeeds_emit _)

theorem succeeds_topAddress (hp : cx.program.WordLevel fields) {id : DefnId}
    (hid : id ∈ cx.program.reachable) (index : Nat) :
    Succeeds cx scope (topAddress id index) scope fun _ => True := by
  obtain ⟨d, hd⟩ : ∃ d, cx.program.defns[id]? = some d :=
    ⟨_, Array.getElem?_eq_getElem (Program.lt_of_reachable hid)⟩
  have hdefn : cx.program.defn id = .ok d := by
    unfold Program.defn
    rw [hd]
  refine succeeds_read_bind ?_
  dsimp only
  refine succeeds_read_bind ?_
  rw [hp.resolve hid, hdefn]
  dsimp only
  split
  · split
    · exact succeeds_pure trivial
    · exact (succeeds_symbol _).bind fun _ _ => succeeds_pure trivial
  · exact (succeeds_symbol _).bind fun _ _ => succeeds_pure trivial

theorem succeeds_atom (hp : cx.program.WordLevel fields) {a : Atom} (ha : Atom.Available cx scope a) :
    Succeeds cx scope (atom a) scope fun _ => True := by
  unfold BuildM.atom
  split
  · exact succeeds_boundReg (ha.1 _ rfl)
  · exact succeeds_read_bind (succeeds_const _)
  · exact succeeds_const _
  · exact succeeds_freshReg.bind fun _ _ => (succeeds_topAddress hp (ha.2 _ rfl) _).bind fun _ _ =>
      succeeds_read_bind ((succeeds_emit _).bind fun _ _ => succeeds_pure trivial)

theorem succeeds_atoms (hp : cx.program.WordLevel fields) {as : List Atom}
    (has : ∀ a ∈ as, Atom.Available cx scope a) :
    Succeeds cx scope (atoms as) scope fun rs => rs.length = as.length :=
  succeeds_mapM fun a ha => succeeds_atom hp (has a ha)

theorem succeeds_firstDest (dests : List Reg) :
    Succeeds cx scope (firstDest dests) scope fun _ => True := by
  cases dests with
  | nil => exact succeeds_freshReg
  | cons => exact succeeds_pure trivial

theorem succeeds_record (hp : cx.program.WordLevel fields) {head : BuildM Reg} {args : List Atom}
    (hhead : Succeeds cx scope head scope fun _ => True) (hargs : ∀ a ∈ args, Atom.Available cx scope a)
    (dests : List Reg) : Succeeds cx scope (record head args dests) scope fun _ => True :=
  (succeeds_atoms hp hargs).bind fun _ _ => (succeeds_firstDest _).bind fun _ _ =>
    (succeeds_emit _).bind fun _ _ => hhead.bind fun _ _ => (succeeds_storeWord _ _ _).bind fun _ _ =>
      succeeds_forM fun _ _ => succeeds_storeWord _ _ _

/-! ### Tails -/

theorem succeeds_checkDivisor (y : Reg) : Succeeds cx scope (checkDivisor y) scope fun _ => True :=
  succeeds_freshNode.bind fun _ _ => succeeds_freshNode.bind fun _ _ =>
    (succeeds_terminate _).bind fun _ _ => (succeeds_startAt _).bind fun _ _ =>
      (succeeds_terminate _).bind fun _ _ => succeeds_startAt _

theorem succeeds_access {name : String} {a : MemAccess} (ha : a.bytes ≤ cx.wordBytes)
    (args dests : List Reg) : Succeeds cx scope (access name a args dests) scope fun _ => True := by
  refine succeeds_read_bind ?_
  rw [if_neg (not_lt.mpr ha)]
  split
  · exact succeeds_emit _
  · exact (succeeds_firstDest _).bind fun _ _ => succeeds_emit _
  · exact succeeds_pure trivial

/-- Every primitive that is not placed otherwise has an operation or accesses memory. -/
theorem operation_or_access (op : PrimOp) (huser : op ≠ .user) (hhalt : op ≠ .halt)
    (hloop : op ≠ .loop) (hprint : op ≠ .printWord) :
    op.access?.isSome ∨ (Operation.ofPrim? op).isSome := by
  revert huser hhalt hloop hprint
  cases op <;> decide

theorem succeeds_primOperation {q : Prim} (hq : Tail.Narrow cx.wordBytes (.prim q [] none))
    (hop : q.op.access?.isSome ∨ (Operation.ofPrim? q.op).isSome) (args dests : List Reg) :
    Succeeds cx scope (primOperation q args dests) scope fun _ => True := by
  unfold primOperation
  split
  · exact succeeds_access (hq _ ‹_›) _ _
  · rename_i hnone
    obtain ⟨o, ho⟩ := Option.isSome_iff_exists.mp (hop.resolve_left (by rw [hnone]; nofun))
    rw [ho]
    exact (succeeds_firstDest _).bind fun _ _ => succeeds_emit _

theorem succeeds_prim (hp : cx.program.WordLevel fields) {q : Prim} {operands : List Atom}
    (hq : Tail.Narrow cx.wordBytes (.prim q [] none))
    (hoperands : ∀ a ∈ operands, Atom.Available cx scope a) (dests : List Reg) :
    Succeeds cx scope (prim q operands dests) scope fun _ => True := by
  refine (succeeds_atoms hp hoperands).bind fun args hlen => ?_
  clear hlen
  split
  · exact succeeds_terminate _
  · exact succeeds_terminate _
  · exact succeeds_emit _
  · refine (succeeds_emit _).bind fun _ _ => ?_
    split
    · exact succeeds_terminate _
    · exact succeeds_pure trivial
  · rename_i hop
    exact (succeeds_checkDivisor _).bind fun _ _ =>
      succeeds_primOperation hq (by rw [hop]; exact .inr rfl) _ _
  · rename_i hop
    exact (succeeds_checkDivisor _).bind fun _ _ =>
      succeeds_primOperation hq (by rw [hop]; exact .inr rfl) _ _
  · rename_i hhalt hloop hprint huser _ _
    exact succeeds_primOperation hq (operation_or_access _ huser hhalt hloop hprint) _ _

theorem succeeds_compute (hp : cx.program.WordLevel fields) {t : Tail} (ht : TailOk cx fields t ρs)
    (hscope : InScope scope t.atoms) (hnarrow : t.Narrow cx.wordBytes) (dests : List Reg)
    (hcall : ∀ c, t ≠ .call c) (henter : ∀ fn args, t ≠ .enter fn args) :
    Succeeds cx scope (compute (some t) dests) scope fun _ => True := by
  have hargs := available_of_tail ht hscope
  cases t with
  | ret args => exact (succeeds_atoms hp hargs).bind fun _ _ => succeeds_forM fun _ _ => succeeds_move _ _
  | prim q args inst => exact succeeds_prim hp hnarrow hargs dests
  | alloc id args inst =>
      refine succeeds_resolve_bind (succeeds_record hp ?_ hargs dests)
      exact succeeds_freshReg.bind fun _ _ => (succeeds_codeSymbol _).bind fun _ _ =>
        (succeeds_emit _).bind fun _ _ => succeeds_pure trivial
  | data k args inst => exact succeeds_record hp (succeeds_const _) hargs dests
  | sel k field arg inst =>
      exact (succeeds_atom hp (hargs arg (.head _))).bind fun _ _ =>
        (succeeds_firstDest _).bind fun _ _ => succeeds_loadWord _ _ _
  | call c => exact absurd rfl (hcall c)
  | enter fn args => exact absurd rfl (henter fn args)

theorem succeeds_entered (hp : cx.program.WordLevel fields) {fn : Atom} {args : List Atom}
    (hargs : ∀ a ∈ fn :: args, Atom.Available cx scope a) :
    Succeeds cx scope (entered fn args) scope fun _ => True :=
  (succeeds_atom hp (hargs fn (.head _))).bind fun _ _ =>
    (succeeds_atoms hp fun a ha => hargs a (.tail _ ha)).bind fun _ _ =>
      succeeds_freshReg.bind fun _ _ => (succeeds_loadWord _ _ _).bind fun _ _ => succeeds_pure trivial

theorem succeeds_bind (hp : cx.program.WordLevel fields) {t : Tail} (ht : TailOk cx fields t ρs)
    (hscope : InScope scope t.atoms) (hnarrow : t.Narrow cx.wordBytes) (dests : List Reg) :
    Succeeds cx scope (BuildM.bind dests (some t)) scope fun _ => True := by
  have hargs := available_of_tail ht hscope
  unfold BuildM.bind
  split
  · rename_i c heq
    cases heq
    exact succeeds_resolve_bind ((succeeds_symbol _).bind fun _ _ =>
      (succeeds_atoms hp hargs).bind fun _ _ => succeeds_emit _)
  · rename_i fn args heq
    cases heq
    exact (succeeds_entered hp hargs).bind fun _ _ => succeeds_emit _
  · rename_i hcall henter
    exact succeeds_compute hp ht hscope hnarrow dests (fun c hc => hcall c (congrArg some hc))
      fun fn args he => henter fn args (congrArg some he)

/-! ### Jumps -/

/-- A block that gets a node waits in line from then on, and its parameters get registers next. -/
theorem succeeds_newLabel_bind {β : Type} {id : DefnId} {d : Defn} {k : Block}
    (hid : id ∈ cx.program.reachable) (hd : cx.program.defns[id]? = some d) (hk : d.body = .block k)
    {f : Node → List Reg → BuildM β} {Q : β → Prop} (hf : ∀ n params, params.length = k.params.length →
      Succeeds cx (k.params ++ scope) (f n params) scope' Q) :
    Succeeds cx scope (do
      let n ← newLabel id
      let k ← block id
      let params ← k.params.mapM regOf
      f n params) scope' Q := fun b hb => by
  obtain ⟨params, b₂, hbuilds, hlen, hbound⟩ := exists_regOfs cx k.params
    { b with nextNode := b.nextNode + 1, labels := (id, b.nextNode) :: b.labels, pending := b.pending ++ [id] }
  have hb₂ : b₂.Serves cx (k.params ++ scope) := by
    refine hb.grow hbound.kept (fun t ht => (List.mem_append.mp ht).symm.imp_right (hbound.bound t))
      fun j hj => ?_
    rw [hbound.pending] at hj
    refine (List.mem_append.mp hj).imp_right fun hj => ?_
    obtain rfl := List.mem_singleton.mp hj
    exact ⟨hid, d, k, hd, hk, hbound.bound⟩
  obtain ⟨c, b₃, hrest, hb₃, hc⟩ := hf b.nextNode params hlen b₂ hb₂
  refine ⟨c, b₃, Builds.bind_iff.mpr ⟨_, _, Builds.newLabel_iff.mpr ⟨rfl, rfl⟩, ?_⟩, hb₃, hc⟩
  refine Builds.bind_iff.mpr ⟨k, _, Builds.block_iff.mpr ⟨block_eq hd hk, rfl⟩, ?_⟩
  exact Builds.bind_iff.mpr ⟨params, b₂, hbuilds, hrest⟩

/-- Operands are copied to as many parameters. -/
theorem succeeds_copies {target : DefnId} {args params : List Reg} (hlen : params.length = args.length)
    (node : Node) : Succeeds cx scope (do
      if params.length ≠ args.length then
        throw (.jumpArity (← symbol target) args.length params.length)
      let copies ← freshRegs args.length
      (args.zip copies).forM fun (a, r) => move a r
      (copies.zip params).forM fun (r, p) => move r p
      terminate (.nop node)) scope fun _ => True := by
  rw [if_neg (not_not.mpr hlen)]
  exact (succeeds_freshRegs _).bind fun _ _ => (succeeds_forM fun _ _ => succeeds_move _ _).bind fun _ _ =>
    (succeeds_forM fun _ _ => succeeds_move _ _).bind fun _ _ => succeeds_terminate _

theorem succeeds_jump (hp : cx.program.WordLevel fields) {c : BlockCall}
    (ht : TailOk cx fields (.call c) ρs) (hscope : InScope scope c.args) :
    Succeeds cx scope (jump c) scope fun _ => True := by
  obtain ⟨d, k, -, hd, hk, -, -, hlen⟩ := ht.call.typed.fits hp ht.call.reach
  have hblock := block_eq hd hk
  unfold jump
  refine succeeds_resolve_bind ?_
  rw [hp.resolve ht.call.reach]
  refine (succeeds_atoms hp (available_of_tail ht hscope)).bind fun args hargs => ?_
  have hfits {params : List Reg} (hparams : params.length = k.params.length) : params.length = args.length :=
    hparams.trans (hlen.symm.trans hargs.symm)
  have hsub : scope ⊆ k.params ++ scope := List.subset_append_right _ _
  refine succeeds_label?_bind fun label => succeeds_read_bind ?_
  cases label with
  | some n =>
      dsimp only
      rw [pure_bind]
      refine succeeds_block_bind hblock (Succeeds.shrink ?_ hsub)
      exact (succeeds_regOfs _).bind fun _ hparams => succeeds_copies (hfits hparams) n
  | none =>
      dsimp only
      split
      · exact (succeeds_symbol _).bind fun _ _ => succeeds_terminate _
      · refine Succeeds.shrink ?_ hsub
        exact succeeds_newLabel_bind ht.call.reach hd hk fun n _ hparams => succeeds_copies (hfits hparams) n

theorem succeeds_tail (hp : cx.program.WordLevel fields) {t : Tail} (ht : TailOk cx fields t ρs)
    (hscope : InScope scope t.atoms) (hnarrow : t.Narrow cx.wordBytes) :
    Succeeds cx scope (BuildM.tail (some t)) scope fun _ => True := by
  have hargs := available_of_tail ht hscope
  unfold BuildM.tail
  split
  · rename_i c heq
    cases heq
    exact succeeds_jump hp ht hscope
  · rename_i fn args heq
    cases heq
    exact (succeeds_entered hp hargs).bind fun _ _ => succeeds_terminate _
  · rename_i args heq
    cases heq
    exact (succeeds_atoms hp hargs).bind fun _ _ => succeeds_terminate _
  · rename_i hcall henter hret
    refine succeeds_read_bind ((succeeds_freshRegs _).bind fun dests _ => ?_)
    refine (succeeds_compute hp ht hscope hnarrow dests (fun c hc => hcall c (congrArg some hc))
      fun fn args he => henter fn args (congrArg some he)).bind fun _ _ => ?_
    refine succeeds_isOpen_bind fun o => ?_
    split
    · exact succeeds_terminate _
    · exact succeeds_pure trivial

theorem succeeds_otherwise {default : Option BlockCall}
    (hdefault : ∀ c, default = some c → Succeeds cx scope (jump c) scope fun _ => True) :
    Succeeds cx scope (otherwise default) scope fun _ => True := by
  cases default with
  | some c => exact hdefault c rfl
  | none => exact succeeds_terminate _

/-- Nodes are taken for calls of alternatives. -/
theorem succeeds_placeAlts (count : Nat) (alts : List (Cfun × BlockCall)) (targets : List (Nat × Node)) :
    Succeeds cx scope (placeAlts count alts targets) scope
      fun r => ∀ q ∈ r.1, ∃ k, (k, q.2) ∈ alts := by
  induction alts generalizing targets with
  | nil => exact succeeds_pure nofun
  | cons alt alts ih =>
      obtain ⟨k, c⟩ := alt
      unfold placeAlts
      split
      · exact (ih targets).imp fun r hr q hq => (hr q hq).imp fun _ h => .tail _ h
      · refine succeeds_freshNode.bind fun n _ => (ih _).bind fun r hr => succeeds_pure fun q hq => ?_
        rcases List.mem_cons.mp hq with rfl | hq
        · exact ⟨k, .head _⟩
        · exact (hr q hq).imp fun _ h => .tail _ h

theorem succeeds_choose (hp : cx.program.WordLevel fields) {scrut : Atom}
    {alts : List (Cfun × BlockCall)} {default : Option BlockCall}
    (hscrut : Atom.Available cx scope scrut)
    (hcalls : ∀ c ∈ (Code.case scrut alts default).calls, Succeeds cx scope (jump c) scope fun _ => True) :
    Succeeds cx scope (choose scrut alts default) scope fun _ => True := by
  have hother : Succeeds cx scope (otherwise default) scope fun _ => True :=
    succeeds_otherwise fun c hc => hcalls c (List.mem_append_right _ (hc ▸ .head _))
  refine (succeeds_atom hp hscrut).bind fun value _ => ?_
  cases alts with
  | nil => exact hother
  | cons alt others =>
      obtain ⟨first, call⟩ := alt
      refine succeeds_read_bind (succeeds_freshReg.bind fun _ _ => (succeeds_loadWord _ _ _).bind fun _ _ => ?_)
      refine (succeeds_placeAlts _ _ _).bind fun r hr => ?_
      have hplaced : Succeeds cx scope (r.1.forM fun q => do startAt q.1; jump q.2) scope fun _ => True :=
        succeeds_forM fun q hq => (succeeds_startAt _).bind fun _ _ => by
          obtain ⟨k, hk⟩ := hr q hq
          exact hcalls q.2 (List.mem_append_left _ (List.mem_map_of_mem hk))
      dsimp only
      split
      · rw [pure_bind]
        exact (succeeds_terminate _).bind fun _ _ => hplaced.bind fun _ _ => succeeds_pure trivial
      · rw [bind_map_left]
        exact succeeds_freshNode.bind fun _ _ => (succeeds_terminate _).bind fun _ _ =>
          hplaced.bind fun _ _ => (succeeds_startAt _).bind fun _ _ => hother

/-! ### Bodies -/

theorem succeeds_code (hp : cx.program.WordLevel fields) {c : Code} (hc : CodeOk cx fields c ρs)
    (hscope : c.Scoped scope) (hnarrow : ∀ t ∈ tails c, t.Narrow cx.wordBytes) :
    Succeeds cx scope (code c) scope fun _ => True := by
  induction c generalizing scope with
  | bind vars t next ih =>
      obtain ⟨⟨τs, ht, -⟩, -, hnext⟩ := hc.bind
      obtain ⟨hnarrow₁, hnarrow₂⟩ := List.forall_mem_cons.mp hnarrow
      have hsub : scope ⊆ vars ++ scope := List.subset_append_right _ _
      refine ((succeeds_regOfs vars).bind fun dests _ => ?_).shrink hsub
      have hread : InScope (vars ++ scope) t.atoms := fun v hv => hsub (hscope.1 v hv)
      refine (succeeds_bind hp ht hread hnarrow₁ dests).bind fun _ _ => succeeds_isOpen_bind fun o => ?_
      split
      · exact ih hnext hscope.2 hnarrow₂
      · exact succeeds_pure trivial
  | done t => exact succeeds_tail hp hc.tail hscope (hnarrow t (.head _))
  | branch cond c d =>
      have hcond : Atom.Available cx scope cond := ⟨fun v hv => hscope v (hv ▸ .head _), fun id hid =>
        hc.refs id (List.mem_append_left _ (List.mem_append_left _ (Option.mem_toList.mpr hid)))⟩
      have hjump {call : BlockCall} (hcall : call ∈ (Code.branch cond c d).calls) :
          Succeeds cx scope (jump call) scope fun _ => True :=
        succeeds_jump hp (hc.call hcall) (inScope_of_call hscope hcall)
      exact (succeeds_atom hp hcond).bind fun r _ => succeeds_freshNode.bind fun _ _ =>
        succeeds_freshNode.bind fun _ _ => (succeeds_terminate _).bind fun _ _ =>
          (succeeds_startAt _).bind fun _ _ => (hjump (.head _)).bind fun _ _ =>
            (succeeds_startAt _).bind fun _ _ => hjump (.tail _ (.head _))
  | case scrut alts default =>
      have hscrut : Atom.Available cx scope scrut := ⟨fun v hv => hscope v (hv ▸ .head _), fun id hid =>
        hc.refs id (List.mem_append_left _ (Option.mem_toList.mpr hid))⟩
      exact succeeds_choose hp hscrut fun call hcall =>
        succeeds_jump hp (hc.call hcall) (inScope_of_call hscope hcall)

/-! ### Functions -/

/-- No definition that can be reached accesses more memory at once than a word has. -/
def Setting.Narrow (cx : Setting) : Prop :=
  ∀ {id d}, id ∈ cx.program.reachable → cx.program.defns[id]? = some d →
    ∀ t ∈ d.body.tails, t.Narrow cx.wordBytes

theorem succeeds_drain (hcx : cx.Ready fields) (hnarrow : cx.Narrow) (fuel : Nat) :
    Succeeds cx scope (drain fuel) [] fun _ => True := by
  induction fuel generalizing scope with
  | zero => exact fun b hb => ⟨(), b, Builds.pure_iff.mpr ⟨rfl, rfl⟩, hb.weaken (List.nil_subset _), trivial⟩
  | succ fuel ih =>
      intro b hb
      unfold drain
      simp only [Builds.get_bind]
      cases hpending : b.pending with
      | nil => exact ⟨(), b, Builds.pure_iff.mpr ⟨rfl, rfl⟩, hb.weaken (List.nil_subset _), trivial⟩
      | cons id rest =>
          obtain ⟨hid, d, k, hd, hk, hparams⟩ := hb.pending id (hpending ▸ .head _)
          have hb' : ({ b with pending := rest } : Builder).Serves cx k.params :=
            ⟨hparams, fun j hj => hb.pending j (hpending ▸ .tail _ hj)⟩
          obtain ⟨c, -, ρs, hc, hok, -⟩ := hcx.block hid hd hk
          have hscope := (hcx.words.onWords hid hd).inScope
          have hwidth := hnarrow hid hd
          rw [hk] at hscope hwidth
          rw [DefnBody.tails, hc, Option.map_some, Option.getD_some] at hwidth
          simp only [Builds.modify_bind]
          refine (?_ : Succeeds cx k.params _ [] fun _ => True) _ hb'
          refine succeeds_label?_bind fun label => succeeds_block_bind (block_eq hd hk) ?_
          rw [hc]
          cases label with
          | none => exact ih
          | some n =>
              exact (succeeds_startAt n).bind fun _ _ =>
                (succeeds_code hcx.words hok (hscope c hc) hwidth).bind fun _ _ => ih

theorem succeeds_drainAll (hcx : cx.Ready fields) (hnarrow : cx.Narrow) :
    Succeeds cx scope drainAll [] fun _ => True :=
  succeeds_read_bind (succeeds_drain hcx hnarrow _)

theorem succeeds_finish (name : String) (params : List Reg) (results : Nat) (entry : Node)
    (exported : Bool) :
    Succeeds cx scope (finish name params results entry exported) scope fun _ => True :=
  succeeds_get_bind fun _ => succeeds_pure trivial

variable {id : DefnId} {d : Defn}

theorem succeeds_blockFunction (hcx : cx.Ready fields) (hnarrow : cx.Narrow)
    (hid : id ∈ cx.program.reachable) (hd : cx.program.defns[id]? = some d) {k : Block}
    (hk : d.body = .block k) : Succeeds cx [] (blockFunction id d k) [] fun _ => True := by
  refine (succeeds_regOfs k.params).bind fun params _ => ?_
  have hlabel : Succeeds cx (k.params ++ []) (newLabel id) (k.params ++ []) fun _ => True := fun b hb => by
    refine ⟨_, _, Builds.newLabel_iff.mpr ⟨rfl, rfl⟩, hb.grow (fun t ht => ht) (fun t ht => .inl ht)
      fun j hj => (List.mem_append.mp hj).imp_right fun hj => ?_, trivial⟩
    obtain rfl := List.mem_singleton.mp hj
    exact ⟨hid, d, k, hd, hk, fun v hv => hb.scope v (List.mem_append_left _ hv)⟩
  exact hlabel.bind fun _ _ => (succeeds_drainAll hcx hnarrow).bind fun _ _ =>
    (succeeds_symbol _).bind fun _ _ => succeeds_read_bind (succeeds_finish _ _ _ _ _)

/-- The stored values of a closure are loaded into the registers of its parameters. -/
theorem succeeds_loads (record : Reg) (params : List Temp) (start : Nat) :
    Succeeds cx scope ((params.zipIdx start).forM fun (v, i) => do
      let r ← regOf v
      loadWord record (1 + i) r) (params ++ scope) fun _ => True := by
  rw [List.forM_eq_forM]
  induction params generalizing scope start with
  | nil => exact succeeds_pure trivial
  | cons v params ih =>
      rw [List.zipIdx_cons, List.forM_cons]
      refine Succeeds.shrink (((succeeds_regOf v).bind fun _ _ => succeeds_loadWord _ _ _).bind fun _ _ =>
        ih (start + 1)) ?_
      have hperm : (v :: (params ++ scope)).Perm (params ++ v :: scope) := List.perm_middle.symm
      exact hperm.subset

theorem succeeds_closureFunction (hcx : cx.Ready fields) (hnarrow : cx.Narrow)
    (hid : id ∈ cx.program.reachable) (hd : cx.program.defns[id]? = some d) {k : Closure}
    (hk : d.body = .closure k) : Succeeds cx [] (closureFunction id d k) [] fun _ => True := by
  obtain ⟨t, -, -, ρs, ht, hok, -⟩ := hcx.closure hid hd hk
  have hscope := (hcx.words.onWords hid hd).inScope
  have hwidth := hnarrow hid hd
  rw [hk] at hscope hwidth
  rw [DefnBody.tails, ht] at hwidth
  have htail : Succeeds cx (k.params ++ (k.args ++ [])) (BuildM.tail k.tail) (k.params ++ (k.args ++ []))
      fun _ => True := by
    rw [ht, List.append_nil]
    exact succeeds_tail hcx.words hok (hscope t ht) (hwidth t (.head _))
  exact succeeds_freshReg.bind fun _ _ => (succeeds_regOfs _).bind fun _ _ => succeeds_freshNode.bind fun _ _ =>
    (succeeds_startAt _).bind fun _ _ => (succeeds_loads _ _ _).bind fun _ _ => htail.bind fun _ _ =>
      (succeeds_drainAll hcx hnarrow).bind fun _ _ => (succeeds_codeSymbol _).bind fun _ _ =>
        succeeds_read_bind ((succeeds_finish _ _ _ _ _).bind fun _ _ =>
          (succeeds_symbol _).bind fun _ _ => succeeds_pure trivial)

theorem succeeds_topFunction (hcx : cx.Ready fields) (hnarrow : cx.Narrow)
    (hid : id ∈ cx.program.reachable) (hd : cx.program.defns[id]? = some d) {l : TopLevel}
    (hl : d.body = .top l) : Succeeds cx [] (topFunction id l) [] fun _ => True := by
  obtain ⟨t, τs, ht, hok, -⟩ := hcx.top hid hd hl
  have hscope := (hcx.words.onWords hid hd).inScope
  have hwidth := hnarrow hid hd
  rw [hl] at hscope hwidth
  rw [DefnBody.tails, ht] at hwidth
  have hend (g : Global) (name init : String) (entry : Node) : Succeeds cx [] (do
      drainAll
      return (← finish init [] 0 entry false, g)) [] fun _ => True :=
    (succeeds_drainAll hcx hnarrow).bind fun _ _ => (succeeds_finish _ _ _ _ _).bind fun _ _ =>
      succeeds_pure trivial
  refine (succeeds_symbol _).bind fun name _ => (succeeds_reserve _).bind fun init _ =>
    succeeds_freshNode.bind fun entry _ => (succeeds_startAt _).bind fun _ _ =>
      (succeeds_freshRegs _).bind fun dests _ => ?_
  rw [ht]
  refine (succeeds_bind hcx.words hok (hscope t ht) (hwidth t (.head _)) dests).bind fun _ _ => ?_
  refine succeeds_isOpen_bind fun o => ?_
  split
  · refine (succeeds_forM fun _ _ => ?_).bind fun _ _ => (succeeds_terminate _).bind fun _ _ => hend _ name init entry
    exact succeeds_read_bind (succeeds_read_bind (succeeds_emit _))
  · exact hend _ name init entry

/-! ### Programs -/

theorem Succeeds.build {α : Type} {x : BuildM α} {P : α → Prop} (hx : Succeeds cx [] x [] P) (o : Output) :
    ∃ r, o.build cx x = .ok r := by
  obtain ⟨a, b, hbuilds, -⟩ := hx (.new o.symbols) ⟨nofun, nofun⟩
  exact ⟨_, by rw [Output.build, show (x.run cx).run (.new o.symbols) = .ok (a, b) from hbuilds]; rfl⟩

theorem exists_addDefn (hcx : cx.Ready fields) (hnarrow : cx.Narrow) (o : Output)
    (hid : id ∈ cx.program.reachable) : ∃ o', o.addDefn cx id = .ok o' := by
  obtain ⟨d, hd⟩ := Program.exists_of_reachable hid
  have hdefn : cx.program.defn id = .ok d := by
    unfold Program.defn
    rw [hd]
  unfold Output.addDefn
  rw [hdefn]
  dsimp only [Bind.bind, Except.bind]
  cases hbody : d.body with
  | block k =>
      dsimp only
      split
      · obtain ⟨r, hbuild⟩ := (succeeds_blockFunction hcx hnarrow hid hd hbody).build o
        rw [hbuild]
        exact ⟨_, rfl⟩
      · exact ⟨o, rfl⟩
  | closure k =>
      obtain ⟨r, hbuild⟩ := (succeeds_closureFunction hcx hnarrow hid hd hbody).build o
      dsimp only
      rw [hbuild]
      exact ⟨_, rfl⟩
  | top l =>
      obtain ⟨r, hbuild⟩ := (succeeds_topFunction hcx hnarrow hid hd hbody).build o
      dsimp only
      rw [hbuild]
      exact ⟨_, rfl⟩
  | external e => exact ⟨o, rfl⟩

end Steps

end Rtl

section Programs

open Rtl

variable {p : Program} {fields : FieldLayout} {size : Int} {chunk : Chunk}

/-- What has been built is built for all definitions of a word-level program. -/
theorem Program.exists_output (hp : p.WordLevel fields) (hnarrow : (p.setting size chunk).Narrow) :
    ∃ o, p.output size chunk = .ok o := by
  have hready := ready_ofDefns hp size (size.tdiv 8) chunk
  have hfold (ids : List DefnId) (hids : ∀ id ∈ ids, id ∈ p.reachable) (o : Output) :
      ∃ o', ids.foldlM (Output.addDefn (p.setting size chunk)) o = .ok o' := by
    induction ids generalizing o with
    | nil => exact ⟨o, rfl⟩
    | cons id ids ih =>
        obtain ⟨o₁, hfirst⟩ := exists_addDefn hready hnarrow o (hids id (.head _))
        obtain ⟨o₂, hrest⟩ := ih (fun i hi => hids i (.tail _ hi)) o₁
        exact ⟨o₂, Except.bind_eq_ok.mpr ⟨o₁, hfirst, hrest⟩⟩
  obtain ⟨-, hmem⟩ := p.components_within fun _ hid => Program.lt_of_reachable hid
  exact hfold _ (fun id hid => (hmem id).mp hid) _

/-- A word-level program has a register transfer program for every size of words in which memory is
accessed, if none of its primitives accesses more at once. -/
theorem Program.exists_toRtl (hp : p.WordLevel fields) (hchunk : Chunk.ofBytes? (size.tdiv 8) = some chunk)
    (hnarrow : (p.setting size chunk).Narrow) : ∃ out, p.toRtl size = .ok out := by
  obtain ⟨o, ho⟩ := exists_output hp hnarrow
  have hmono (ids : List DefnId) (hids : ∀ id ∈ ids, id ∈ p.reachable) :
      ids.forM p.checkMonomorphic = .ok () := by
    induction ids with
    | nil => rfl
    | cons id ids ih =>
        have hfirst : p.checkMonomorphic id = .ok () := by
          obtain ⟨d, hd⟩ := Program.exists_of_reachable (hids id (.head _))
          unfold checkMonomorphic
          rw [hd]
          dsimp only
          rw [if_neg (by rw [(hp.onWords (hids id (.head _)) hd).monomorphic]; nofun)]
        exact Except.bind_eq_ok.mpr ⟨(), hfirst, ih fun i hi => hids i (.tail _ hi)⟩
  unfold toRtl
  dsimp only
  rw [hmono p.reachable fun _ h => h]
  dsimp only [Bind.bind, Except.bind]
  rw [hchunk]
  dsimp only
  split
  · exact ⟨_, rfl⟩
  · rename_i hfold
    cases hfold.symm.trans ho

end Programs

end Mil
