import Mil.Proofs.Rtl.Requests
import Mil.Proofs.Rtl.Roots

/-!
Where the jumps of a function go. Only a jump to a block gives the block a node, unless the block is a
root or has one already; every jump leads to the node of a block, and every tail call of a symbol is
that of a root. All other steps of a construction leave nodes of blocks and the line alone.
-/

namespace Mil.Rtl

/-- A jump leads to the node of a block, and a tail call of a symbol to a root. -/
def Instr.Aimed (roots : List DefnId) (labels : List (DefnId × Node)) (s : Symbols) : Instr → Prop
  | .nop n => ∃ id, labels.lookup id = some n
  | .tailcall (.symbol name) _ => ∃ id ∈ roots, s.names.lookup id = some name
  | _ => True

theorem Instr.Aimed.mono {roots : List DefnId} {labels labels' : List (DefnId × Node)}
    {s s' : Symbols} {i : Instr} (h : i.Aimed roots labels s)
    (hlabels : ∀ {id n}, labels.lookup id = some n → labels'.lookup id = some n) (hle : s.Le s') :
    i.Aimed roots labels' s' := by
  unfold Instr.Aimed at h ⊢
  split at h
  · exact h.imp fun _ hn => hlabels hn
  · exact h.imp fun _ hid => ⟨hid.1, hle.names hid.2⟩
  · trivial

/-- Between two points of a construction jumps are placed that are aimed, and blocks join the line that
get nodes. These are no roots, and are jumped to. -/
structure Gains (cx : Setting) (T : DefnId → Prop) (b b' : Builder) : Prop where
  symbols : b.symbols.Le b'.symbols
  code : ∀ {q}, q ∈ b'.code → q ∈ b.code ∨ q.2.Aimed cx.roots b'.labels b'.symbols
  kept : ∀ {id n}, b.labels.lookup id = some n → b'.labels.lookup id = some n
  labels : ∃ new : List (DefnId × Node), b'.labels = new ++ b.labels ∧
    b'.pending = b.pending ++ (new.map Prod.fst).reverse ∧
    ∀ id ∈ new.map Prod.fst, id ∉ cx.roots ∧ T id
  nodup : (b.labels.map Prod.fst).Nodup → (b'.labels.map Prod.fst).Nodup

section Gains

variable {cx : Setting} {T : DefnId → Prop} {b b' b'' : Builder}

/-- Nothing is placed, and labels and the line are left alone. -/
theorem Gains.of_eq (hsymbols : b.symbols.Le b'.symbols) (hcode : b'.code = b.code)
    (hlabels : b'.labels = b.labels) (hpending : b'.pending = b.pending) : Gains cx T b b' where
  symbols := hsymbols
  code hq := .inl (hcode ▸ hq)
  kept hn := hlabels ▸ hn
  labels := ⟨[], hlabels, by rw [hpending]; exact (List.append_nil _).symm, nofun⟩
  nodup h := hlabels ▸ h

theorem Gains.trans (h : Gains cx T b b') (h' : Gains cx T b' b'') : Gains cx T b b'' where
  symbols := h.symbols.trans h'.symbols
  code hq := (h'.code hq).elim (fun hq => (h.code hq).imp_right fun ha => ha.mono h'.kept h'.symbols) .inr
  kept hn := h'.kept (h.kept hn)
  labels := by
    obtain ⟨new, hlabels, hpending, hnew⟩ := h.labels
    obtain ⟨new', hlabels', hpending', hnew'⟩ := h'.labels
    refine ⟨new' ++ new, ?_, ?_, fun id hid => ?_⟩
    · rw [hlabels', hlabels, List.append_assoc]
    · rw [hpending', hpending, List.map_append, List.reverse_append, List.append_assoc]
    · rw [List.map_append] at hid
      exact (List.mem_append.mp hid).elim (hnew' id) (hnew id)
  nodup hnodup := h'.nodup (h.nodup hnodup)

end Gains

/-- Wherever it runs, the construction places aimed jumps only. -/
structure Jumping {α : Type} (cx : Setting) (T : DefnId → Prop) (x : BuildM α) : Prop where
  gains : ∀ {b : Builder} {a : α} {b' : Builder}, Builds cx x b a b' → Gains cx T b b'

section Jumping

variable {α β : Type} {cx : Setting} {T : DefnId → Prop} {x : BuildM α}

theorem jumping_of_eq (h : ∀ {b a b'}, Builds cx x b a b' → b.symbols.Le b'.symbols ∧
    b'.code = b.code ∧ b'.labels = b.labels ∧ b'.pending = b.pending) : Jumping cx T x :=
  ⟨fun hx => .of_eq (h hx).1 (h hx).2.1 (h hx).2.2.1 (h hx).2.2.2⟩

theorem jumping_pure (a : α) : Jumping cx T (pure a : BuildM α) := jumping_of_eq fun h => by
  obtain ⟨-, rfl⟩ := Builds.pure_iff.mp h
  exact ⟨.refl _, rfl, rfl, rfl⟩

theorem jumping_throw (e : Defect) : Jumping cx T (throw e : BuildM α) :=
  ⟨fun h => (Builds.throw_iff h).elim⟩

theorem jumping_throw_bind (e : Defect) (f : α → BuildM β) :
    Jumping cx T ((throw e : BuildM α) >>= f) := by
  refine ⟨fun h => ?_⟩
  obtain ⟨_, _, h, -⟩ := Builds.bind_iff.mp h
  exact (Builds.throw_iff h).elim

theorem jumping_get : Jumping cx T (get : BuildM Builder) := jumping_of_eq fun h => by
  obtain ⟨-, rfl⟩ := Builds.get_iff.mp h
  exact ⟨.refl _, rfl, rfl, rfl⟩

theorem jumping_read_bind {f : Setting → BuildM β} (h : Jumping cx T (f cx)) :
    Jumping cx T (read >>= f) :=
  ⟨fun hx => h.gains (Builds.read_bind.mp hx)⟩

theorem jumping_resolve_bind {id : DefnId} {f : DefnId → BuildM β}
    (h : Jumping cx T (f (cx.program.resolve id))) : Jumping cx T (BuildM.resolve id >>= f) :=
  ⟨fun hx => h.gains (Builds.resolve_bind.mp hx)⟩

/-- What follows may rely on the run before it. -/
theorem Jumping.bind_of {f : α → BuildM β} (hx : Jumping cx T x)
    (hf : ∀ {b a b'}, Builds cx x b a b' → Jumping cx T (f a)) : Jumping cx T (x >>= f) := by
  refine ⟨fun h => ?_⟩
  obtain ⟨a, b₁, hxa, hfa⟩ := Builds.bind_iff.mp h
  exact (hx.gains hxa).trans ((hf hxa).gains hfa)

theorem Jumping.bind {f : α → BuildM β} (hx : Jumping cx T x) (hf : ∀ a, Jumping cx T (f a)) :
    Jumping cx T (x >>= f) :=
  hx.bind_of fun _ => hf _

theorem Jumping.map (hx : Jumping cx T x) (f : α → β) : Jumping cx T (f <$> x) := by
  rw [map_eq_pure_bind]
  exact hx.bind fun _ => jumping_pure _

theorem jumping_mapM {f : α → BuildM β} (hf : ∀ a, Jumping cx T (f a)) (as : List α) :
    Jumping cx T (as.mapM f) := by
  induction as with
  | nil =>
      rw [List.mapM_nil]
      exact jumping_pure _
  | cons a as ih =>
      rw [List.mapM_cons]
      exact (hf a).bind fun _ => ih.bind fun _ => jumping_pure _

theorem jumping_forM {f : α → BuildM Unit} {as : List α} (hf : ∀ a ∈ as, Jumping cx T (f a)) :
    Jumping cx T (as.forM f) := by
  induction as with
  | nil => exact jumping_pure _
  | cons a as ih => exact Jumping.bind (hf a (.head _)) fun _ => ih fun a ha => hf a (.tail _ ha)

end Jumping

namespace BuildM

section Steps

variable {cx : Setting} {T : DefnId → Prop}

/-! ### Single steps -/

theorem jumping_freshNode : Jumping cx T freshNode := jumping_of_eq fun h => by
  obtain ⟨-, rfl⟩ := Builds.freshNode_iff.mp h
  exact ⟨.refl _, rfl, rfl, rfl⟩

theorem jumping_freshReg : Jumping cx T freshReg := jumping_of_eq fun h => by
  obtain ⟨-, rfl⟩ := Builds.freshReg_iff.mp h
  exact ⟨.refl _, rfl, rfl, rfl⟩

theorem jumping_freshRegs (n : Nat) : Jumping cx T (freshRegs n) :=
  jumping_mapM (fun _ => jumping_freshReg) _

theorem jumping_startAt (n : Node) : Jumping cx T (startAt n) := jumping_of_eq fun h => by
  cases Builds.startAt_iff.mp h
  exact ⟨.refl _, rfl, rfl, rfl⟩

theorem jumping_isOpen : Jumping cx T isOpen := jumping_get.bind fun _ => jumping_pure _

theorem gains_insert {b : Builder} {n : Node} {i : Instr} (hi : i.Aimed cx.roots b.labels b.symbols)
    (nextNode : Node) (current : Option Node) :
    Gains cx T b { b with nextNode, code := b.code.insert n i, current } where
  symbols := .refl _
  code hq := (Graph.mem_insert hq).elim (fun hq => .inr (hq ▸ hi)) .inl
  kept hn := hn
  labels := ⟨[], rfl, (List.append_nil _).symm, nofun⟩
  nodup h := h

theorem jumping_emit {make : Node → Instr} (hmake : ∀ n labels s, (make n).Aimed cx.roots labels s) :
    Jumping cx T (emit make) := by
  refine ⟨fun h => ?_⟩
  rcases Builds.emit_iff.mp h with ⟨-, rfl⟩ | ⟨n, -, rfl⟩
  · exact .of_eq (.refl _) rfl rfl rfl
  · exact gains_insert (hmake _ _ _) _ _

theorem gains_terminate {i : Instr} {b b' : Builder} {u : Unit} (h : Builds cx (terminate i) b u b')
    (hi : i.Aimed cx.roots b.labels b.symbols) : Gains cx T b b' := by
  rcases Builds.terminate_iff.mp h with ⟨-, rfl⟩ | ⟨n, -, rfl⟩
  · exact .of_eq (.refl _) rfl rfl rfl
  · exact gains_insert hi _ _

theorem jumping_terminate {i : Instr} (hi : ∀ labels s, i.Aimed cx.roots labels s) :
    Jumping cx T (terminate i) :=
  ⟨fun h => gains_terminate h (hi _ _)⟩

theorem jumping_regOf (t : Temp) : Jumping cx T (regOf t) := jumping_of_eq fun h => by
  rcases Builds.regOf_iff.mp h with ⟨-, rfl⟩ | ⟨-, -, rfl⟩ <;> exact ⟨.refl _, rfl, rfl, rfl⟩

theorem jumping_boundReg (t : Temp) : Jumping cx T (boundReg t) := jumping_of_eq fun h => by
  obtain ⟨-, rfl⟩ := Builds.boundReg_iff.mp h
  exact ⟨.refl _, rfl, rfl, rfl⟩

theorem jumping_symbol (id : DefnId) : Jumping cx T (symbol id) := jumping_of_eq fun h => by
  obtain ⟨-, rfl⟩ := Builds.symbol_iff.mp h
  exact ⟨Symbols.le_ofDefn _ _ _, rfl, rfl, rfl⟩

theorem jumping_codeSymbol (id : DefnId) : Jumping cx T (codeSymbol id) := jumping_of_eq fun h => by
  obtain ⟨-, rfl⟩ := Builds.codeSymbol_iff.mp h
  exact ⟨Symbols.le_ofCode _ _ _, rfl, rfl, rfl⟩

theorem jumping_reserve (name : String) : Jumping cx T (reserve name) := jumping_of_eq fun h => by
  rw [reserve, Builds.modifyGet_iff, Prod.mk.injEq] at h
  obtain ⟨-, rfl⟩ := h
  exact ⟨Symbols.le_reserve _ _, rfl, rfl, rfl⟩

theorem jumping_block (id : DefnId) : Jumping cx T (block id) := jumping_of_eq fun h => by
  obtain ⟨-, rfl⟩ := Builds.block_iff.mp h
  exact ⟨.refl _, rfl, rfl, rfl⟩

/-- A block that gets a node is no root. -/
theorem gains_newLabel {id : DefnId} {n : Node} {b b' : Builder} (h : Builds cx (newLabel id) b n b')
    (hnone : b.labels.lookup id = none) (hroot : id ∉ cx.roots) (hid : T id) :
    Gains cx T b b' ∧ b'.labels.lookup id = some n := by
  obtain ⟨rfl, rfl⟩ := Builds.newLabel_iff.mp h
  refine ⟨⟨.refl _, .inl, fun hn => lookup_cons_of_none hnone hn, ⟨[(id, b.nextNode)], rfl, rfl, ?_⟩, ?_⟩,
    (lookup_cons_ite id id _ _).trans (if_pos rfl)⟩
  · intro i hi
    rw [List.mem_singleton.mp hi]
    exact ⟨hroot, hid⟩
  · intro h
    rw [List.map_cons, List.nodup_cons]
    exact ⟨lookup_eq_none_iff_not_mem.mp hnone, h⟩

/-! ### Operands and tails -/

theorem jumping_operation (o : Operation) (args : List Reg) (dest : Reg) :
    Jumping cx T (operation o args dest) :=
  jumping_emit fun _ _ _ => trivial

theorem jumping_move (src dest : Reg) : Jumping cx T (move src dest) := jumping_operation _ _ _

theorem jumping_moves (srcs dests : List Reg) :
    Jumping cx T ((srcs.zip dests).forM fun (r, d) => move r d) :=
  jumping_forM fun _ _ => jumping_move _ _

theorem jumping_const (n : Int) : Jumping cx T (const n) :=
  jumping_freshReg.bind fun _ => (jumping_operation _ _ _).bind fun _ => jumping_pure _

theorem jumping_wordOffset (index : Int) : Jumping cx T (wordOffset index) :=
  jumping_read_bind (jumping_pure _)

theorem jumping_loadWord (record : Reg) (index : Int) (dest : Reg) :
    Jumping cx T (loadWord record index dest) :=
  jumping_read_bind ((jumping_wordOffset _).bind fun _ => jumping_emit fun _ _ _ => trivial)

theorem jumping_storeWord (record : Reg) (index : Int) (src : Reg) :
    Jumping cx T (storeWord record index src) :=
  jumping_read_bind ((jumping_wordOffset _).bind fun _ => jumping_emit fun _ _ _ => trivial)

theorem jumping_topAddress (id : DefnId) (index : Nat) : Jumping cx T (topAddress id index) := by
  rw [topAddress]
  refine jumping_read_bind ((jumping_wordOffset _).bind fun offset => ?_)
  split
  · exact jumping_throw _
  · split
    · split
      · exact jumping_pure _
      · exact (jumping_symbol _).bind fun _ => jumping_pure _
    · exact (jumping_symbol _).bind fun _ => jumping_pure _

theorem jumping_atom (a : Atom) : Jumping cx T (atom a) := by
  unfold atom
  split
  · exact jumping_boundReg _
  · exact jumping_read_bind (jumping_const _)
  · exact jumping_const _
  · exact jumping_freshReg.bind fun _ => (jumping_topAddress _ _).bind fun _ =>
      jumping_read_bind (Jumping.bind (jumping_emit fun _ _ _ => trivial) fun _ => jumping_pure _)

theorem jumping_atoms (as : List Atom) : Jumping cx T (atoms as) := jumping_mapM jumping_atom as

theorem jumping_firstDest (dests : List Reg) : Jumping cx T (firstDest dests) := by
  cases dests with
  | nil => exact jumping_freshReg
  | cons d _ => exact jumping_pure d

theorem jumping_record {head : BuildM Reg} (hhead : Jumping cx T head) (args : List Atom)
    (dests : List Reg) : Jumping cx T (record head args dests) :=
  (jumping_atoms _).bind fun _ => (jumping_firstDest dests).bind fun _ =>
    Jumping.bind (jumping_emit fun _ _ _ => trivial) fun _ => hhead.bind fun _ =>
      (jumping_storeWord _ _ _).bind fun _ => jumping_forM fun _ _ => jumping_storeWord _ _ _

theorem jumping_checkDivisor (y : Reg) : Jumping cx T (checkDivisor y) :=
  jumping_freshNode.bind fun _ => jumping_freshNode.bind fun _ =>
    Jumping.bind (jumping_terminate fun _ _ => trivial) fun _ => (jumping_startAt _).bind fun _ =>
      Jumping.bind (jumping_terminate fun _ _ => trivial) fun _ => jumping_startAt _

theorem jumping_access (name : String) (a : MemAccess) (args dests : List Reg) :
    Jumping cx T (access name a args dests) := by
  unfold access
  refine jumping_read_bind ?_
  dsimp only
  split
  · exact jumping_throw_bind _ _
  split
  · exact jumping_emit fun _ _ _ => trivial
  · exact (jumping_firstDest _).bind fun _ => jumping_emit fun _ _ _ => trivial
  · exact jumping_pure _

theorem jumping_primOperation (p : Prim) (args dests : List Reg) :
    Jumping cx T (primOperation p args dests) := by
  unfold primOperation
  split
  · exact jumping_access _ _ _ _
  split
  · exact (jumping_firstDest _).bind fun _ => jumping_operation _ _ _
  · exact jumping_throw _

theorem jumping_prim (p : Prim) (operands : List Atom) (dests : List Reg) :
    Jumping cx T (prim p operands dests) := by
  unfold prim
  refine (jumping_atoms _).bind fun args => ?_
  split
  · exact jumping_terminate fun _ _ => trivial
  · exact jumping_terminate fun _ _ => trivial
  · exact jumping_emit fun _ _ _ => trivial
  · refine Jumping.bind (jumping_emit fun _ _ _ => trivial) fun _ => ?_
    split
    · exact jumping_terminate fun _ _ => trivial
    · exact jumping_pure _
  · exact (jumping_checkDivisor _).bind fun _ => jumping_primOperation _ _ _
  · exact (jumping_checkDivisor _).bind fun _ => jumping_primOperation _ _ _
  · exact jumping_primOperation _ _ _

theorem jumping_compute (t : Option Mil.Tail) (dests : List Reg) : Jumping cx T (compute t dests) := by
  unfold compute
  split
  · exact (jumping_atoms _).bind fun _ => jumping_moves _ _
  · exact jumping_prim _ _ _
  · refine jumping_resolve_bind (jumping_record ?_ _ _)
    exact jumping_freshReg.bind fun _ => (jumping_codeSymbol _).bind fun _ =>
      (jumping_operation _ _ _).bind fun _ => jumping_pure _
  · exact jumping_record (jumping_const _) _ _
  · exact (jumping_atom _).bind fun _ => (jumping_firstDest _).bind fun _ => jumping_loadWord _ _ _
  · exact jumping_throw _

theorem jumping_entered (fn : Atom) (args : List Atom) : Jumping cx T (entered fn args) :=
  (jumping_atom _).bind fun _ => (jumping_atoms _).bind fun _ => jumping_freshReg.bind fun _ =>
    (jumping_loadWord _ _ _).bind fun _ => jumping_pure _

/-- Binding the results of a call is no jump. -/
theorem jumping_bind (t : Option Mil.Tail) (dests : List Reg) :
    Jumping cx T (BuildM.bind dests t) := by
  unfold BuildM.bind
  split
  · exact jumping_resolve_bind ((jumping_symbol _).bind fun _ => (jumping_atoms _).bind fun _ =>
      jumping_emit fun _ _ _ => trivial)
  · exact (jumping_entered _ _).bind fun _ => jumping_emit fun _ _ _ => trivial
  · exact jumping_compute _ _

/-! ### Jumps -/

/-- Inside the function a jump goes to the node of its block. -/
theorem gains_jumpInside {id : DefnId} {args : List Reg} {node : Node} {b b' : Builder} {u : Unit}
    (hlabel : b.labels.lookup id = some node)
    (h : Builds cx (do
      let params ← (← block id).params.mapM regOf
      if params.length ≠ args.length then
        throw (.jumpArity (← symbol id) args.length params.length)
      let copies ← freshRegs args.length
      (args.zip copies).forM fun (a, r) => move a r
      (copies.zip params).forM fun (r, p) => move r p
      terminate (.nop node)) b u b') : Gains cx T b b' := by
  obtain ⟨k, b₁, hblock, h⟩ := Builds.bind_iff.mp h
  obtain ⟨params, b₂, hparams, h⟩ := Builds.bind_iff.mp h
  dsimp only at h
  have h₂ := ((jumping_block (T := T) id).gains hblock).trans
    ((jumping_mapM jumping_regOf _).gains hparams)
  split at h
  · obtain ⟨name, b₃, -, h⟩ := Builds.bind_iff.mp h
    obtain ⟨_, _, h, -⟩ := Builds.bind_iff.mp h
    exact (Builds.throw_iff h).elim
  · obtain ⟨copies, b₃, hcopies, h⟩ := Builds.bind_iff.mp h
    obtain ⟨_, b₄, hfirst, h⟩ := Builds.bind_iff.mp h
    obtain ⟨_, b₅, hsecond, h⟩ := Builds.bind_iff.mp h
    have h₅ := h₂.trans (((jumping_freshRegs _).gains hcopies).trans
      (((jumping_moves _ _).gains hfirst).trans ((jumping_moves _ _).gains hsecond)))
    exact h₅.trans (gains_terminate h ⟨id, h₅.kept hlabel⟩)

/-- A jump to a root is a tail call, and one to any other block stays inside the function. -/
theorem jumping_jump {c : BlockCall} (hc : T (cx.program.resolve c.block)) :
    Jumping cx T (jump c) := by
  unfold jump
  refine jumping_resolve_bind ((jumping_atoms _).bind fun args => ⟨fun {b u b'} h => ?_⟩)
  rw [Builds.label?_bind, Builds.read_bind] at h
  dsimp only at h
  split at h
  · rename_i hroot
    obtain ⟨name, b₁, hname, h⟩ := Builds.bind_iff.mp h
    refine ((jumping_symbol _).gains hname).trans (gains_terminate h ?_)
    obtain ⟨rfl, rfl⟩ := Builds.symbol_iff.mp hname
    exact ⟨_, of_decide_eq_true hroot, Symbols.lookup_ofDefn _ _ _⟩
  · rename_i hcases
    split at h
    · rename_i n hn
      obtain ⟨_, b₁, hpure, h⟩ := Builds.bind_iff.mp h
      obtain ⟨rfl, rfl⟩ := Builds.pure_iff.mp hpure
      exact gains_jumpInside hn h
    · rename_i hnone
      obtain ⟨node, b₁, hlabel, h⟩ := Builds.bind_iff.mp h
      have hroot : cx.program.resolve c.block ∉ cx.roots := fun hroot =>
        hcases hnone (decide_eq_true hroot)
      obtain ⟨hgains, hn⟩ := gains_newLabel hlabel hnone hroot hc
      exact hgains.trans (gains_jumpInside hn h)

theorem jumping_tail {t : Option Mil.Tail}
    (ht : ∀ c, t = some (.call c) → T (cx.program.resolve c.block)) : Jumping cx T (tail t) := by
  unfold tail
  split
  · exact jumping_jump (ht _ rfl)
  · refine (jumping_entered _ _).bind_of fun h => jumping_terminate fun _ _ => ?_
    obtain ⟨-, code, hcode⟩ := acts_entered (w := 0) (D := []) h
    rw [hcode]
    trivial
  · exact (jumping_atoms _).bind fun _ => jumping_terminate fun _ _ => trivial
  · refine jumping_read_bind ((jumping_freshRegs _).bind fun dests => (jumping_compute _ _).bind
      fun _ => jumping_isOpen.bind fun isOpen => ?_)
    split
    · exact jumping_terminate fun _ _ => trivial
    · exact jumping_pure _

theorem jumping_otherwise {default : Option BlockCall}
    (hdefault : ∀ c ∈ default, T (cx.program.resolve c.block)) : Jumping cx T (otherwise default) := by
  cases default with
  | none => exact jumping_terminate fun _ _ => trivial
  | some c => exact jumping_jump (hdefault c rfl)

theorem jumping_placeAlts (count : Nat) (alts : List (Cfun × BlockCall)) (targets : List (Nat × Node)) :
    Jumping cx T (placeAlts count alts targets) := by
  induction alts generalizing targets with
  | nil => exact jumping_pure _
  | cons alt alts ih =>
      unfold placeAlts
      split
      · exact ih targets
      · exact jumping_freshNode.bind fun _ => (ih _).bind fun _ => jumping_pure _

theorem jumping_choose {scrut : Atom} {alts : List (Cfun × BlockCall)} {default : Option BlockCall}
    (halts : ∀ q ∈ alts, T (cx.program.resolve q.2.block))
    (hdefault : ∀ c ∈ default, T (cx.program.resolve c.block)) :
    Jumping cx T (choose scrut alts default) := by
  unfold choose
  refine (jumping_atom _).bind fun value => ?_
  split
  · exact jumping_otherwise hdefault
  refine jumping_read_bind (jumping_freshReg.bind fun tag => (jumping_loadWord _ _ _).bind fun _ => ?_)
  refine (jumping_placeAlts _ _ _).bind_of fun {_ placed _} hplaced => ?_
  obtain ⟨-, hmem, -⟩ := acts_placeAlts (R := lawful cx 0) (D := []) hplaced
  have hcases (i : Instr) (hi : ∀ labels s, i.Aimed cx.roots labels s) {last : BuildM Unit}
      (hlast : Jumping cx T last) :
      Jumping cx T (do
        terminate i
        placed.1.forM fun q => do
          startAt q.1
          jump q.2
        last) := by
    refine (jumping_terminate hi).bind fun _ => Jumping.bind (jumping_forM fun q hq => ?_) fun _ => hlast
    obtain ⟨k, hk⟩ := hmem q hq
    exact (jumping_startAt _).bind fun _ => jumping_jump (halts _ hk)
  have hrest (n : Node) : Jumping cx T (do
      startAt n
      otherwise default) := (jumping_startAt n).bind fun _ => jumping_otherwise hdefault
  dsimp only
  split
  · refine (jumping_pure _).bind fun rest => hcases _ ?_ ?_
    · exact fun _ _ => trivial
    · cases rest with
      | none => exact jumping_pure _
      | some n => exact hrest n
  · refine (jumping_freshNode.map some).bind fun rest => hcases _ ?_ ?_
    · exact fun _ _ => trivial
    · cases rest with
      | none => exact jumping_pure _
      | some n => exact hrest n

/-- The code of a body jumps where the body jumps. -/
theorem jumping_code {c : Mil.Code} (hc : ∀ v ∈ Roots.jumps c, T (cx.program.resolve v)) :
    Jumping cx T (code c) := by
  induction c with
  | bind vars t next ih =>
      refine (jumping_mapM jumping_regOf _).bind fun dests => (jumping_bind _ _).bind fun _ => ?_
      refine jumping_isOpen.bind fun isOpen => ?_
      split
      · exact ih hc
      · exact jumping_pure _
  | done t =>
      refine jumping_tail fun call ht => ?_
      obtain rfl := Option.some.inj ht
      exact hc _ (.head _)
  | branch cond c d =>
      refine (jumping_atom _).bind fun r => jumping_freshNode.bind fun ifSo => jumping_freshNode.bind
        fun ifNot => Jumping.bind (jumping_terminate fun _ _ => trivial) fun _ => ?_
      refine (jumping_startAt _).bind fun _ => (jumping_jump (hc _ (.head _))).bind fun _ => ?_
      exact (jumping_startAt _).bind fun _ => jumping_jump (hc _ (.tail _ (.head _)))
  | case scrut alts default =>
      have hcalls {call : BlockCall} (hcall : call ∈ (Mil.Code.case scrut alts default).calls) :
          T (cx.program.resolve call.block) := hc _ (List.mem_map_of_mem hcall)
      refine jumping_choose (fun q hq => ?_) fun call hcall => ?_
      · exact hcalls (List.mem_append_left _ (List.mem_map_of_mem hq))
      · exact hcalls (List.mem_append_right _ (Option.mem_toList.mpr hcall))

end Steps

end BuildM

end Mil.Rtl
