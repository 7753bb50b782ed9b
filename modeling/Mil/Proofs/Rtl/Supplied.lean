import Mil.Proofs.Rtl.Compute
import Mil.Proofs.Rtl.Reads
import Mil.Proofs.Rtl.WellFormed

/-!
The functions of a word-level program write first what they read.

A set of registers supplies the code from a node on if every register that is read there is in the
set or is written before. Paths are followed up to the nodes where blocks begin: there it is enough
that the registers of the block's parameters are in the set, since every jump to the block copies
operands into them. The set only ever grows along a path, so the construction is followed backwards:
each step asks of the set before it what the rest asks of the set after it.
-/

namespace Mil.Rtl

open Typing BuildM

/-! ### Supplied nodes -/

/-- A block begins at a node, and the registers of its parameters are in a set. -/
def Begins (cx : Setting) (F : Builder) (A : Reg → Prop) (node : Node) : Prop :=
  ∃ id k, F.labels.lookup id = some node ∧ cx.program.block id = .ok k ∧
    ∀ t ∈ k.params, ∀ r, F.regs.lookup t = some r → A r

/-- From a node on, all that is read is in a set or written before. -/
inductive Supplied (cx : Setting) (F : Builder) : (Reg → Prop) → Node → Prop
  | mk {A node i} (hi : F.code.lookup node = some i) (huses : ∀ r ∈ i.uses, A r)
      (hnext : ∀ s ∈ i.successors, ¬ Begins cx F (fun r => A r ∨ r ∈ i.defs) s →
        Supplied cx F (fun r => A r ∨ r ∈ i.defs) s) : Supplied cx F A node

section Supplied

variable {cx : Setting} {F : Builder} {A B : Reg → Prop} {node : Node} {r : Reg}

theorem Begins.mono (hAB : ∀ r, A r → B r) (h : Begins cx F A node) : Begins cx F B node := by
  obtain ⟨id, k, hlabel, hk, hparams⟩ := h
  exact ⟨id, k, hlabel, hk, fun t ht r hr => hAB r (hparams t ht r hr)⟩

theorem Supplied.mono (hAB : ∀ r, A r → B r) (h : Supplied cx F A node) : Supplied cx F B node := by
  induction h generalizing B with
  | @mk A node i hi huses hnext ih =>
      have hgrow : ∀ r, A r ∨ r ∈ i.defs → B r ∨ r ∈ i.defs := fun r => Or.imp_left (hAB r)
      exact .mk hi (fun r hr => hAB r (huses r hr)) fun s hs hnot =>
        ih s hs (fun hbegins => hnot (hbegins.mono hgrow)) hgrow

/-- Where the code of each block is supplied by its parameters, what is read from a supplied node on
is in the set. -/
theorem Supplied.of_reads (hblocks : ∀ {id k node}, F.labels.lookup id = some node →
      cx.program.block id = .ok k →
      Supplied cx F (fun r => ∃ t ∈ k.params, F.regs.lookup t = some r) node)
    (hreads : F.code.Reads r node) (h : Supplied cx F A node) : A r := by
  induction hreads generalizing A with
  | here hi huse =>
      obtain ⟨hj, huses, -⟩ := h
      cases hi.symm.trans hj
      exact huses r huse
  | @later _ s i hi hdef hs _ ih =>
      obtain ⟨hj, -, hnext⟩ := h
      cases hi.symm.trans hj
      refine Or.resolve_right ?_ hdef
      by_cases hbegins : Begins cx F (fun r => A r ∨ r ∈ i.defs) s
      · obtain ⟨id, k, hlabel, hk, hparams⟩ := hbegins
        obtain ⟨t, ht, hr⟩ := ih (hblocks hlabel hk)
        exact hparams t ht r hr
      · exact ih (hnext _ hs hbegins)

end Supplied

/-- The node that a construction has come to is supplied, if it is at one. -/
def SuppliedAt (cx : Setting) (F : Builder) (A : Reg → Prop) (b : Builder) : Prop :=
  ∀ node, b.current = some node → Supplied cx F A node

/-- The registers of temporaries are in a set. -/
def Held (F : Builder) (A : Reg → Prop) (scope : List Temp) : Prop :=
  ∀ t ∈ scope, ∀ r, F.regs.lookup t = some r → A r

theorem Held.mono {F : Builder} {A B : Reg → Prop} {scope : List Temp} (hAB : ∀ r, A r → B r)
    (h : Held F A scope) : Held F B scope :=
  fun t ht r hr => hAB r (h t ht r hr)

theorem SuppliedAt.mono {cx : Setting} {F : Builder} {A B : Reg → Prop} {b : Builder}
    (hAB : ∀ r, A r → B r) (h : SuppliedAt cx F A b) : SuppliedAt cx F B b :=
  fun node hnode => (h node hnode).mono hAB

/-! ### Instructions -/

section Steps

variable {cx : Setting} {w : Nat} {D : List Node} {F b b' : Builder} {A : Reg → Prop} {u : Unit}

/-- What is in a set or among the first registers of a list, or among the others. -/
theorem or_mem_append {r : Reg} {rs rs' : List Reg} :
    (A r ∨ r ∈ rs) ∨ r ∈ rs' ↔ A r ∨ r ∈ rs ++ rs' := by
  rw [List.mem_append, or_assoc]

theorem supplied_emit {make : Node → Instr} {rs ds : List Reg} (hle : b'.Le F)
    (h : Builds cx (emit make) b u b') (hsucc : ∀ n, (make n).successors = [n])
    (huses : ∀ n, (make n).uses = rs) (hdefs : ∀ n, (make n).defs = ds) (hrs : ∀ r ∈ rs, A r)
    (hrest : SuppliedAt cx F (fun r => A r ∨ r ∈ ds) b') : SuppliedAt cx F A b := by
  intro node hnode
  obtain ⟨hcur, hi⟩ := lookup_of_emit h hle hnode
  refine .mk hi (by rwa [huses]) fun s hs _ => ?_
  rw [hsucc, List.mem_singleton] at hs
  rw [hdefs, hs]
  exact hrest _ hcur

theorem supplied_terminate {i : Instr} (hle : b'.Le F) (h : Builds cx (terminate i) b u b')
    (huses : ∀ r ∈ i.uses, A r)
    (hnext : ∀ s ∈ i.successors, Begins cx F A s ∨ Supplied cx F A s) : SuppliedAt cx F A b := by
  intro node hnode
  refine .mk (lookup_of_terminate h hle hnode) huses fun s hs hnot => ?_
  refine Supplied.mono (fun r => .inl) ((hnext s hs).resolve_left fun hbegins => ?_)
  exact hnot (hbegins.mono fun r => .inl)

theorem supplied_move {src dest : Reg} (hle : b'.Le F) (h : Builds cx (move src dest) b u b')
    (hsrc : A src) (hrest : SuppliedAt cx F (fun r => A r ∨ r ∈ [dest]) b') : SuppliedAt cx F A b :=
  supplied_emit hle h (fun _ => rfl) (fun _ => rfl) (fun _ => rfl)
    (fun _ hr => List.mem_singleton.mp hr ▸ hsrc) hrest

/-- Copies of registers write as many others. -/
theorem supplied_moves (hb : b.Sound (lawful cx w) D) (hle : b'.Le F) {srcs dests : List Reg}
    (hlen : dests.length = srcs.length)
    (h : Builds cx ((srcs.zip dests).forM fun (r, d) => move r d) b u b') (hsrcs : ∀ r ∈ srcs, A r)
    (hrest : SuppliedAt cx F (fun r => A r ∨ r ∈ dests) b') : SuppliedAt cx F A b := by
  induction srcs generalizing b dests A with
  | nil =>
      rw [List.length_eq_zero_iff.mp hlen] at h hrest
      rw [Builds.forM_nil_iff.mp h] at hrest
      exact hrest.mono fun r hr => hr.resolve_right List.not_mem_nil
  | cons src srcs ih =>
      cases dests with
      | nil => cases hlen
      | cons d dests =>
          obtain ⟨b₁, hmove, h⟩ := Builds.forM_cons_iff.mp h
          obtain ⟨hsrc, hsrcs⟩ := List.forall_mem_cons.mp hsrcs
          obtain ⟨hb₁, -⟩ := (acts_move (w := w) (D := D) hmove).sound hb
          obtain ⟨-, hle₁⟩ := (acts_forM (R := lawful cx w) (D := D) (fun _ _ => acts_move) h).sound hb₁
          refine supplied_move (hle₁.trans hle) hmove hsrc ?_
          exact ih hb₁ (Nat.succ.inj hlen) h (fun r hr => .inl (hsrcs r hr))
            (hrest.mono fun r => or_mem_append.mpr)

theorem supplied_const (hle : b'.Le F) {n : Int} {r : Reg} (h : Builds cx (const n) b r b')
    (hrest : SuppliedAt cx F (fun q => A q ∨ q ∈ [r]) b') : SuppliedAt cx F A b := by
  rw [BuildM.const, Builds.freshReg_bind] at h
  obtain ⟨_, b₁, hop, h⟩ := Builds.bind_iff.mp h
  obtain ⟨rfl, rfl⟩ := Builds.pure_iff.mp h
  have hsupplied := supplied_emit (A := A) hle hop (fun _ => rfl) (fun _ => rfl) (fun _ => rfl)
    (List.forall_mem_nil _) hrest
  exact hsupplied

theorem supplied_loadWord {record dest : Reg} {index : Int} (hle : b'.Le F)
    (h : Builds cx (loadWord record index dest) b u b') (hrecord : A record)
    (hrest : SuppliedAt cx F (fun r => A r ∨ r ∈ [dest]) b') : SuppliedAt cx F A b := by
  rw [loadWord, Builds.read_bind, Builds.wordOffset_bind] at h
  exact supplied_emit hle h (fun _ => rfl) (fun _ => rfl) (fun _ => rfl)
    (fun _ hr => List.mem_singleton.mp hr ▸ hrecord) hrest

theorem supplied_storeWord {record src : Reg} {index : Int} (hle : b'.Le F)
    (h : Builds cx (storeWord record index src) b u b') (hrecord : A record) (hsrc : A src)
    (hrest : SuppliedAt cx F A b') : SuppliedAt cx F A b := by
  rw [storeWord, Builds.read_bind, Builds.wordOffset_bind] at h
  refine supplied_emit hle h (fun _ => rfl) (fun _ => rfl) (fun _ => rfl) ?_ (hrest.mono fun r => .inl)
  exact List.forall_mem_cons.mpr ⟨hrecord, fun _ hr => List.mem_singleton.mp hr ▸ hsrc⟩

/-! ### Operands -/

variable {scope : List Temp}

theorem current_topAddress {id : DefnId} {index : Nat} {a : Address}
    (h : Builds cx (topAddress id index) b a b') : b'.current = b.current := by
  have hsymbol : ∀ {i : DefnId} {offset : Int}, Builds cx (do
      return .global (← symbol i) offset) b a b' → b'.current = b.current := by
    intro i offset h
    obtain ⟨name, b₁, hname, h⟩ := Builds.bind_iff.mp h
    obtain ⟨-, rfl⟩ := Builds.pure_iff.mp h
    obtain ⟨-, rfl⟩ := Builds.symbol_iff.mp hname
    rfl
  rw [topAddress, Builds.read_bind] at h
  dsimp only at h
  rw [Builds.wordOffset_bind] at h
  split at h
  · exact (Builds.throw_iff h).elim
  · split at h
    · split at h
      · obtain ⟨-, rfl⟩ := Builds.pure_iff.mp h
        rfl
      · exact hsymbol h
    · exact hsymbol h

/-- An operand is read from the register of a temporary in scope, or from one that is written for
it. -/
theorem supplied_atom (hle : b'.Le F) {a : Atom} {r : Reg} (hscope : InScope scope [a])
    (hheld : Held F A scope) (h : Builds cx (atom a) b r b')
    (hrest : SuppliedAt cx F (fun q => A q ∨ q ∈ [r]) b') : SuppliedAt cx F A b := by
  unfold BuildM.atom at h
  split at h
  · rename_i t
    obtain ⟨hr, rfl⟩ := Builds.boundReg_iff.mp h
    refine hrest.mono fun q hq => hq.elim id fun hq => ?_
    rw [List.mem_singleton.mp hq]
    exact hheld t (hscope t (.head _)) r (hle.regs hr)
  · rw [Builds.read_bind] at h
    exact supplied_const hle h hrest
  · exact supplied_const hle h hrest
  · rw [Builds.freshReg_bind] at h
    obtain ⟨address, b₁, haddress, h⟩ := Builds.bind_iff.mp h
    rw [Builds.read_bind] at h
    obtain ⟨_, b₂, hload, h⟩ := Builds.bind_iff.mp h
    obtain ⟨rfl, rfl⟩ := Builds.pure_iff.mp h
    intro node hnode
    exact supplied_emit (A := A) hle hload (fun _ => rfl) (fun _ => rfl) (fun _ => rfl) nofun hrest node
      ((current_topAddress haddress).trans hnode)

theorem supplied_atoms (hb : b.Sound (lawful cx w) D) (hle : b'.Le F) {as : List Atom} {rs : List Reg}
    (hscope : InScope scope as) (hheld : Held F A scope) (h : Builds cx (atoms as) b rs b')
    (hrest : SuppliedAt cx F (fun q => A q ∨ q ∈ rs) b') : SuppliedAt cx F A b := by
  induction as generalizing b rs A with
  | nil =>
      obtain ⟨rfl, rfl⟩ := Builds.mapM_nil_iff.mp h
      exact hrest.mono fun r hr => hr.resolve_right List.not_mem_nil
  | cons a as ih =>
      obtain ⟨r, rs', b₁, hr, hrs, rfl⟩ := Builds.mapM_cons_iff.mp h
      obtain ⟨hb₁, -⟩ := (acts_atom (w := w) (D := D) hr).sound hb
      obtain ⟨-, hle₁⟩ := (acts_atoms (w := w) (D := D) hrs).1.sound hb₁
      refine supplied_atom (hle₁.trans hle) (fun t ht => hscope t ?_) hheld hr ?_
      · exact List.mem_singleton.mp ht ▸ .head _
      · exact ih hb₁ (fun t ht => hscope t (.tail _ ht)) (hheld.mono fun r => .inl) hrs
          (hrest.mono fun r => or_mem_append.mpr)

end Steps

/-! ### Tails without calls -/

section Computed

variable {cx : Setting} {fields : FieldLayout} {w : Nat} {D : List Node} {F b b' : Builder}
  {A : Reg → Prop} {scope : List Temp} {ρs : List Ty} {dests : List Reg} {u : Unit} {q : Prim}

/-- Words are stored in a record, one after the other. -/
theorem supplied_stores (hb : b.Sound (lawful cx w) D) (hle : b'.Le F) {words : List (Reg × Nat)}
    {record : Reg} (hrecord : A record) (hwords : ∀ p ∈ words, A p.1)
    (h : Builds cx (words.forM fun (r, i) => storeWord record (1 + i) r) b u b')
    (hrest : SuppliedAt cx F A b') : SuppliedAt cx F A b := by
  induction words generalizing b with
  | nil =>
      rw [← Builds.forM_nil_iff.mp h]
      exact hrest
  | cons p words ih =>
      obtain ⟨hp, hwords⟩ := List.forall_mem_cons.mp hwords
      obtain ⟨b₁, hstore, h⟩ := Builds.forM_cons_iff.mp h
      obtain ⟨hb₁, -⟩ := (acts_storeWord (w := w) (D := D) hstore).sound hb
      obtain ⟨-, hle₁⟩ := (acts_forM (R := lawful cx w) (D := D) (fun _ _ => acts_storeWord) h).sound hb₁
      exact supplied_storeWord (hle₁.trans hle) hstore hrecord hp (ih hb₁ hwords h)

/-- A record is made in one register. -/
theorem supplied_record (hb : b.Sound (lawful cx w) D) (hle : b'.Le F) {head : BuildM Reg}
    {args : List Atom} {d : Reg} (hscope : InScope scope args) (hheld : Held F A scope)
    (hacts : ∀ {b r b'}, Builds cx head b r b' → Acts (lawful cx w) D b D b')
    (hhead : ∀ {B : Reg → Prop} {b r b'}, b'.Le F → Builds cx head b r b' →
      SuppliedAt cx F (fun q => B q ∨ q ∈ [r]) b' → SuppliedAt cx F B b)
    (h : Builds cx (record head args [d]) b u b')
    (hrest : SuppliedAt cx F (fun r => A r ∨ r ∈ [d]) b') : SuppliedAt cx F A b := by
  obtain ⟨words, b₁, hwords, h⟩ := Builds.bind_iff.mp h
  obtain ⟨d', b₂, hdest, hmade⟩ := Builds.bind_iff.mp h
  obtain ⟨rfl, rfl⟩ := Builds.pure_iff.mp hdest
  obtain ⟨_, b₃, halloc, h⟩ := Builds.bind_iff.mp hmade
  obtain ⟨r, b₄, hr, h⟩ := Builds.bind_iff.mp h
  obtain ⟨_, b₅, hstore, hstores⟩ := Builds.bind_iff.mp h
  obtain ⟨hb₁, -⟩ := (acts_atoms (w := w) (D := D) hwords).1.sound hb
  have hacts₃ := acts_emit (R := lawful cx w) (D := D) halloc (fun _ => rfl) fun _ => trivial
  obtain ⟨hb₃, hle₁⟩ := hacts₃.sound hb₁
  obtain ⟨hb₄, hle₃⟩ := (hacts hr).sound hb₃
  obtain ⟨hb₅, hle₄⟩ := (acts_storeWord (w := w) (D := D) hstore).sound hb₄
  obtain ⟨-, hle₅⟩ := (acts_forM (R := lawful cx w) (D := D) (fun _ _ => acts_storeWord) hstores).sound hb₅
  have hle₅ := hle₅.trans hle
  have hle₄ := hle₄.trans hle₅
  have hle₃ := hle₃.trans hle₄
  refine supplied_atoms hb (hle₁.trans hle₃) hscope hheld hwords ?_
  refine supplied_emit hle₃ halloc (fun _ => rfl) (fun _ => rfl) (fun _ => rfl) nofun ?_
  refine hhead hle₄ hr (supplied_storeWord hle₅ hstore (.inl (.inr (.head _))) (.inr (.head _)) ?_)
  refine supplied_stores hb₅ hle (.inl (.inr (.head _))) (fun p hp => ?_) hstores ?_
  · obtain ⟨-, -, hword⟩ := List.mem_zipIdx hp
    rw [hword]
    exact .inl (.inl (.inr (List.getElem_mem _)))
  · exact hrest.mono fun q hq => .inl (hq.imp_left .inl)

theorem supplied_checkDivisor (hb : b.Sound (lawful cx w) D) (hle : b'.Le F) {y : Reg} (hy : A y)
    (h : Builds cx (checkDivisor y) b u b') (hrest : SuppliedAt cx F A b') : SuppliedAt cx F A b := by
  rw [checkDivisor, Builds.freshNode_bind, Builds.freshNode_bind] at h
  dsimp only at h
  obtain ⟨_, b₁, hbranch, h⟩ := Builds.bind_iff.mp h
  rw [Builds.startAt_bind] at h
  obtain ⟨_, b₃, habort, h⟩ := Builds.bind_iff.mp h
  obtain ⟨hacts₁, hcur₁⟩ := acts_terminate (R := lawful cx w)
    (D := (b.nextNode + 1) :: b.nextNode :: D) hbranch trivial (by simp [Instr.successors])
  obtain ⟨hb₁, -⟩ := (Acts.step .node (.step .node hacts₁)).sound hb
  obtain ⟨hb₂, hle₁⟩ := Acts.sound (.step (.perm (.swap b.nextNode (b.nextNode + 1) D))
    (.of (.start hcur₁))) hb₁
  obtain ⟨hacts₂, hcur₃⟩ := acts_terminate (R := lawful cx w) (D := (b.nextNode + 1) :: D) habort trivial
    (List.forall_mem_nil _)
  obtain ⟨hb₃, hle₂⟩ := hacts₂.sound hb₂
  have hstart := Builds.startAt_iff.mp h
  obtain ⟨-, hle₃⟩ := (acts_startAt (R := lawful cx w) h hcur₃ (.refl _)).sound hb₃
  have hle₃ := hle₃.trans hle
  intro node hnode
  have hend : SuppliedAt cx F A { b₁ with current := some b.nextNode } :=
    supplied_terminate hle₃ habort (List.forall_mem_nil _) (List.forall_mem_nil _)
  refine supplied_terminate ((hle₁.trans hle₂).trans hle₃) hbranch
    (fun r hr => List.mem_singleton.mp hr ▸ hy) (fun s hs => .inr ?_) node hnode
  rcases List.mem_cons.mp hs with rfl | hs
  · exact hend _ rfl
  · rw [List.mem_singleton.mp hs]
    exact hrest _ (by rw [hstart])

/-- A primitive that has an operation gives one value. -/
theorem rng_of_ofPrim? (hq : q.OnWords) {o : Operation} (ho : Operation.ofPrim? q.op = some o) :
    ∃ τ, q.type.rng = .tuple [τ] := by
  rw [(type_of_ofPrim? hq ho).2]
  revert ho
  cases q.op <;> intro ho <;> cases ho <;> exact ⟨_, rfl⟩

/-- A load gives one value and has a width; a store gives none. -/
theorem rng_of_access? (hq : q.OnWords) {a : MemAccess} (ha : q.op.access? = some a) :
    q.type.rng = .tuple (if a.store then [] else [.word]) ∧ (Chunk.ofBytes? a.bytes).isSome := by
  have htype : q.type = q.op.wordType := by
    unfold Prim.OnWords at hq
    split at hq
    · rename_i hop
      rw [hop] at ha
      cases ha
    · rename_i hop
      rw [hop] at ha
      cases ha
    · rename_i hop
      rw [hop] at ha
      cases ha
    · exact hq.2
  rw [htype]
  revert ha
  cases q.op <;> intro ha <;> cases ha <;> exact ⟨rfl, rfl⟩

theorem supplied_primOperation (hle : b'.Le F) (hq : q.OnWords) (hrng : q.type.rng = .tuple ρs)
    (hdests : dests.length = ρs.length) {args : List Reg} (hargs : ∀ r ∈ args, A r)
    (h : Builds cx (primOperation q args dests) b u b')
    (hrest : SuppliedAt cx F (fun r => A r ∨ r ∈ dests) b') : SuppliedAt cx F A b := by
  have hone : ∀ {τ}, q.type.rng = .tuple [τ] → ∃ d, dests = [d] := by
    intro τ hτ
    rw [hrng] at hτ
    cases hτ
    exact exists_dest hdests
  unfold primOperation at h
  split at h
  · rename_i a ha
    obtain ⟨hτ, hchunk⟩ := rng_of_access? hq ha
    unfold access at h
    rw [Builds.read_bind] at h
    dsimp only at h
    split at h
    · obtain ⟨_, _, hthrow, -⟩ := Builds.bind_iff.mp h
      exact (Builds.throw_iff hthrow).elim
    · split at h
      · rename_i x y _ _ hstore
        refine supplied_emit hle h (fun _ => rfl) (fun _ => rfl) (fun _ => rfl) ?_ (hrest.mono ?_)
        · exact List.forall_mem_cons.mpr ⟨hargs x (.head _), fun r hr =>
            List.mem_singleton.mp hr ▸ hargs y (.tail _ (.head _))⟩
        · rw [hstore, hrng] at hτ
          cases hτ
          rw [List.length_eq_zero_iff.mp hdests]
          exact fun r hr => hr
      · rename_i hload
        rw [hload] at hτ
        obtain ⟨d, rfl⟩ := hone hτ
        obtain ⟨_, b₁, hdest, h⟩ := Builds.bind_iff.mp h
        obtain ⟨rfl, rfl⟩ := Builds.pure_iff.mp hdest
        exact supplied_emit hle h (fun _ => rfl) (fun _ => rfl) (fun _ => rfl)
          (fun r hr => hargs r (List.mem_of_mem_take hr)) hrest
      · rename_i hstore hload
        obtain ⟨-, rfl⟩ := Builds.pure_iff.mp h
        obtain ⟨c, hc⟩ := Option.isSome_iff_exists.mp hchunk
        cases hs : a.store with
        | true =>
            rw [hs, hrng] at hτ
            cases hτ
            rw [List.length_eq_zero_iff.mp hdests] at hrest
            exact hrest.mono fun r hr => hr.resolve_right List.not_mem_nil
        | false =>
            exact (hstore c hc hs).elim
  · split at h
    · rename_i o ho
      obtain ⟨τ, hτ⟩ := rng_of_ofPrim? hq ho
      obtain ⟨d, rfl⟩ := hone hτ
      obtain ⟨_, b₁, hdest, h⟩ := Builds.bind_iff.mp h
      obtain ⟨rfl, rfl⟩ := Builds.pure_iff.mp hdest
      exact supplied_emit hle h (fun _ => rfl) (fun _ => rfl) (fun _ => rfl) hargs hrest
    · exact (Builds.throw_iff h).elim

theorem supplied_prim (hb : b.Sound (lawful cx w) D) (hle : b'.Le F) (hq : q.OnWords)
    (huser : q.op = .user → cx.program.UserPrim q.name) (hrng : q.type.rng = .tuple ρs)
    (hdests : q.doesntReturn = false → dests.length = ρs.length) {operands : List Atom}
    (hscope : InScope scope operands) (hheld : Held F A scope)
    (h : Builds cx (prim q operands dests) b u b')
    (hrest : SuppliedAt cx F (fun r => A r ∨ r ∈ dests) b') : SuppliedAt cx F A b := by
  obtain ⟨args, b₁, hargs, h⟩ := Builds.bind_iff.mp h
  obtain ⟨hb₁, -⟩ := (acts_atoms (w := w) (D := D) hargs).1.sound hb
  suffices hrest : b₁.Le F ∧ SuppliedAt cx F (fun r => A r ∨ r ∈ args) b₁ from
    supplied_atoms hb hrest.1 hscope hheld hargs hrest.2
  have habort : ∀ {B : Reg → Prop} {b : Builder}, b.Sound (lawful cx w) D →
      Builds cx (terminate (.abort q.name)) b u b' → b.Le F ∧ SuppliedAt cx F B b := fun hb h =>
    ⟨((acts_terminate (R := lawful cx w) h trivial nofun).1.sound hb).2.trans hle,
      supplied_terminate hle h nofun nofun⟩
  have hoperation : q.doesntReturn = false → ∀ {b : Builder}, b.Sound (lawful cx w) D →
      Builds cx (primOperation q args dests) b u b' →
      b.Le F ∧ SuppliedAt cx F (fun r => A r ∨ r ∈ args) b := fun hreturns _ hb h =>
    ⟨((acts_primOperation (w := w) (D := D) h).sound hb).2.trans hle,
      supplied_primOperation hle hq hrng (hdests hreturns) (fun r hr => .inr hr) h
        (hrest.mono fun r hr => hr.imp_left .inl)⟩
  have hchecked : q.doesntReturn = false → ∀ {x y : Reg} {b₂ : Builder}, args = [x, y] →
      Builds cx (checkDivisor y) b₁ () b₂ →
      Builds cx (primOperation q args dests) b₂ u b' →
      b₁.Le F ∧ SuppliedAt cx F (fun r => A r ∨ r ∈ args) b₁ := by
    intro hreturns x y b₂ hxy hcheck h
    obtain ⟨hb₂, hle₁⟩ := (acts_checkDivisor (w := w) (D := D) hcheck).sound hb₁
    obtain ⟨hle₂, hsupplied⟩ := hoperation hreturns hb₂ h
    exact ⟨hle₁.trans hle₂, supplied_checkDivisor hb₁ hle₂ (.inr (hxy ▸ .tail _ (.head _))) hcheck hsupplied⟩
  split at h
  · exact habort hb₁ h
  · exact habort hb₁ h
  · rename_i hop
    have hprint : q.type.rng = .tuple [] := by
      have hq := hq
      unfold Prim.OnWords at hq
      rw [hop] at hq
      rw [hq.2]
      rfl
    rw [hrng] at hprint
    cases hprint
    have hreturns := hq.returns (by simp [hop]) (by simp [hop]) (by simp [hop])
    rw [List.length_eq_zero_iff.mp (hdests hreturns)] at hrest
    refine ⟨((acts_emit (R := lawful cx w) h (fun _ => rfl) fun _ => trivial).sound hb₁).2.trans hle, ?_⟩
    exact supplied_emit hle h (fun _ => rfl) (fun _ => rfl) (fun _ => rfl) (fun r hr => .inr hr)
      (hrest.mono fun r hr => hr.imp_left .inl)
  · rename_i args _ _ hop
    obtain ⟨_, b₂, hcall, h⟩ := Builds.bind_iff.mp h
    have hacts := acts_emit (R := lawful cx w) (D := D) hcall (fun _ => rfl) fun _ => .inl (huser hop)
    obtain ⟨hb₂, hle₁⟩ := hacts.sound hb₁
    have hafter : b₂.Le F ∧ SuppliedAt cx F (fun r => (A r ∨ r ∈ args) ∨ r ∈ dests) b₂ := by
      split at h
      · exact habort hb₂ h
      · obtain ⟨-, rfl⟩ := Builds.pure_iff.mp h
        exact ⟨hle, hrest.mono fun r hr => hr.imp_left .inl⟩
    refine ⟨hle₁.trans hafter.1, ?_⟩
    refine supplied_emit hafter.1 hcall (fun _ => rfl) (fun _ => rfl) (fun _ => rfl) (fun r hr => .inr ?_)
      hafter.2
    simpa [Callee.regs] using hr
  · rename_i hop
    obtain ⟨_, b₂, hcheck, h⟩ := Builds.bind_iff.mp h
    exact hchecked (hq.returns (by simp [hop]) (by simp [hop]) (by simp [hop])) rfl hcheck h
  · rename_i hop
    obtain ⟨_, b₂, hcheck, h⟩ := Builds.bind_iff.mp h
    exact hchecked (hq.returns (by simp [hop]) (by simp [hop]) (by simp [hop])) rfl hcheck h
  · rename_i hhalt hloop _ huser _ _
    exact hoperation (hq.returns huser hhalt hloop) hb₁ h

/-- What a tail computes is written to the registers that take it. -/
theorem supplied_compute (hcx : cx.Ready fields) (hb : b.Sound (lawful cx w) D) (hle : b'.Le F) {t : Tail}
    (ht : TailOk cx fields t ρs) (hdests : t.doesntReturn = false → dests.length = ρs.length)
    (hscope : InScope scope t.atoms) (hheld : Held F A scope) (h : Builds cx (compute (some t) dests) b u b')
    (hrest : SuppliedAt cx F (fun r => A r ∨ r ∈ dests) b') : SuppliedAt cx F A b := by
  have hp := hcx.words
  cases t with
  | ret args =>
      obtain ⟨srcs, b₁, hsrcs, hmoves⟩ := Builds.bind_iff.mp h
      obtain ⟨hacts, hlen⟩ := acts_atoms (w := w) (D := D) hsrcs
      obtain ⟨hb₁, -⟩ := hacts.sound hb
      obtain ⟨-, hle₁⟩ := (acts_forM (R := lawful cx w) (D := D) (fun _ _ => acts_move) hmoves).sound hb₁
      obtain ⟨τs, hτs, hargs⟩ := ht.typed.ret_inv
      cases hτs
      have hlen := ((hdests rfl).trans (length_of_argsHave hargs).symm).trans hlen.symm
      refine supplied_atoms hb (hle₁.trans hle) hscope hheld hsrcs ?_
      exact supplied_moves hb₁ hle hlen hmoves (fun r hr => .inr hr)
        (hrest.mono fun r hr => hr.imp_left .inl)
  | prim q args inst =>
      obtain ⟨hq, hrng, huser⟩ := ht.prim
      exact supplied_prim hb hle hq huser hrng hdests hscope hheld h hrest
  | alloc id args inst =>
      obtain ⟨d', k, _, hd, hk, -, hτ, -⟩ := ht.typed.alloc_inv
      have hid : id ∈ cx.program.reachable := ht.refs id (List.mem_append_right _ (.head _))
      cases hτ
      obtain ⟨d, rfl⟩ := exists_dest (hdests rfl)
      unfold compute at h
      rw [Builds.resolve_bind, hp.resolve hid] at h
      refine supplied_record hb hle hscope hheld (fun {b r b'} hmade => ?_)
        (fun {B b r b'} hle hmade hrest => ?_) h hrest
      · rw [Builds.freshReg_bind] at hmade
        obtain ⟨name, b₁, hname, hmade⟩ := Builds.bind_iff.mp hmade
        obtain ⟨_, b₂, hop, hmade⟩ := Builds.bind_iff.mp hmade
        obtain ⟨-, rfl⟩ := Builds.pure_iff.mp hmade
        obtain ⟨hacts, hname⟩ := acts_codeSymbol (R := lawful cx w) (D := D) hname
        exact .step .reg (hacts.trans (acts_emit hop (fun _ => rfl) fun _ => ⟨id, d', k, hid, hd, hk, hname⟩))
      · rw [Builds.freshReg_bind] at hmade
        obtain ⟨name, b₁, hname, hmade⟩ := Builds.bind_iff.mp hmade
        obtain ⟨_, b₂, hop, hmade⟩ := Builds.bind_iff.mp hmade
        obtain ⟨rfl, rfl⟩ := Builds.pure_iff.mp hmade
        obtain ⟨-, rfl⟩ := Builds.codeSymbol_iff.mp hname
        have hsupplied := supplied_emit (A := B) hle hop (fun _ => rfl) (fun _ => rfl) (fun _ => rfl) nofun
          hrest
        exact hsupplied
  | data k args inst =>
      obtain ⟨_, -, hτ, -⟩ := ht.typed.data_inv
      cases hτ
      obtain ⟨d, rfl⟩ := exists_dest (hdests rfl)
      exact supplied_record hb hle hscope hheld acts_const
        (fun hle hmade hrest => supplied_const hle hmade hrest) h hrest
  | sel k field arg inst =>
      obtain ⟨_, _, -, -, -, -, hτ⟩ := ht.typed.sel_inv
      cases hτ
      obtain ⟨d, rfl⟩ := exists_dest (hdests rfl)
      obtain ⟨r, b₁, hr, h⟩ := Builds.bind_iff.mp h
      obtain ⟨d', b₂, hdest, hload⟩ := Builds.bind_iff.mp h
      obtain ⟨rfl, rfl⟩ := Builds.pure_iff.mp hdest
      obtain ⟨hb₁, -⟩ := (acts_atom (w := w) (D := D) hr).sound hb
      obtain ⟨-, hle₁⟩ := (acts_loadWord (w := w) (D := D) hload).sound hb₁
      refine supplied_atom (hle₁.trans hle) hscope hheld hr ?_
      exact supplied_loadWord hle hload (.inr (.head _)) (hrest.mono fun q hq => hq.imp_left .inl)
  | call c => exact (Builds.throw_iff h).elim
  | enter fn args => exact (Builds.throw_iff h).elim

end Computed

end Mil.Rtl
