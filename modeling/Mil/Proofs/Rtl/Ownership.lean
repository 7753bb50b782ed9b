import Mil.Proofs.Rtl.Jumps
import Mil.Proofs.Rtl.Names

/-!
The division of a program into functions. Every function is made from one definition, and the code of a
block is placed in one function only: in its own, if the block is a root, and otherwise in that of the
root that leads to it. There it is placed once, since a block waits in line once. So each jump stays
inside its function, or is a tail call of the function of a root.

The invariant is that of the line: a block that has a node is the source of the function, or no root and
led to by the source. It is kept while blocks are placed, since the code of a block jumps only where the
block does.
-/

namespace Mil

namespace Rtl

open BuildM

/-! ### Blocks in line -/

/-- The blocks in line are placed, each as it comes to the front, until none waits. -/
inductive Places (cx : Setting) : List DefnId → Builder → Builder → Prop
  | done {b : Builder} (hnil : b.pending = []) : Places cx [] b b
  | code {b b₁ b' : Builder} {id : DefnId} {rest ids : List DefnId} {n : Node} {k : Block}
      {c : Mil.Code} (hpending : b.pending = id :: rest) (hn : b.labels.lookup id = some n)
      (hk : cx.program.block id = .ok k) (hc : k.body = some c)
      (hcode : Builds cx (BuildM.code c) { b with pending := rest, current := some n } () b₁)
      (hrest : Places cx ids b₁ b') : Places cx (id :: ids) b b'
  | empty {b b' : Builder} {id : DefnId} {rest ids : List DefnId} {k : Block}
      (hpending : b.pending = id :: rest) (hk : cx.program.block id = .ok k) (hc : k.body = none)
      (hrest : Places cx ids { b with pending := rest } b') : Places cx (id :: ids) b b'

/-- The state of a function whose source leads to the blocks that have nodes. Those that are done and
those that wait are all of them, in the order in which they got their nodes. -/
structure Line (cx : Setting) (source : DefnId) (done : List DefnId) (b : Builder) : Prop where
  order : (b.labels.map Prod.fst).reverse = done ++ b.pending
  nodup : (b.labels.map Prod.fst).Nodup
  owned : ∀ id ∈ b.labels.map Prod.fst, id = source ∨
    (id ∉ cx.roots ∧ Roots.Leads (Roots.jumpsOf cx.program) cx.roots source id)
  aimed : ∀ q ∈ b.code, q.2.Aimed cx.roots b.labels b.symbols

section Line

variable {cx : Setting} {source id : DefnId} {done rest : List DefnId} {b b' : Builder}

theorem Line.place (h : Line cx source done b) (hpending : b.pending = id :: rest) {n : Node} {k : Block}
    {c : Mil.Code} (hk : cx.program.block id = .ok k) (hc : k.body = some c)
    (hcode : Builds cx (code c) { b with pending := rest, current := some n } () b') :
    Line cx source (done ++ [id]) b' := by
  have hlabelled : id ∈ b.labels.map Prod.fst := by
    rw [← List.mem_reverse, h.order, hpending]
    exact List.mem_append_right _ (.head _)
  have hjumps (v : DefnId) (hv : v ∈ Roots.jumps c) :
      cx.program.resolve v ∈ Roots.jumpsOf cx.program id := by
    obtain ⟨d, hd, hdk⟩ := exists_of_block hk
    rw [Roots.jumpsOf, show cx.program.block? id = some k by simp [Program.block?, hd, hdk],
      Option.bind_some, hc]
    exact List.mem_map_of_mem hv
  have hgains := (jumping_code (T := (· ∈ Roots.jumpsOf cx.program id)) hjumps).gains hcode
  obtain ⟨new, hlabels, hnew, hid⟩ := hgains.labels
  dsimp only at hlabels hnew
  refine ⟨?_, hgains.nodup h.nodup, fun i hi => ?_, fun q hq => ?_⟩
  · rw [hlabels, hnew, List.map_append, List.reverse_append, h.order, hpending]
    simp
  · rw [hlabels, List.map_append] at hi
    rcases List.mem_append.mp hi with hi | hi
    · obtain ⟨hroot, hjump⟩ := hid i hi
      rcases h.owned id hlabelled with rfl | ⟨hroot', hleads⟩
      · exact .inr ⟨hroot, .jump hjump⟩
      · exact .inr ⟨hroot, .step hleads hroot' hjump⟩
    · exact h.owned i hi
  · rcases hgains.code hq with hq | hq
    · exact (h.aimed q hq).mono hgains.kept hgains.symbols
    · exact hq

/-- A block without code is done when it is at the front. -/
theorem Line.pop (h : Line cx source done b) (hpending : b.pending = id :: rest) :
    Line cx source (done ++ [id]) { b with pending := rest } where
  order := by
    show (b.labels.map Prod.fst).reverse = _
    rw [h.order, hpending, List.append_assoc]
    rfl
  nodup := h.nodup
  owned := h.owned
  aimed := h.aimed

/-- Blocks that have nodes are definitions of the program, each once. -/
theorem Line.length_le (h : Line cx source done b) (hcalls : Roots.Within cx.program cx.program.reachable)
    (hsource : source ∈ cx.program.reachable) : done.length + b.pending.length ≤ cx.program.defns.size := by
  rw [← List.length_append, ← h.order, List.length_reverse]
  refine Successors.length_le_of_nodup_of_lt h.nodup fun id hid => Program.lt_of_reachable ?_
  rcases h.owned id hid with rfl | ⟨-, hleads⟩
  · exact hsource
  · exact (hcalls.leads hsource hleads).1

/-- There is fuel for all blocks that come to wait in line. -/
theorem Line.drain (h : Line cx source done b) (hcalls : Roots.Within cx.program cx.program.reachable)
    (hsource : source ∈ cx.program.reachable) {fuel : Nat}
    (hfuel : cx.program.defns.size < fuel + done.length) {u : Unit}
    (hdrain : Builds cx (drain fuel) b u b') :
    ∃ placed, Places cx placed b b' ∧ Line cx source (done ++ placed) b' ∧ b'.pending = [] := by
  induction fuel generalizing b done with
  | zero =>
      have := h.length_le hcalls hsource
      omega
  | succ fuel ih =>
      unfold BuildM.drain at hdrain
      rw [Builds.get_bind] at hdrain
      split at hdrain
      · rename_i hnil
        obtain ⟨-, rfl⟩ := Builds.pure_iff.mp hdrain
        exact ⟨[], .done hnil, by rwa [List.append_nil], hnil⟩
      rename_i id rest hpending
      have hlabelled : id ∈ b.labels.map Prod.fst := by
        rw [← List.mem_reverse, h.order, hpending]
        exact List.mem_append_right _ (.head _)
      obtain ⟨n, hn⟩ := Option.isSome_iff_exists.mp (lookup_isSome_iff_mem.mpr hlabelled)
      rw [Builds.modify_bind, Builds.label?_bind, hn] at hdrain
      obtain ⟨k, b₀, hbuilds, hdrain⟩ := Builds.bind_iff.mp hdrain
      obtain ⟨hk, rfl⟩ := Builds.block_iff.mp hbuilds
      have hfuel' : cx.program.defns.size < fuel + (done ++ [id]).length := by
        rw [List.length_append, List.length_singleton]
        omega
      cases hc : k.body with
      | none =>
          rw [hc] at hdrain
          obtain ⟨placed, hplaces, hline, hnil⟩ := ih (h.pop hpending) hfuel' hdrain
          rw [List.append_assoc] at hline
          exact ⟨id :: placed, .empty hpending hk hc hplaces, hline, hnil⟩
      | some c =>
          rw [hc] at hdrain
          dsimp only at hdrain
          rw [Builds.startAt_bind] at hdrain
          obtain ⟨_, b₁, hcode, hdrain⟩ := Builds.bind_iff.mp hdrain
          obtain ⟨placed, hplaces, hline, hnil⟩ := ih (h.place hpending hk hc hcode) hfuel' hdrain
          rw [List.append_assoc] at hline
          exact ⟨id :: placed, .code hpending hn hk hc hcode hplaces, hline, hnil⟩

theorem Line.drainAll (h : Line cx source [] b) (hcalls : Roots.Within cx.program cx.program.reachable)
    (hsource : source ∈ cx.program.reachable) {u : Unit} (hdrain : Builds cx drainAll b u b') :
    ∃ placed, Places cx placed b b' ∧ Line cx source placed b' ∧ b'.pending = [] := by
  rw [BuildM.drainAll, Builds.read_bind] at hdrain
  exact h.drain hcalls hsource (Nat.lt_succ_self _) hdrain

theorem Line.symbols (h : Line cx source done b) {s : Symbols} (hle : b.symbols.Le s) :
    Line cx source done { b with symbols := s } where
  order := h.order
  nodup := h.nodup
  owned := h.owned
  aimed q hq := (h.aimed q hq).mono (fun hn => hn) hle

/-- A function without jumps to blocks other than roots has no nodes of blocks. -/
theorem Gains.line {s : Symbols} (h : Gains cx (· ∈ cx.roots) (.new s) b) (source : DefnId) :
    b.labels = [] ∧ b.pending = [] ∧ Line cx source [] b := by
  obtain ⟨new, hlabels, hpending, hnew⟩ := h.labels
  have hnil : new = [] := by
    cases new with
    | nil => rfl
    | cons x new => exact absurd (hnew x.1 (.head _)).2 (hnew x.1 (.head _)).1
  subst hnil
  refine ⟨hlabels, hpending, ?_, h.nodup .nil, fun i hi => ?_,
    fun q hq => (h.code hq).resolve_left nofun⟩
  · rw [hlabels, hpending]
    rfl
  · rw [hlabels] at hi
    cases hi

end Line

/-! ### Functions -/

/-- A function with its source, the construction that its code was placed by, and the blocks that were
placed, in order. -/
structure Piece where
  source : DefnId
  function : Function
  builder : Builder
  placed : List DefnId

/-- How a function is made. All code in the function of a block is that of the blocks that were placed,
of which the block is the first; in the function of a closure or a top-level definition no blocks are
placed. -/
inductive Piece.Made (cx : Setting) : Piece → Prop
  | block {id : DefnId} {d : Defn} {k : Block} {s : Symbols} {f : Function} {F b b' : Builder}
      {placed : List DefnId} (hd : cx.program.defns[id]? = some d) (hk : d.body = .block k)
      (hroot : id ∈ cx.roots) (hmake : Builds cx (blockFunction id d k) (.new s) f F)
      (hcode : b.code = []) (hpending : b.pending = [id]) (hplaces : Places cx placed b b')
      (hfinal : F = { b' with symbols := F.symbols }) : Made cx ⟨id, f, F, placed⟩
  | closure {id : DefnId} {d : Defn} {k : Closure} {s : Symbols} {f : Function} {l : Layout}
      {F : Builder} (hd : cx.program.defns[id]? = some d) (hk : d.body = .closure k)
      (hmake : Builds cx (closureFunction id d k) (.new s) (f, l) F) (hlabels : F.labels = []) :
      Made cx ⟨id, f, F, []⟩
  | top {id : DefnId} {d : Defn} {l : TopLevel} {s : Symbols} {f : Function} {g : Global} {F : Builder}
      (hd : cx.program.defns[id]? = some d) (hl : d.body = .top l)
      (hmake : Builds cx (topFunction id l) (.new s) (f, g) F) (hlabels : F.labels = []) :
      Made cx ⟨id, f, F, []⟩

section Functions

variable {cx : Setting} {id : DefnId} {d : Defn} {s : Symbols} {f : Function} {F b b' : Builder}

/-- Nothing is placed if nothing waits in line. -/
theorem Gains.drainAll (hb : Gains cx (· ∈ cx.roots) (.new s) b) {u : Unit}
    (h : Builds cx drainAll b u b') : b' = b := by
  obtain ⟨-, hnil, -⟩ := hb.line 0
  rw [BuildM.drainAll, Builds.read_bind, BuildM.drain, Builds.get_bind, hnil] at h
  exact (Builds.pure_iff.mp h).2

theorem blockFunction_placed (hcalls : Roots.Within cx.program cx.program.reachable)
    (hid : id ∈ cx.program.reachable) {k : Block}
    (h : Builds cx (blockFunction id d k) (.new s) f F) :
    ∃ b b' placed, b.code = [] ∧ b.pending = [id] ∧ Places cx placed b b' ∧
      F = { b' with symbols := F.symbols } ∧ Line cx id placed F ∧ F.pending = [] := by
  obtain ⟨params, b₁, hparams, h⟩ := Builds.bind_iff.mp h
  obtain ⟨entry, b₂, hlabel, h⟩ := Builds.bind_iff.mp h
  obtain ⟨_, b₃, hdrain, h⟩ := Builds.bind_iff.mp h
  obtain ⟨name, b₄, hname, h⟩ := Builds.bind_iff.mp h
  rw [Builds.read_bind] at h
  obtain ⟨-, rfl⟩ := finish_iff.mp h
  obtain ⟨-, rfl⟩ := Builds.symbol_iff.mp hname
  have hsame := regs_mapM hparams
  obtain ⟨rfl, rfl⟩ := Builds.newLabel_iff.mp hlabel
  have hcode : b₁.code = [] := by rw [hsame]; rfl
  have hlabels : b₁.labels = [] := by rw [hsame]; rfl
  have hpending : b₁.pending = [] := by rw [hsame]; rfl
  have hline : Line cx id [] { b₁ with
      nextNode := b₁.nextNode + 1, labels := (id, b₁.nextNode) :: b₁.labels,
      pending := b₁.pending ++ [id] } := by
    rw [hlabels, hpending]
    refine ⟨rfl, List.nodup_singleton _, fun i hi => .inl (List.mem_singleton.mp hi), fun q hq => ?_⟩
    rw [show b₁.code = [] from hcode] at hq
    cases hq
  obtain ⟨placed, hplaces, hline, hnil⟩ := hline.drainAll hcalls hid hdrain
  refine ⟨_, b₃, placed, ?_, ?_, hplaces, rfl, hline.symbols (Symbols.le_ofDefn _ _ _), hnil⟩
  · exact hcode
  show b₁.pending ++ [id] = [id]
  rw [hpending]
  rfl

theorem closureFunction_gains {k : Closure} {l : Layout}
    (htail : ∀ c, k.tail = some (.call c) → cx.program.resolve c.block ∈ cx.roots)
    (h : Builds cx (closureFunction id d k) (.new s) (f, l) F) :
    Gains cx (· ∈ cx.roots) (.new s) F := by
  unfold closureFunction at h
  obtain ⟨record, b₀, hrecord, h⟩ := Builds.bind_iff.mp h
  obtain ⟨args, b₁, hargs, h⟩ := Builds.bind_iff.mp h
  obtain ⟨entry, b₂, hentry, h⟩ := Builds.bind_iff.mp h
  obtain ⟨_, b₃, hstart, h⟩ := Builds.bind_iff.mp h
  obtain ⟨_, b₄, hparams, h⟩ := Builds.bind_iff.mp h
  obtain ⟨_, b₅, htails, h⟩ := Builds.bind_iff.mp h
  obtain ⟨_, b₆, hdrain, h⟩ := Builds.bind_iff.mp h
  obtain ⟨name, b₇, hname, h⟩ := Builds.bind_iff.mp h
  rw [Builds.read_bind] at h
  obtain ⟨f', b₈, hfinish, h⟩ := Builds.bind_iff.mp h
  obtain ⟨closure, b₉, hclosure, h⟩ := Builds.bind_iff.mp h
  obtain ⟨-, rfl⟩ := Builds.pure_iff.mp h
  obtain ⟨-, rfl⟩ := finish_iff.mp hfinish
  have hstored : Jumping cx (· ∈ cx.roots) (k.params.zipIdx.forM fun q => do
      let r ← regOf q.1
      loadWord record (1 + q.2) r) :=
    jumping_forM fun q _ => (jumping_regOf _).bind fun _ => jumping_loadWord _ _ _
  have hbefore : Gains cx (· ∈ cx.roots) (.new s) b₅ :=
    (jumping_freshReg.gains hrecord).trans (((jumping_mapM jumping_regOf _).gains hargs).trans
      ((jumping_freshNode.gains hentry).trans (((jumping_startAt _).gains hstart).trans
        ((hstored.gains hparams).trans ((jumping_tail htail).gains htails)))))
  obtain rfl := hbefore.drainAll hdrain
  exact hbefore.trans (((jumping_codeSymbol _).gains hname).trans ((jumping_symbol _).gains hclosure))

theorem topFunction_gains {l : TopLevel} {g : Global}
    (h : Builds cx (topFunction id l) (.new s) (f, g) F) :
    Gains cx (· ∈ cx.roots) (.new s) F ∧ f.FinishedFrom F.code := by
  unfold topFunction at h
  obtain ⟨name, b₁, hname, h⟩ := Builds.bind_iff.mp h
  obtain ⟨init, b₂, hinit, h⟩ := Builds.bind_iff.mp h
  obtain ⟨entry, b₃, hentry, h⟩ := Builds.bind_iff.mp h
  obtain ⟨_, b₄, hstart, h⟩ := Builds.bind_iff.mp h
  obtain ⟨dests, b₅, hdests, h⟩ := Builds.bind_iff.mp h
  obtain ⟨_, b₆, hbind, h⟩ := Builds.bind_iff.mp h
  rw [Builds.isOpen_bind] at h
  have hbefore : Gains cx (· ∈ cx.roots) (.new s) b₆ :=
    ((jumping_symbol _).gains hname).trans (((jumping_reserve _).gains hinit).trans
      ((jumping_freshNode.gains hentry).trans (((jumping_startAt _).gains hstart).trans
        (((jumping_freshRegs _).gains hdests).trans ((jumping_bind _ _).gains hbind)))))
  -- nothing is placed after the results are stored
  have hend {b : Builder} {g' : Global} (hb : Gains cx (· ∈ cx.roots) (.new s) b)
      (h : Builds cx (do
        drainAll
        return (← finish init [] 0 entry false, g')) b (f, g) F) :
      Gains cx (· ∈ cx.roots) (.new s) F ∧ f.FinishedFrom F.code := by
    refine ⟨?_, (finish_named h).2.2⟩
    obtain ⟨_, b', hdrain, hrest⟩ := Builds.bind_iff.mp h
    obtain rfl := hb.drainAll hdrain
    obtain ⟨f', b₇, hfinish, hpure⟩ := Builds.bind_iff.mp hrest
    obtain ⟨-, rfl⟩ := Builds.pure_iff.mp hpure
    obtain ⟨-, rfl⟩ := finish_iff.mp hfinish
    exact hb
  split at h
  · obtain ⟨_, b₇, hstores, h⟩ := Builds.bind_iff.mp h
    obtain ⟨_, b₈, hret, h⟩ := Builds.bind_iff.mp h
    have hstored : Jumping cx (· ∈ cx.roots) (dests.zipIdx.forM fun q => do
        let offset ← wordOffset q.2
        emit (.store (← read).chunk (.global name offset) [] q.1)) :=
      jumping_forM fun q _ => (jumping_wordOffset _).bind fun _ => jumping_read_bind
        (jumping_emit fun _ _ _ => trivial)
    exact hend (hbefore.trans ((hstored.gains hstores).trans (gains_terminate hret trivial))) h
  · exact hend hbefore h

/-- Dead code and detours aside, the function has the code that was placed. -/
theorem Piece.Made.finished {x : Piece} (h : x.Made cx) :
    x.function.FinishedFrom x.builder.code := by
  cases h with
  | block hd hk hroot hmake => exact (blockFunction_named hmake).2.2
  | closure hd hk hmake => exact (closureFunction_named hmake).2
  | top hd hl hmake => exact (topFunction_gains hmake).2

end Functions

/-! ### One definition after the other -/

/-- What is known after some definitions were added: the functions are those of pieces, each from another
definition, and roots that are done stand under the symbols of their functions. -/
structure Output.Divided (cx : Setting) (done : List DefnId) (o : Output) (pieces : List Piece) : Prop where
  functions : o.functions = pieces.map Piece.function
  sources : (pieces.map Piece.source).Nodup
  within : ∀ x ∈ pieces, x.source ∈ done
  made : ∀ x ∈ pieces, x.Made cx
  lines : ∀ x ∈ pieces, Line cx x.source x.placed x.builder ∧ x.builder.pending = []
  symbols : ∀ x ∈ pieces, x.builder.symbols.Le o.symbols
  named : ∀ {r : DefnId} {d : Defn} {k : Block}, r ∈ done → r ∈ cx.roots →
    cx.program.defns[r]? = some d → d.body = .block k →
    ∃ x ∈ pieces, x.source = r ∧ o.symbols.names.lookup r = some x.function.name

section Output

variable {cx : Setting} {done : List DefnId} {o o' : Output} {pieces : List Piece} {id : DefnId}

theorem Output.Divided.push (h : o.Divided cx done pieces) (x : Piece) (hnew : x.source ∉ done)
    (hmade : x.Made cx) (hline : Line cx x.source x.placed x.builder ∧ x.builder.pending = [])
    (hle : o.symbols.Le x.builder.symbols) (hfunctions : o'.functions = o.functions ++ [x.function])
    (hsymbols : o'.symbols = x.builder.symbols)
    (hnamed : ∀ {d k}, cx.program.defns[x.source]? = some d → d.body = .block k →
      x.builder.symbols.names.lookup x.source = some x.function.name) :
    o'.Divided cx (x.source :: done) (pieces ++ [x]) := by
  have hall {P : Piece → Prop} (hold : ∀ y ∈ pieces, P y) (hx : P x) : ∀ y ∈ pieces ++ [x], P y := by
    intro y hy
    rcases List.mem_append.mp hy with hy | hy
    · exact hold y hy
    · exact List.mem_singleton.mp hy ▸ hx
  refine ⟨?_, ?_, hall (fun y hy => .tail _ (h.within y hy)) (.head _), hall h.made hmade,
    hall h.lines hline, hall (fun y hy => ?_) ?_, fun {r d k} hr hroot hd hk => ?_⟩
  · rw [hfunctions, h.functions, List.map_append]
    rfl
  · rw [List.map_append]
    refine List.nodup_append.mpr ⟨h.sources, List.nodup_singleton _, fun i hi j hj => ?_⟩
    obtain ⟨y, hy, rfl⟩ := List.mem_map.mp hi
    rw [List.mem_singleton.mp hj]
    exact fun heq => hnew (heq ▸ h.within y hy)
  · rw [hsymbols]
    exact (h.symbols y hy).trans hle
  · rw [hsymbols]
    exact .refl _
  · rw [hsymbols]
    rcases List.mem_cons.mp hr with rfl | hr
    · exact ⟨x, List.mem_append_right _ (.head _), rfl, hnamed hd hk⟩
    · obtain ⟨y, hy, hsource, hname⟩ := h.named hr hroot hd hk
      exact ⟨y, List.mem_append_left _ hy, hsource, hle.names hname⟩

theorem Output.Divided.addDefn (h : o.Divided cx done pieces)
    (hcalls : Roots.Within cx.program cx.program.reachable)
    (hroots : Roots.Classifies cx.program cx.program.reachable cx.roots)
    (hid : id ∈ cx.program.reachable) (hnew : id ∉ done) (hadd : o.addDefn cx id = .ok o') :
    ∃ pieces, o'.Divided cx (id :: done) pieces := by
  cases Output.adds_of_addDefn hadd with
  | @block d k f F hd hk hroot hmake ho =>
      obtain ⟨b, b', placed, hcode, hpending, hplaces, hfinal, hline⟩ :=
        blockFunction_placed hcalls hid hmake
      obtain ⟨hname, -, -⟩ := blockFunction_named hmake
      have hle := ((asks_blockFunction (Uses.closed_any _) trivial d k).of_new hmake).symbols.le
      exact ⟨_, h.push ⟨id, f, F, placed⟩ hnew
        (.block hd hk hroot hmake hcode hpending hplaces hfinal) hline hle (by rw [ho]) (by rw [ho])
        fun _ _ => hname⟩
  | @closure d k f l F hd hk hmake ho =>
      have hgains := closureFunction_gains (fun c hc => hroots.called hid hd (.inl ⟨k, hk, rfl⟩) c.block
        (by rw [hc]; exact .head _)) hmake
      obtain ⟨hlabels, hnil, hline⟩ := hgains.line id
      exact ⟨_, h.push ⟨id, f, F, []⟩ hnew (.closure hd hk hmake hlabels) ⟨hline, hnil⟩ hgains.symbols
        (by rw [ho]) (by rw [ho]) fun hd' hk' => by
          cases hd.symm.trans hd'
          cases hk.symm.trans hk'⟩
  | @top d l f g F hd hl hmake ho =>
      obtain ⟨hgains, -⟩ := topFunction_gains hmake
      obtain ⟨hlabels, hnil, hline⟩ := hgains.line id
      exact ⟨_, h.push ⟨id, f, F, []⟩ hnew (.top hd hl hmake hlabels) ⟨hline, hnil⟩ hgains.symbols
        (by rw [ho]) (by rw [ho]) fun hd' hk' => by
          cases hd.symm.trans hd'
          cases hl.symm.trans hk'⟩
  | @skip d hd hblock _ _ ho =>
      subst ho
      refine ⟨pieces, h.functions, h.sources, fun x hx => .tail _ (h.within x hx), h.made, h.lines,
        h.symbols, fun {r d' k} hr hroot hd' hk => ?_⟩
      rcases List.mem_cons.mp hr with rfl | hr
      · cases hd.symm.trans hd'
        exact absurd hroot (hblock hk)
      · exact h.named hr hroot hd' hk

theorem Output.divided_start (cx : Setting) (outside : List String) :
    Output.Divided cx [] ⟨⟨[], [], outside⟩, [], [], []⟩ [] where
  functions := rfl
  sources := .nil
  within := nofun
  made := nofun
  lines := nofun
  symbols := nofun
  named := nofun

end Output

/-! ### The division of a program -/

/-- The functions of a program are those of pieces, which divide its blocks. Every piece has a source of
its own, and every root is the source of one. A block is placed in one piece at most, and there once; a
root in its own only. Every jump that is placed leads to the node of a block of the same piece, and every
tail call of a symbol is one of the function of a root. -/
structure Divides (cx : Setting) (functions : List Function) (pieces : List Piece) : Prop where
  functions_eq : functions = pieces.map Piece.function
  sources : (pieces.map Piece.source).Nodup
  made : ∀ x ∈ pieces, x.Made cx
  finished : ∀ x ∈ pieces, x.function.FinishedFrom x.builder.code
  roots : ∀ r ∈ cx.roots, ∃ x ∈ pieces, x.source = r
  nodup : ∀ x ∈ pieces, x.placed.Nodup
  own : ∀ x ∈ pieces, ∀ b ∈ x.placed, b ∈ cx.roots → b = x.source
  once : ∀ x ∈ pieces, ∀ y ∈ pieces, ∀ b ∈ x.placed, b ∈ y.placed → x = y
  jumps : ∀ x ∈ pieces, ∀ {m n : Node}, (m, .nop n) ∈ x.builder.code →
    ∃ b ∈ x.placed, x.builder.labels.lookup b = some n
  tailcalls : ∀ x ∈ pieces, ∀ {m : Node} {name : String} {args : List Reg},
    (m, .tailcall (.symbol name) args) ∈ x.builder.code →
    ∃ y ∈ pieces, y.source ∈ cx.roots ∧ y.function.name = name

section Division

variable {cx : Setting} {done : List DefnId} {o : Output} {pieces : List Piece} {x y : Piece}

/-- Blocks are placed only in the function of a root. -/
theorem Piece.Made.source_root (h : x.Made cx) {b : DefnId} (hb : b ∈ x.placed) : x.source ∈ cx.roots := by
  cases h with
  | block _ _ hroot => exact hroot
  | closure => cases hb
  | top => cases hb

/-- All blocks that have nodes are placed, when none waits. -/
theorem Line.mem_placed {source : DefnId} {placed : List DefnId} {F : Builder}
    (h : Line cx source placed F) (hnil : F.pending = []) {b : DefnId} :
    b ∈ placed ↔ b ∈ F.labels.map Prod.fst := by
  have horder := h.order
  rw [hnil, List.append_nil] at horder
  rw [← horder, List.mem_reverse]

theorem Output.Divided.divides (h : o.Divided cx done pieces)
    (hroots : Roots.Classifies cx.program cx.program.reachable cx.roots)
    (hblocks : ∀ r ∈ cx.roots, r ∈ done ∧ ∃ k, cx.program.block r = .ok k) :
    Divides cx o.functions pieces := by
  have hnamed (r : DefnId) (hr : r ∈ cx.roots) :
      ∃ x ∈ pieces, x.source = r ∧ o.symbols.names.lookup r = some x.function.name := by
    obtain ⟨hdone, k, hk⟩ := hblocks r hr
    obtain ⟨d, hd, hdk⟩ := exists_of_block hk
    exact h.named hdone hr hd hdk
  have howned {x : Piece} (hx : x ∈ pieces) {b : DefnId} (hb : b ∈ x.placed) := by
    obtain ⟨hline, hnil⟩ := h.lines x hx
    exact hline.owned b ((hline.mem_placed hnil).mp hb)
  have hown {x : Piece} (hx : x ∈ pieces) {b : DefnId} (hb : b ∈ x.placed) (hroot : b ∈ cx.roots) :
      b = x.source := (howned hx hb).resolve_right fun hn => hn.1 hroot
  have hinj {x y : Piece} (hx : x ∈ pieces) (hy : y ∈ pieces) (heq : x.source = y.source) : x = y :=
    List.inj_on_of_nodup_map h.sources hx hy heq
  refine ⟨h.functions, h.sources, h.made, fun x hx => (h.made x hx).finished, fun r hr => ?_,
    fun x hx => ?_, fun x hx b hb => hown hx hb, fun x hx y hy b hb hb' => ?_,
    fun x hx {m n} hcode => ?_, fun x hx {m name args} hcode => ?_⟩
  · obtain ⟨x, hx, hsource, -⟩ := hnamed r hr
    exact ⟨x, hx, hsource⟩
  · obtain ⟨hline, hnil⟩ := h.lines x hx
    have horder := hline.order
    rw [hnil, List.append_nil] at horder
    exact horder ▸ List.nodup_reverse.mpr hline.nodup
  · by_cases hroot : b ∈ cx.roots
    · exact hinj hx hy ((hown hx hb hroot).symm.trans (hown hy hb' hroot))
    · have hleads {z : Piece} (hz : z ∈ pieces) (hbz : b ∈ z.placed) :
          z.source ∈ cx.roots ∧ Roots.Leads (Roots.jumpsOf cx.program) cx.roots z.source b := by
        have hsource := (h.made z hz).source_root hbz
        exact ⟨hsource, ((howned hz hbz).resolve_left fun heq => hroot (heq ▸ hsource)).2⟩
      obtain ⟨hrx, hlx⟩ := hleads hx hb
      obtain ⟨hry, hly⟩ := hleads hy hb'
      exact hinj hx hy (hroots.unique hroot hrx hry hlx hly)
  · obtain ⟨hline, hnil⟩ := h.lines x hx
    obtain ⟨b, hb⟩ := hline.aimed _ hcode
    exact ⟨b, (hline.mem_placed hnil).mpr (lookup_isSome_iff_mem.mp (Option.isSome_of_eq_some hb)), hb⟩
  · obtain ⟨r, hr, hname⟩ := (h.lines x hx).1.aimed _ hcode
    obtain ⟨y, hy, rfl, hname'⟩ := hnamed r hr
    exact ⟨y, hy, hr, Option.some.inj (hname'.symm.trans ((h.symbols x hx).names hname))⟩

end Division

end Rtl

namespace Program

open Rtl

variable {p : Program}

/-- Where nothing that can be reached is replaced, calls lead from what can be reached to blocks that can
be reached. -/
theorem Direct.within (hp : p.Direct) : Roots.Within p p.reachable where
  calls {id d} hid hd c hc := by
    have hreach := hp.refs hid hd _ (DefnBody.mem_refs_of_calls hc)
    rw [hp.resolve hreach]
    exact ⟨hreach, hp.calls hid hd c hc⟩

/-- The classification of the blocks that can be reached ends, with a set of functions that gives every
block one owner. So the functions of a register transfer program divide the blocks: the code of a block is
placed in one function at most, and there once, and jumps do not leave the function that they stand in,
unless they are tail calls of the function of a root. -/
theorem toRtl_divides (h : Roots.Within p p.reachable) :
    Roots.Closes (Roots.jumpsWithin p p.reachable) (p.reachable.flatMap (Roots.required p)).eraseDups
        (Roots.ofDefns p p.reachable) ∧
      Roots.Classifies p p.reachable (Roots.ofDefns p p.reachable) ∧
      ∀ {size : Int} {out : Rtl.Program}, p.toRtl size = .ok out →
        ∃ (chunk : Chunk) (pieces : List Piece), Divides (p.setting size chunk) out.functions pieces := by
  have hroots := Roots.ofDefns_classifies h
  refine ⟨Roots.closes_ofDefns h, hroots, fun {size out} hout => ?_⟩
  obtain ⟨chunk, o, -, ho, rfl⟩ := toRtl_output hout
  obtain ⟨done, ⟨pieces, hpieces⟩, hdone⟩ := output_induction
    (P := fun done o => ∃ pieces, o.Divided (p.setting size chunk) done pieces)
    ⟨[], Output.divided_start (p.setting size chunk) p.outside⟩
    (fun hid hnew ⟨_, hpieces⟩ hadd => hpieces.addDefn h hroots hid hnew hadd) ho
  exact ⟨chunk, pieces, hpieces.divides hroots fun r hr =>
    ⟨(hdone r).mpr (h.of_root hr).1, (h.of_root hr).2⟩⟩

/-- A text with two entrypoints that jump to the same block, one of them through a block of its own. -/
def sharedText : String :=
  "blocks:\n- name: a\n  code:\n  - call: own\n- name: b\n  code:\n  - call: done\n" ++
  "- name: own\n  code:\n  - call: done\n- name: done\n  code:\n  - return: []\n"

/-- Are the first two definitions required to be functions, and is the last one made a function too? -/
def sharesLast (q : Program) : Bool :=
  decide ((q.reachable.flatMap (Roots.required q)).eraseDups = [0, 1] ∧
    Roots.ofDefns q q.reachable = [3, 0, 1]) && (q.toRtl 64).isOk

/-- A block that two entrypoints jump to is made a function, and the block in between is not. -/
theorem toRtl_divides_shared : ∃ (q : Program) (out : Rtl.Program) (chunk : Chunk) (pieces : List Piece),
    q.Lowered 64 ∧ q.toRtl 64 = .ok out ∧ Roots.Within q q.reachable ∧
    Roots.Closes (Roots.jumpsWithin q q.reachable) [0, 1] [3, 0, 1] ∧
    Roots.Classifies q q.reachable [3, 0, 1] ∧ Divides (q.setting 64 chunk) out.functions pieces := by
  have hall : (lowered "shared" sharedText ["a", "b"] 64).any sharesLast = true := by
    rw [lowered, Typing.accepted_eq _ sharedText _ (toList_append_ofList String.toList_ofList)]
    unfold sharesLast toRtl Roots.ofDefns
    simp only [Roots.close_eq_inserting]
    decide +kernel
  obtain ⟨q, hq, hall⟩ := (Option.any_eq_true _ _).mp hall
  obtain ⟨hsearch, hok⟩ := Bool.and_eq_true_iff.mp hall
  obtain ⟨hrequired, hroots⟩ := of_decide_eq_true hsearch
  have hwithin := (lowered_spec hq).linked.direct.within
  obtain ⟨hcloses, hclassifies, hdivides⟩ := toRtl_divides hwithin
  rw [hrequired, hroots] at hcloses
  rw [hroots] at hclassifies
  cases hout : q.toRtl 64 with
  | error e =>
      rw [hout] at hok
      cases hok
  | ok out =>
      obtain ⟨chunk, pieces, hpieces⟩ := hdivides hout
      exact ⟨q, out, chunk, pieces, lowered_spec hq, hout, hwithin, hcloses, hclassifies, hpieces⟩

end Program

end Mil
