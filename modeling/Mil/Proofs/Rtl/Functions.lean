import Mil.Proofs.Rtl.Place

/-!
Whole functions. Every block that a function has given a node is placed, since each waits in line
once; so the graph of a finished function leads nowhere outside itself, and all its instructions are
lawful. The parts of a word-level program are what the construction of each kind of function needs.
-/

namespace Mil.Rtl

open Typing BuildM

/-! ### The parts of a word-level program -/

/-- The setting of a word-level program: blocks that must be functions are functions, and functions
are made of blocks that can be reached. -/
structure Setting.Ready (cx : Setting) (fields : FieldLayout) : Prop where
  words : cx.program.WordLevel fields
  roots : ∀ {id}, id ∈ cx.roots → id ∈ cx.program.reachable ∧
    ∃ d k, cx.program.defns[id]? = some d ∧ d.body = .block k
  required : ∀ {id}, id ∈ cx.program.reachable → Roots.required cx.program id ⊆ cx.roots

section Parts

variable {cx : Setting} {fields : FieldLayout} {id : DefnId} {d : Defn}

theorem mem_refs_of_bound {c : Code} {r : DefnId} (hr : r ∈ Roots.bound c) : r ∈ c.refs := by
  induction c with
  | bind vars t next ih =>
      cases t with
      | call call =>
          rcases List.mem_cons.mp hr with rfl | hr
          · exact List.mem_append_left _ (List.mem_append_right _ (.head _))
          · exact List.mem_append_right _ (ih hr)
      | ret | prim | alloc | data | enter | sel => exact List.mem_append_right _ (ih hr)
  | done | branch | case => cases hr

theorem mem_required_of_block {p : Mil.Program} {k : Block} {c : Code} {r : DefnId}
    (hp : p.WordLevel fields) (hd : p.defns[id]? = some d) (hk : d.body = .block k)
    (hc : k.body = some c) (hr : r ∈ Roots.bound c) (hreach : r ∈ p.reachable) :
    r ∈ Roots.required p id := by
  unfold Roots.required
  rw [hd]
  dsimp only
  rw [hk]
  dsimp only
  rw [hc]
  exact List.mem_append_right _ (List.mem_map.mpr ⟨r, hr, hp.resolve hreach⟩)

/-- The body of a block that can be reached is word-level code that gives what the block gives, from
parameters of the types that it takes. -/
theorem Setting.Ready.block (h : cx.Ready fields) (hid : id ∈ cx.program.reachable)
    (hd : cx.program.defns[id]? = some d) {k : Block} (hk : d.body = .block k) :
    ∃ c τs ρs, k.body = some c ∧ CodeOk cx fields c ρs ∧ k.declared = some (.ofLists τs ρs) ∧
      ArgsHave (cx.program.wordContext fields) (k.params.map .temp) τs ∧
      blockResults cx.program.store k = ρs.length := by
  have hon := h.words.onWords hid hd
  have hreach := h.words.reachable.2 hid hd
  rw [hk] at hon hreach
  obtain ⟨hdefining, τs, ρs, hdeclared⟩ := hon.listed
  cases hon.typed with
  | @block _ type c _ htype hbody hdom hparams hcode =>
      rw [hdefining, hdeclared] at htype
      cases htype
      cases hdom
      have hrefs : ∀ r ∈ c.refs, r ∈ cx.program.reachable :=
        fun r hr => hreach r (by rw [DefnBody.refs, hbody]; exact hr)
      refine ⟨c, τs, ρs, hbody, ⟨hcode, hrefs, ?_, ?_⟩, hdeclared, hparams, ?_⟩
      · exact fun r hr => h.required hid
          (mem_required_of_block h.words hd hk hbody hr (hrefs r (mem_refs_of_bound hr)))
      · refine fun t ht name hname => ⟨id, d, t, hid, hd, ?_, hname⟩
        rw [hk, DefnBody.tails, hbody]
        exact ht
      · rw [blockResults, hdeclared]
        exact width_tuple _ _

/-- The tail of a closure that can be reached, and the types of its parameters and arguments. -/
theorem Setting.Ready.closure (h : cx.Ready fields) (hid : id ∈ cx.program.reachable)
    (hd : cx.program.defns[id]? = some d) {k : Closure} (hk : d.body = .closure k) :
    ∃ t stored τs ρs, k.tail = some t ∧ TailOk cx fields t ρs ∧
      (∀ c, t = .call c → c.block ∈ cx.roots) ∧
      k.declared = some ⟨[], stored, .func (.tuple τs) (.tuple ρs)⟩ ∧
      ArgsHave (cx.program.wordContext fields) (k.params.map .temp) stored ∧
      ArgsHave (cx.program.wordContext fields) (k.args.map .temp) τs := by
  have hon := h.words.onWords hid hd
  have hreach := h.words.reachable.2 hid hd
  rw [hk] at hon hreach
  obtain ⟨hdefining, stored, τs, ρs, hdeclared⟩ := hon.listed
  cases hon.typed with
  | @closure _ type t _ _ htype htail hresult hparams hargs hbody =>
      rw [hdefining, hdeclared] at htype
      cases htype
      cases hresult
      rw [map_read] at hparams
      have hrefs : ∀ r ∈ t.refs, r ∈ cx.program.reachable :=
        fun r hr => hreach r (by rw [DefnBody.refs, htail]; exact hr)
      refine ⟨t, stored, τs, ρs, htail, ⟨hbody, hrefs, ?_⟩, ?_, hdeclared, hparams, hargs⟩
      · refine fun name hname => ⟨id, d, t, hid, hd, ?_, hname⟩
        rw [hk, DefnBody.tails, htail]
        exact .head _
      · rintro c rfl
        refine h.required hid ?_
        unfold Roots.required
        rw [hd]
        dsimp only
        rw [hk]
        dsimp only
        rw [htail]
        exact List.mem_map.mpr ⟨c.block, .head _, h.words.resolve (hrefs _ (List.mem_append_right _ (.head _)))⟩

/-- The tail of a top-level definition that can be reached. -/
theorem Setting.Ready.top (h : cx.Ready fields) (hid : id ∈ cx.program.reachable)
    (hd : cx.program.defns[id]? = some d) {l : TopLevel} (hl : d.body = .top l) :
    ∃ t τs, l.tail = some t ∧ TailOk cx fields t τs ∧ (∀ c, t = .call c → c.block ∈ cx.roots) ∧
      l.lhs.length = τs.length := by
  have hon := h.words.onWords hid hd
  have hreach := h.words.reachable.2 hid hd
  rw [hl] at hon hreach
  cases hon.typed with
  | @top _ types t htypes htail hbody =>
      rw [map_read] at hbody
      have hrefs : ∀ r ∈ t.refs, r ∈ cx.program.reachable :=
        fun r hr => hreach r (by rw [DefnBody.refs, htail]; exact hr)
      refine ⟨t, types, htail, ⟨hbody, hrefs, ?_⟩, ?_, ?_⟩
      · refine fun name hname => ⟨id, d, t, hid, hd, ?_, hname⟩
        rw [hl, DefnBody.tails, htail]
        exact .head _
      · rintro c rfl
        refine h.required hid ?_
        unfold Roots.required
        rw [hd]
        dsimp only
        rw [hl]
        dsimp only
        rw [htail]
        exact List.mem_map.mpr ⟨c.block, .head _, h.words.resolve (hrefs _ (List.mem_append_right _ (.head _)))⟩
      · simpa using congrArg List.length htypes

end Parts

/-! ### Blocks that wait in line -/

section Drain

variable {cx : Setting} {fields : FieldLayout} {results : Nat} {b b' : Builder}

theorem Builder.Sound.length_labels_le (h : b.Sound (lawful cx results) []) :
    b.labels.length ≤ cx.program.defns.size := by
  have hle := Successors.length_le_of_nodup_of_lt h.labelled fun id hid => by
    obtain ⟨n, hn⟩ := Option.isSome_iff_exists.mp (lookup_isSome_iff_mem.mpr hid)
    obtain ⟨-, d, -, hd, -⟩ := (h.labels hn).1
    exact (Array.getElem?_eq_some_iff.mp hd).1
  rwa [List.length_map] at hle

/-- An empty function has no gaps. -/
theorem sound_new {R : Rules} (s : Symbols) : (Builder.new s).Sound R [] where
  nodup := .nil
  unplaced h := nomatch h
  below h := h.elim nofun nofun
  keys := .nil
  pending h := nomatch h
  labels h := nomatch h
  labelled := .nil
  closed h := nomatch h
  instr h := nomatch h
  regs h := nomatch h
  own h := nomatch h

/-- The code of a block stands in a function from a node on. -/
def Placed (cx : Setting) (results : Nat) (F : Builder) (id : DefnId) (n : Node) : Prop :=
  ∃ k c b₁ b₂, cx.program.block id = .ok k ∧ k.body = some c ∧
    b₁.Sound (lawful cx results) [] ∧ b₁.current = some n ∧ Builds cx (code c) b₁ () b₂ ∧ b₂.Le F

/-- The first block in line is placed. -/
theorem sound_drain_one (hcx : cx.Ready fields) (h : b.Sound (lawful cx results) [])
    (hcur : b.current = none) {id : DefnId} {rest : List DefnId} (hpending : b.pending = id :: rest)
    {n : Node} (hn : b.labels.lookup id = some n) {k : Block} {c : Code}
    (hk : cx.program.block id = .ok k) (hc : k.body = some c) {u : Unit}
    (hcode : Builds cx (code c) { b with pending := rest, current := some n } u b') :
    b'.Sound (lawful cx results) [] ∧ b.Le b' ∧ b'.current = none ∧ Placed cx results b' id n ∧
      (∀ {m}, b.Covers [] m → b'.Covers [] m) ∧
      ∃ new, b'.pending = rest ++ new ∧ b'.labels.length = b.labels.length + new.length ∧
        ∀ {j m}, b'.labels.lookup j = some m → b.labels.lookup j = some m ∨ j ∈ new := by
  obtain ⟨hid, d, k', hd, hk', hresults⟩ := (h.labels hn).1
  obtain rfl : k' = k := by
    rw [block_eq hd hk'] at hk
    exact Except.ok.inj hk
  obtain ⟨c', -, ρs, hc', hok, -, -, hlen⟩ := hcx.block hid hd hk'
  obtain rfl : c' = c := Option.some.inj (hc'.symm.trans hc)
  obtain rfl : results = ρs.length := hresults.symm.trans hlen
  obtain ⟨hs, hle⟩ := Act.sound (h.pop hpending hn) (.start hcur)
  obtain ⟨hacts, hend⟩ := acts_code (D := []) hcx.words hok hcode
  obtain ⟨hs', hle'⟩ := hacts.sound hs
  have hpop : b.Le { b with pending := rest } :=
    ⟨fun h => h, fun h => h, fun h => h, fun h _ => h, Int.le_refl _, .refl _⟩
  exact ⟨hs', (hpop.trans hle).trans hle', hend, ⟨k', c', _, b', hk, hc, hs, rfl, hcode, .refl b'⟩,
    fun hm => hacts.covers (Act.covers (R := lawful cx ρs.length) (b := { b with pending := rest })
      (.start hcur) (hm.pop hpending hn)), hacts.pending⟩

/-- What a construction has placed and finished: nothing is open, and all blocks that have nodes are
placed. -/
structure Builder.Drained (cx : Setting) (results : Nat) (F : Builder) : Prop where
  sound : F.Sound (lawful cx results) []
  current : F.current = none
  pending : F.pending = []
  placed : ∀ {id n}, F.labels.lookup id = some n → Placed cx results F id n

/-- All that is covered has an instruction. -/
theorem Builder.Drained.isSome {F : Builder} (h : F.Drained cx results) {n : Node}
    (hn : F.Covers [] n) : (F.code.lookup n).isSome := by
  refine hn.resolve_right ?_
  unfold Builder.opened Builder.waiting
  rw [h.current, h.pending]
  exact List.not_mem_nil

/-- Each block waits at most once, so there is fuel for all of them. -/
theorem drained_drain (hcx : cx.Ready fields) {fuel : Nat} {u : Unit}
    (h : b.Sound (lawful cx results) []) (hcur : b.current = none)
    (hfuel : cx.program.defns.size + b.pending.length < fuel + b.labels.length)
    (hplaced : ∀ {id n}, b.labels.lookup id = some n → id ∈ b.pending ∨ Placed cx results b id n)
    (hdrain : Builds cx (drain fuel) b u b') :
    b'.Drained cx results ∧ b.Le b' ∧ ∀ {n}, b.Covers [] n → b'.Covers [] n := by
  induction fuel generalizing b with
  | zero =>
      have := h.length_labels_le
      omega
  | succ fuel ih =>
      unfold drain at hdrain
      rw [Builds.get_bind] at hdrain
      split at hdrain
      · rename_i hnil
        obtain ⟨-, rfl⟩ := Builds.pure_iff.mp hdrain
        refine ⟨⟨h, hcur, hnil, fun hn => (hplaced hn).resolve_left ?_⟩, .refl _, fun hn => hn⟩
        rw [hnil]
        exact List.not_mem_nil
      · rename_i id rest hpending
        have hfirst : id ∈ b.pending := hpending ▸ .head _
        obtain ⟨n, hn⟩ := Option.isSome_iff_exists.mp (h.pending hfirst)
        obtain ⟨hid, d, k, hd, hk, -⟩ := (h.labels hn).1
        obtain ⟨c, -, -, hc, -⟩ := hcx.block hid hd hk
        rw [Builds.modify_bind, Builds.label?_bind, hn] at hdrain
        obtain ⟨k', b₀, hbuilds, hdrain⟩ := Builds.bind_iff.mp hdrain
        obtain ⟨hblock, rfl⟩ := Builds.block_iff.mp hbuilds
        obtain rfl : k' = k := by
          rw [block_eq hd hk] at hblock
          exact (Except.ok.inj hblock).symm
        rw [hc] at hdrain
        dsimp only at hdrain
        rw [Builds.startAt_bind] at hdrain
        obtain ⟨_, b₁, hcode, hdrain⟩ := Builds.bind_iff.mp hdrain
        obtain ⟨h₁, hle₁, hcur₁, hfirst, hcovers₁, new, hnew, hlength, hlabels⟩ :=
          sound_drain_one hcx h hcur hpending hn hblock hc hcode
        obtain ⟨hdrained, hle₂, hcovers₂⟩ := ih h₁ hcur₁ (by
          rw [hnew, hlength, List.length_append]
          rw [hpending, List.length_cons] at hfuel
          omega) (fun {j m} hm => by
            rw [hnew, List.mem_append]
            rcases hlabels hm with hm | hj
            · rcases hplaced hm with hj | hj
              · rw [hpending] at hj
                rcases List.mem_cons.mp hj with rfl | hj
                · cases hn.symm.trans hm
                  exact .inr hfirst
                · exact .inl (.inl hj)
              · obtain ⟨k, c, b₂, b₃, hk, hc, hs, hm, hcode, hle⟩ := hj
                exact .inr ⟨k, c, b₂, b₃, hk, hc, hs, hm, hcode, hle.trans hle₁⟩
            · exact .inl (.inr hj)) hdrain
        exact ⟨hdrained, hle₁.trans hle₂, fun hn => hcovers₂ (hcovers₁ hn)⟩

/-- A construction that starts from nothing and ends its path leads to a function without gaps. -/
theorem drained_drainAll (hcx : cx.Ready fields) {s : Symbols} {u : Unit}
    (hacts : Acts (lawful cx results) [] (.new s) [] b) (hcur : b.current = none)
    (hdrain : Builds cx drainAll b u b') :
    b'.Drained cx results ∧ b.Le b' ∧ ∀ {n}, b.Covers [] n → b'.Covers [] n := by
  obtain ⟨h, -⟩ := hacts.sound (sound_new s)
  obtain ⟨new, hpending, hlength, hlabels⟩ := hacts.pending
  rw [drainAll, Builds.read_bind] at hdrain
  refine drained_drain hcx h hcur ?_ (fun hn => .inl ?_) hdrain
  · rw [hpending, hlength]
    simp only [Builder.new, List.nil_append, List.length_nil]
    omega
  · rw [hpending]
    exact (hlabels hn).resolve_left nofun

end Drain

/-! ### Functions -/

/-- How a function was made: its code was placed by a construction that left no gaps, and then dead
code and detours were taken out. -/
structure Made (cx : Setting) (results : Nat) (F : Builder) (raw f : Function) : Prop where
  drained : F.Drained cx results
  code : raw.code = F.code
  results : raw.results = results
  entry : (F.code.lookup raw.entry).isSome
  final : f = raw.removeDead.1.tunnel

section Finished

variable {cx : Setting} {fields : FieldLayout} {results : Nat} {F : Builder} {raw f : Function}

theorem Lawful.mapSuccessors {s : Symbols} (r : Node → Node) (i : Instr) (h : Lawful cx results s i) :
    Lawful cx results s (i.mapSuccessors r) := by
  cases i with
  | op o => cases o <;> exact h
  | call fn => cases fn <;> exact h
  | nop | load | store | tailcall | builtin | alloc | branch | jump | ret | abort => exact h

theorem Made.sound_raw (h : Made cx results F raw f) :
    raw.Sound (Lawful cx results F.symbols) := by
  constructor
  · rw [h.code]
    exact h.drained.sound.keys
  · rw [h.code]
    exact h.entry
  · rw [h.code]
    exact fun hi s hs => h.drained.isSome (h.drained.sound.closed hi s hs)
  · rw [h.code]
    exact h.drained.sound.instr

/-- The passes over a finished function leave no gaps and only lawful instructions. -/
theorem Made.sound (h : Made cx results F raw f) : f.Sound (Lawful cx results F.symbols) := by
  rw [h.final]
  exact (h.sound_raw.removeDead fun _ => trivial).tunnel Lawful.mapSuccessors

theorem Made.like (h : Made cx results F raw f) : raw.Like f := by
  rw [h.final]
  exact raw.like_removeDead.trans (Function.like_tunnel _)

end Finished

section Functions

variable {cx : Setting} {fields : FieldLayout} {b b' : Builder} {s : Symbols} {id : DefnId} {d : Defn}
  {f : Function}

theorem finish_iff {name : String} {params : List Reg} {results : Nat} {entry : Node}
    {exported : Bool} : Builds cx (finish name params results entry exported) b f b' ↔
      f = (Function.mk name params results b.code entry exported).removeDead.1.tunnel ∧ b' = b := by
  rw [finish, Builds.get_bind]
  exact Builds.pure_iff

/-- Temporaries get registers, and nothing else happens. -/
theorem regs_mapM {ts : List Temp} {rs : List Reg} (h : Builds cx (ts.mapM regOf) b rs b') :
    b' = { b with nextReg := b'.nextReg, regs := b'.regs } := by
  induction ts generalizing b rs with
  | nil =>
      obtain ⟨-, rfl⟩ := Builds.mapM_nil_iff.mp h
      rfl
  | cons t ts ih =>
      obtain ⟨r, rs', b₁, hr, hrs, rfl⟩ := Builds.mapM_cons_iff.mp h
      rw [ih hrs]
      rcases Builds.regOf_iff.mp hr with ⟨-, rfl⟩ | ⟨-, rfl, rfl⟩ <;> rfl

theorem lookup_mapM {R : Rules} {D : List Node} {ts : List Temp} {rs : List Reg} (hb : b.Sound R D)
    (h : Builds cx (ts.mapM regOf) b rs b') :
    List.Forall₂ (fun t r => b'.regs.lookup t = some r) ts rs := by
  induction ts generalizing b rs with
  | nil =>
      obtain ⟨rfl, -⟩ := Builds.mapM_nil_iff.mp h
      exact .nil
  | cons t ts ih =>
      obtain ⟨r, rs', b₁, hr, hrs, rfl⟩ := Builds.mapM_cons_iff.mp h
      obtain ⟨hb₁, -⟩ := (acts_regOf hr).sound hb
      obtain ⟨-, hle⟩ := (acts_mapM (R := R) (D := D) (fun _ _ => acts_regOf) hrs).1.sound hb₁
      refine .cons (hle.regs ?_) (ih hb₁ hrs)
      rcases Builds.regOf_iff.mp hr with ⟨hr, rfl⟩ | ⟨-, rfl, rfl⟩
      · exact hr
      · exact (lookup_cons_ite t t _ _).trans (if_pos rfl)

/-- A block that is a root becomes a function that starts at its node. -/
theorem blockFunction_made (hcx : cx.Ready fields) (hid : id ∈ cx.program.reachable)
    (hd : cx.program.defns[id]? = some d) {k : Block} (hk : d.body = .block k)
    (h : Builds cx (blockFunction id d k) (.new s) f b') :
    ∃ raw F, Made cx (blockResults cx.program.store k) F raw f ∧
      F.labels.lookup id = some raw.entry ∧
      List.Forall₂ (fun t r => F.regs.lookup t = some r) k.params raw.params ∧
      s.Le F.symbols ∧ F.symbols.Le b'.symbols ∧ b'.symbols.names.lookup id = some raw.name := by
  obtain ⟨params, b₁, hparams, h⟩ := Builds.bind_iff.mp h
  obtain ⟨entry, b₂, hlabel, h⟩ := Builds.bind_iff.mp h
  obtain ⟨_, F, hdrain, h⟩ := Builds.bind_iff.mp h
  obtain ⟨name, b₄, hname, h⟩ := Builds.bind_iff.mp h
  rw [Builds.read_bind] at h
  obtain ⟨rfl, rfl⟩ := finish_iff.mp h
  obtain ⟨rfl, rfl⟩ := Builds.newLabel_iff.mp hlabel
  obtain ⟨rfl, rfl⟩ := Builds.symbol_iff.mp hname
  have hsame := regs_mapM hparams
  have hnone : b₁.labels.lookup id = none := by
    rw [hsame]
    rfl
  have hacts := (acts_mapM (R := lawful cx (blockResults cx.program.store k)) (D := [])
    (fun _ _ => acts_regOf) hparams).1.trans (.of (.label hnone ⟨hid, d, k, hd, hk, rfl⟩))
  obtain ⟨hdrained, hle, -⟩ := drained_drainAll hcx hacts (by rw [hsame]; rfl) hdrain
  have hentry : F.labels.lookup id = some b₁.nextNode :=
    hle.labels ((lookup_cons_ite id id _ _).trans (if_pos rfl))
  refine ⟨⟨_, params, _, F.code, b₁.nextNode, d.entry⟩, F, ⟨hdrained, rfl, rfl, ?_, rfl⟩, hentry, ?_,
    ?_, Symbols.le_ofDefn _ _ _, Symbols.lookup_ofDefn _ _ _⟩
  · exact hdrained.isSome (hdrained.sound.labels hentry).2
  · exact (lookup_mapM (sound_new (R := lawful cx 0) s) hparams).imp fun _ _ ht => hle.regs ht
  · exact hacts.symbols.trans hle.symbols

theorem resolve_func (s : Store) (dom : Ty) (ρs : List Ty) :
    ((s.resolve (.func dom (.tuple ρs))).asFunc?.map fun q => width s q.2) = some ρs.length := by
  unfold Store.resolve
  cases s.cells.size with
  | zero => exact congrArg some (width_tuple s ρs)
  | succ fuel =>
      simp only [Store.resolveWith, Ty.func, Ty.mapVars, Ty.subst, Ty.asFunc?, Option.map_some,
        Ty.substList_eq_map, width_tuple, List.length_map]

/-- How the function of a closure is placed: the stored values are loaded from the record, and the
tail follows. -/
structure Opens (cx : Setting) (k : Closure) (raw : Function) (s : Symbols) (F : Builder) : Prop where
  parts : ∃ args b₂ b₄ b₅, raw.params = 1 :: args ∧ raw.entry = b₂.nextNode ∧
    Builds cx (k.args.mapM regOf) { Builder.new s with nextReg := 2 } args b₂ ∧
    Builds cx (k.params.zipIdx.forM fun (v, i) => do
        let r ← regOf v
        loadWord 1 (1 + i) r)
      { b₂ with nextNode := b₂.nextNode + 1, current := some b₂.nextNode } () b₄ ∧
    Builds cx (tail k.tail) b₄ () b₅ ∧ b₅.Le F

/-- A closure becomes a function of its record and its arguments. -/
theorem closureFunction_made (hcx : cx.Ready fields) (hid : id ∈ cx.program.reachable)
    (hd : cx.program.defns[id]? = some d) {k : Closure} (hk : d.body = .closure k) {l : Layout}
    (h : Builds cx (closureFunction id d k) (.new s) (f, l) b') :
    ∃ raw F results, Made cx results F raw f ∧ Opens cx k raw s F ∧
      raw.params.length = 1 + k.args.length ∧ l.function = raw.name ∧ l.stored = k.params.length ∧
      s.Le F.symbols ∧ F.symbols.Le b'.symbols ∧ b'.symbols.codeNames.lookup id = some raw.name := by
  obtain ⟨t, stored, τs, ρs, ht, hok, hroot, hdeclared, -⟩ := hcx.closure hid hd hk
  unfold closureFunction at h
  rw [Builds.freshReg_bind] at h
  obtain ⟨args, b₂, hargs, h⟩ := Builds.bind_iff.mp h
  rw [Builds.freshNode_bind, Builds.startAt_bind] at h
  obtain ⟨_, b₄, hloads, h⟩ := Builds.bind_iff.mp h
  obtain ⟨_, b₅, htail, h⟩ := Builds.bind_iff.mp h
  obtain ⟨_, F, hdrain, h⟩ := Builds.bind_iff.mp h
  obtain ⟨name, b₇, hname, h⟩ := Builds.bind_iff.mp h
  rw [Builds.read_bind] at h
  dsimp only at h
  obtain ⟨f', b₈, hfinish, h⟩ := Builds.bind_iff.mp h
  obtain ⟨closure, b₉, hclosure, h⟩ := Builds.bind_iff.mp h
  obtain ⟨heq, rfl⟩ := Builds.pure_iff.mp h
  cases heq
  obtain ⟨rfl, rfl⟩ := finish_iff.mp hfinish
  obtain ⟨rfl, rfl⟩ := Builds.codeSymbol_iff.mp hname
  obtain ⟨rfl, rfl⟩ := Builds.symbol_iff.mp hclosure
  rw [hdeclared, Option.bind_some, resolve_func, Option.getD_some]
  have hsame := regs_mapM hargs
  obtain ⟨hacts₁, hlen⟩ := acts_mapM (R := lawful cx ρs.length) (D := []) (fun _ _ => acts_regOf) hargs
  have hacts₂ : Acts (lawful cx ρs.length) []
      { b₂ with nextNode := b₂.nextNode + 1, current := some b₂.nextNode } [] b₄ := by
    refine acts_forM (fun q _ {b b'} hq => ?_) hloads
    obtain ⟨r, b₁, hr, hload⟩ := Builds.bind_iff.mp hq
    exact (acts_regOf hr).trans (acts_loadWord hload)
  rw [ht] at htail
  obtain ⟨hacts₃, hcur⟩ := acts_tail (D := []) hcx.words hok htail
  have hacts : Acts (lawful cx ρs.length) [] (.new s) [] b₅ :=
    .step .reg (hacts₁.trans (.step .node (.step (.start (by rw [hsame]; rfl)) (hacts₂.trans hacts₃))))
  obtain ⟨hdrained, hle, hcovers⟩ := drained_drainAll hcx hacts hcur hdrain
  refine ⟨⟨_, 1 :: args, _, F.code, b₂.nextNode, d.entry⟩, F, ρs.length,
    ⟨hdrained, rfl, rfl, ?_, rfl⟩, ⟨⟨args, b₂, b₄, b₅, rfl, rfl, hargs, hloads, ht ▸ htail, hle⟩⟩, ?_,
    rfl, rfl, hacts.symbols.trans hle.symbols, ?_, ?_⟩
  · exact hdrained.isSome (hcovers ((hacts₂.trans hacts₃).covers (.inr (.head _))))
  · rw [List.length_cons, hlen, Nat.add_comm]
  · exact (Symbols.le_ofCode _ _ _).trans (Symbols.le_ofDefn _ _ _)
  · exact (Symbols.le_ofDefn _ _ _).codes (Symbols.lookup_ofCode _ _ _)

theorem finish_init {init : String} {entry : Node} {g g' : Global} (h : Builds cx (do
      drainAll
      return (← finish init [] 0 entry false, g')) b (f, g) b') :
    Builds cx drainAll b () b' ∧
      f = (Function.mk init [] (0 : Nat) b'.code entry false).removeDead.1.tunnel := by
  obtain ⟨_, F, hdrain, h⟩ := Builds.bind_iff.mp h
  obtain ⟨f', b₇, hfinish, h⟩ := Builds.bind_iff.mp h
  obtain ⟨heq, rfl⟩ := Builds.pure_iff.mp h
  cases heq
  obtain ⟨rfl, rfl⟩ := finish_iff.mp hfinish
  exact ⟨hdrain, rfl⟩

theorem acts_globals {w : Nat} {D : List Node} {name : String} {words : List (Reg × Nat)} {u : Unit}
    (h : Builds cx (words.forM fun (r, i) => do
      let offset ← wordOffset i
      emit (.store (← read).chunk (.global name offset) [] r)) b u b') : Acts (lawful cx w) D b D b' :=
  acts_forM (fun q _ {b b'} hq => by
    rw [Builds.wordOffset_bind, Builds.read_bind] at hq
    exact acts_emit hq (fun _ => rfl) fun _ => trivial) h

/-- How the function of a top-level definition is placed: its tail is computed into registers, and these
are stored in the global if it comes back. -/
structure Starts (cx : Setting) (l : TopLevel) (raw : Function) (F : Builder) : Prop where
  parts : ∃ dests b₁ b₂ b₃, b₁.Sound (lawful cx 0) [] ∧ b₁.current = some raw.entry ∧
    Builds cx (freshRegs l.lhs.length) b₁ dests b₂ ∧ Builds cx (BuildM.bind dests l.tail) b₂ () b₃ ∧
    b₃.Le F ∧ (b₃.current = none ∨ ∃ name b₄ b₅, Builds cx (dests.zipIdx.forM fun (r, i) => do
        let offset ← wordOffset i
        emit (.store (← read).chunk (.global name offset) [] r)) b₃ () b₄ ∧
      Builds cx (terminate (.ret [])) b₄ () b₅ ∧ b₅.Le F)

/-- A top-level definition becomes a function that takes nothing and gives nothing. -/
theorem topFunction_made (hcx : cx.Ready fields) (hid : id ∈ cx.program.reachable)
    (hd : cx.program.defns[id]? = some d) {l : TopLevel} (hl : d.body = .top l) {g : Global}
    (h : Builds cx (topFunction id l) (.new s) (f, g) b') :
    ∃ raw init, Made cx 0 b' raw f ∧ Starts cx l raw b' ∧ raw.name = init.1 ∧ init.2.Le b'.symbols ∧
      init = (s.ofDefn cx.program id).2.reserve ("init_" ++ (s.ofDefn cx.program id).1) := by
  obtain ⟨t, τs, ht, hok, hroot, hlen⟩ := hcx.top hid hd hl
  unfold topFunction at h
  obtain ⟨name, b₁, hname, h⟩ := Builds.bind_iff.mp h
  obtain ⟨init, b₂, hinit, h⟩ := Builds.bind_iff.mp h
  rw [Builds.freshNode_bind, Builds.startAt_bind] at h
  obtain ⟨dests, b₄, hdests, h⟩ := Builds.bind_iff.mp h
  obtain ⟨_, b₅, hbind, h⟩ := Builds.bind_iff.mp h
  rw [Builds.isOpen_bind] at h
  rw [ht] at hbind
  have hrest : ∃ b₆, Acts (lawful cx 0) [] b₅ [] b₆ ∧ b₆.current = none ∧
      Builds cx drainAll b₆ () b' ∧ (b₅.current = none ∨ ∃ b₇, Builds cx (dests.zipIdx.forM fun (r, i) => do
          let offset ← wordOffset i
          emit (.store (← read).chunk (.global name offset) [] r)) b₅ () b₇ ∧
        Builds cx (terminate (.ret [])) b₇ () b₆) ∧
      f = (Function.mk init [] (0 : Nat) b'.code b₂.nextNode false).removeDead.1.tunnel := by
    split at h
    · obtain ⟨_, b₆, hstores, h⟩ := Builds.bind_iff.mp h
      obtain ⟨_, b₇, hret, h⟩ := Builds.bind_iff.mp h
      have hacts : Acts (lawful cx 0) [] b₅ [] b₆ := acts_globals hstores
      obtain ⟨hacts', hcur⟩ := acts_terminate (R := lawful cx 0) (D := []) hret rfl nofun
      obtain ⟨hdrain, hf⟩ := finish_init h
      exact ⟨b₇, hacts.trans hacts', hcur, hdrain, .inr ⟨b₆, hstores, hret⟩, hf⟩
    · rename_i hclosed
      have hcur : b₅.current = none := by simpa using hclosed
      obtain ⟨hdrain, hf⟩ := finish_init h
      exact ⟨b₅, .refl, hcur, hdrain, .inl hcur, hf⟩
  obtain ⟨b₆, hacts₂, hcur, hdrain, hends, rfl⟩ := hrest
  obtain ⟨hacts₁, hcount⟩ := acts_freshRegs (R := lawful cx 0) (D := []) hdests
  have hacts₁ := hacts₁.trans (acts_bind hcx.words hok hroot (hcount.trans hlen) hbind)
  have hinside := hacts₁.trans hacts₂
  rw [reserve, Builds.modifyGet_iff, Prod.mk.injEq] at hinit
  have hentry : Acts (lawful cx 0) [] (.new s) []
      { b₂ with nextNode := b₂.nextNode + 1, current := some b₂.nextNode } := by
    obtain ⟨-, rfl⟩ := Builds.symbol_iff.mp hname
    obtain ⟨-, rfl⟩ := hinit
    exact .step (.symbols (Symbols.le_ofDefn _ _ _)) (.step (.symbols (Symbols.le_reserve _ _))
      (.step .node (.of (.start rfl))))
  obtain ⟨rfl, rfl⟩ := Builds.symbol_iff.mp hname
  obtain ⟨rfl, rfl⟩ := hinit
  obtain ⟨hdrained, hle, hcovers⟩ := drained_drainAll hcx (hentry.trans hinside) hcur hdrain
  obtain ⟨hb, -⟩ := hentry.sound (sound_new s)
  obtain ⟨hb₅, -⟩ := hacts₁.sound hb
  obtain ⟨-, hle₂⟩ := hacts₂.sound hb₅
  refine ⟨_, _, ⟨hdrained, rfl, rfl, ?_, rfl⟩, ⟨_, _, _, _, hb, rfl, hdests, ht ▸ hbind, hle₂.trans hle, ?_⟩,
    rfl, hinside.symbols.trans hle.symbols, rfl⟩
  · exact hdrained.isSome (hcovers (hinside.covers (.inr (.head _))))
  · rcases hends with hcur | ⟨b₇, hstores, hret⟩
    · exact .inl hcur
    · exact .inr ⟨_, b₇, b₆, hstores, hret, hle⟩

end Functions

end Mil.Rtl
