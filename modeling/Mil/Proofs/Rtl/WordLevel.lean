import Mil.Proofs.Machine.Safety
import Mil.Proofs.Program.Linked
import Mil.Rtl.Roots

/-!
Word-level programs: the form in which every value is carried by one word. Definitions are used at
their declared types only, which are lists of types that quantify nothing. A primitive works on words
and truth values. How a constructor lays out its fields at a type is given by a function, since the
fields of a data value are carried by words while the arguments of its type are as they were.

From the types follows what register transfer code relies on: definitions refer to definitions that
can be reached, and calls pass as many operands as their targets take.
-/

namespace Mil

open Typing

/-- The type of a primitive whose operands and results are carried by words. -/
def PrimOp.wordType (op : PrimOp) : BlockType :=
  match op with
  | .nzdiv => .ofLists [Ty.word, Ty.word] [Ty.word]
  | op =>
    match op.access? with
    | some ⟨_, false⟩ => .ofLists [Ty.word] [Ty.word]
    | some ⟨_, true⟩ => .ofLists [Ty.word, Ty.word] []
    | none => op.type

/-- A primitive at its word-level type. One that the program declares may have any, and one that
never comes back may give any results. -/
def Prim.OnWords (q : Prim) : Prop :=
  match q.op with
  | .user => ∃ τs ρs, q.type = .ofLists τs ρs
  | .halt | .loop => q.purity = q.op.purity ∧ ∃ ρs, q.type = .ofLists [] ρs
  | op => q.purity = op.purity ∧ q.type = op.wordType

/-- Only what stops the program never comes back. -/
theorem Prim.OnWords.returns {q : Prim} (hq : q.OnWords) (huser : q.op ≠ .user)
    (hhalt : q.op ≠ .halt) (hloop : q.op ≠ .loop) : q.doesntReturn = false := by
  unfold Prim.OnWords at hq
  split at hq
  · contradiction
  · contradiction
  · contradiction
  · unfold Prim.doesntReturn
    rw [hq.1]
    revert huser hhalt hloop
    generalize q.op = op
    cases op <;> decide

/-- How the fields of a constructor are laid out in the values of a type. -/
abbrev FieldLayout := Cfun → Ty → List Ty

/-- The types of the values that a definition binds at top level. -/
def DefnBody.valueTypes : DefnBody → List Ty
  | .top t => t.lhs.filterMap TopName.defining
  | .external e => e.declared.type.elems?.getD [e.declared.type]
  | _ => []

/-- What a word-level program may use, and at which types. -/
def Program.wordContext (p : Program) (fields : FieldLayout) : Context where
  atom := p.atomType
  read := id
  block id inst := ∃ d b, p.defns[id]? = some d ∧ d.body = .block b ∧ b.declared = some inst
  prim q inst := q.OnWords ∧ inst = q.type
  closure id inst := ∃ d k, p.defns[id]? = some d ∧ d.body = .closure k ∧ k.declared = some inst
  cfun k inst := p.env.cfun? k.name = some k ∧ inst.stored = fields k inst.result ∧
    ∃ name, k.data = .data name ∧ inst.result.head? = some k.data
  top id index t := ∃ d, p.defns[id]? = some d ∧ d.body.valueTypes[index]? = some t

/-- Operands are in scope in each part of a body. -/
def Code.Scoped : List Temp → Code → Prop
  | scope, .bind vars tail next => InScope scope tail.atoms ∧ next.Scoped (vars ++ scope)
  | scope, c => InScope scope c.atoms

namespace DefnBody

/-- Operands are in scope throughout a definition. -/
def Scoped : DefnBody → Prop
  | .block b => ∀ code, b.body = some code → code.Scoped b.params
  | .closure k => ∀ tail, k.tail = some tail → InScope (k.params ++ k.args) tail.atoms
  | .top t => ∀ tail, t.tail = some tail → InScope [] tail.atoms
  | .external _ => True

/-- The declared type is the final one and is given by lists. -/
def Listed : DefnBody → Prop
  | .block b => b.defining = b.declared ∧ ∃ τs ρs, b.declared = some (.ofLists τs ρs)
  | .closure k => k.defining = k.declared ∧
      ∃ stored τs ρs, k.declared = some ⟨[], stored, .func (.tuple τs) (.tuple ρs)⟩
  | _ => True

/-- A definition of a word-level program: it is typed and quantifies nothing, and its temporaries are
bound once, before they are read. -/
structure OnWords (p : Program) (fields : FieldLayout) (b : DefnBody) : Prop where
  typed : DefnHas (p.wordContext fields) b
  listed : b.Listed
  monomorphic : b.isPolymorphic = false
  inScope : b.Scoped
  single : (b.inputs ++ b.binders).Nodup

end DefnBody

/-- A word-level program: entrypoints are marked and references lead to definitions, the constructors
of a data type are numbered, and every definition that can be reached is one of a word-level program and
is not replaced by another. -/
structure Program.WordLevel (p : Program) (fields : FieldLayout) : Prop where
  standing : ∀ {id : DefnId} {d : Defn}, id ∈ p.reachable → p.defns[id]? = some d → d.replacedBy = none
  entries : ∀ {id : DefnId}, id ∈ p.entries → ∃ d, p.defns[id]? = some d ∧ d.entry = true
  references : ∀ {id : DefnId} {d : Defn}, p.defns[id]? = some d → ∀ r ∈ d.body.refs, r < p.defns.size
  tags : ∀ {name : String} {k : Cfun}, p.env.cfun? name = some k → k.tag < (p.env.cfunsOf k.data).length
  onWords : ∀ {id : DefnId} {d : Defn}, id ∈ p.reachable → p.defns[id]? = some d → d.body.OnWords p fields

namespace Program.WordLevel

variable {p : Program} {fields : FieldLayout} {id : DefnId} {d : Defn}

theorem resolve (h : p.WordLevel fields) (hid : id ∈ p.reachable) : p.resolve id = id :=
  resolve_of_standing fun hd => h.standing hid hd

theorem dependencies_eq (hd : p.defns[id]? = some d) : p.dependencies id = d.body.dependencies := by
  unfold Program.dependencies
  rw [hd]
  rfl

/-- Entrypoints can be reached, and what a definition refers to that can be reached. -/
theorem reachable (h : p.WordLevel fields) : (∀ id ∈ p.entries, id ∈ p.reachable) ∧
    ∀ {id : DefnId} {d : Defn}, id ∈ p.reachable → p.defns[id]? = some d → ∀ r ∈ d.body.refs, r ∈ p.reachable := by
  have hentries : ∀ id ∈ p.entries, id < p.defns.size := fun id hid => by
    obtain ⟨d, hd, -⟩ := h.entries hid
    exact (Array.getElem?_eq_some_iff.mp hd).1
  have hnext : ∀ i, i < p.defns.size → ∀ j ∈ p.dependencies i, j < p.defns.size := fun i _ j hj => by
    cases hd : p.defns[i]? with
    | none =>
        unfold Program.dependencies at hj
        rw [hd] at hj
        cases hj
    | some d =>
        rw [dependencies_eq hd] at hj
        exact h.references hd j (List.mem_eraseDups.mp hj)
  obtain ⟨hroot, hclosed, -⟩ := reachable_closed (fun _ => id) hentries hnext
  refine ⟨hroot, fun {i d} hi hd r hr => hclosed i hi r ?_⟩
  rw [dependencies_eq hd]
  exact List.mem_eraseDups.mpr hr

end Program.WordLevel

/-- A program that makes a closure, enters it, prints what it gives and jumps to a block with it. -/
def adder : Program where
  env := .empty
  prims := .builtins
  defns := #[
    ⟨"main", .builtin, true, none, .block (.typed [0]
      (some (.bind [1] (.alloc 1 [.temp 0] (some ⟨[], [.word], .func (.tuple [.word]) (.tuple [.word])⟩))
        (.bind [2] (.enter (.temp 1) [.temp 0])
          (.bind [] (.prim (.builtin .printWord) [.temp 2] (some PrimOp.printWord.type))
            (.done (.call ⟨2, [.temp 2], some (.ofLists [.word] [.word])⟩))))))
      (.ofLists [.word] [.word]))⟩,
    ⟨"plus", .builtin, false, none, .closure (.typed [3] [4]
      (some (.prim (.builtin .add) [.temp 3, .temp 4] (some PrimOp.add.type)))
      ⟨[], [.word], .func (.tuple [.word]) (.tuple [.word])⟩)⟩,
    ⟨"last", .builtin, false, none, .block (.typed [5] (some (.done (.ret [.temp 5])))
      (.ofLists [.word] [.word]))⟩]
  entries := [0]
  names := []
  temps := #[some .word, some (.func (.tuple [.word]) (.tuple [.word])), some .word, some .word,
    some .word, some .word]
  sites := #[]
  store := .empty

theorem adder_wordLevel : adder.WordLevel fun _ _ => [] := by
  have hcases : ∀ {id : DefnId} {d : Defn}, adder.defns[id]? = some d →
      id = 0 ∧ d = adder.defns[0] ∨ id = 1 ∧ d = adder.defns[1] ∨ id = 2 ∧ d = adder.defns[2] := by
    intro id d hd
    match id with
    | 0 | 1 | 2 => cases hd; simp
    | n + 3 => cases hd
  have htemp : ∀ {t τ}, adder.atomType (.temp t) = some τ →
      AtomHas (adder.wordContext fun _ _ => []) (.temp t) τ := fun h => ⟨_, h, rfl, nofun⟩
  constructor
  · intro id d _ hd
    rcases hcases hd with ⟨-, rfl⟩ | ⟨-, rfl⟩ | ⟨-, rfl⟩ <;> rfl
  · intro id hid
    rw [List.mem_singleton.mp hid]
    exact ⟨_, rfl, rfl⟩
  · intro id d hd
    rcases hcases hd with ⟨-, rfl⟩ | ⟨-, rfl⟩ | ⟨-, rfl⟩ <;> decide
  · intro name k hk
    unfold Env.cfun? at hk
    split at hk
    · cases hk
      decide
    · cases hk
  · intro id d _ hd
    rcases hcases hd with ⟨-, rfl⟩ | ⟨-, rfl⟩ | ⟨-, rfl⟩
    · refine ⟨.block rfl rfl rfl (.cons (htemp rfl) .nil) ?_, ⟨rfl, _, _, rfl⟩, rfl, ?_, by decide⟩
      · refine .bind (.alloc ⟨_, _, rfl, rfl, rfl⟩ (.cons (htemp rfl) .nil)) (.cons (htemp rfl) .nil)
          (.bind (.enter (htemp rfl) (.cons (htemp rfl) .nil)) (.cons (htemp rfl) .nil)
            (.bind (.prim ⟨⟨rfl, rfl⟩, rfl⟩ rfl (.cons (htemp rfl) .nil)) .nil
              (.done (.call (.mk ⟨_, _, rfl, rfl, rfl⟩ rfl (.cons (htemp rfl) .nil))))))
      · rintro code ⟨⟩
        simp [Code.Scoped, InScope, Tail.atoms, Code.atoms, Block.typed]
    · refine ⟨.closure rfl rfl rfl (.cons (htemp rfl) .nil) (.cons (htemp rfl) .nil)
        (.prim ⟨⟨rfl, rfl⟩, rfl⟩ rfl (.cons (htemp rfl) (.cons (htemp rfl) .nil))), ⟨rfl, _, _, _, rfl⟩, rfl,
        ?_, by decide⟩
      rintro tail ⟨⟩
      simp [InScope, Tail.atoms, Closure.typed]
    · refine ⟨.block rfl rfl rfl (.cons (htemp rfl) .nil) (.done (.ret (.cons (htemp rfl) .nil))),
        ⟨rfl, _, _, rfl⟩, rfl, ?_, by decide⟩
      rintro code ⟨⟩
      simp [Code.Scoped, InScope, Tail.atoms, Code.atoms, Block.typed]

/-! ### What the types of tails say -/

namespace Typing

variable {p : Program} {fields : FieldLayout} {args : List Atom} {τ : Ty}

/-- Types are read as they are recorded. -/
theorem map_read (p : Program) (fields : FieldLayout) (τs : List Ty) :
    τs.map (p.wordContext fields).read = τs :=
  List.map_id τs

theorem length_of_argsHave {Γ : Context} {as : List Atom} {τs : List Ty} (h : ArgsHave Γ as τs) :
    as.length = τs.length :=
  List.Forall₂.length_eq h

theorem CallHas.inv {c : BlockCall} (h : CallHas (p.wordContext fields) c τ) :
    ∃ d b type τs, p.defns[c.block]? = some d ∧ d.body = .block b ∧ b.declared = some type ∧
      type.dom = .tuple τs ∧ type.rng = τ ∧ ArgsHave (p.wordContext fields) c.args τs := by
  cases h with
  | mk huse hdom hargs =>
      obtain ⟨d, b, hd, hb, htype⟩ := huse
      exact ⟨d, b, _, _, hd, hb, htype, hdom, rfl, hargs⟩

theorem TailHas.ret_inv (h : TailHas (p.wordContext fields) (.ret args) τ) :
    ∃ τs, τ = .tuple τs ∧ ArgsHave (p.wordContext fields) args τs := by
  cases h with
  | ret hargs => exact ⟨_, rfl, hargs⟩

theorem TailHas.prim_inv {q : Prim} {inst : Option BlockType}
    (h : TailHas (p.wordContext fields) (.prim q args inst) τ) :
    q.OnWords ∧ q.type.rng = τ ∧
      ∃ τs, q.type.dom = .tuple τs ∧ ArgsHave (p.wordContext fields) args τs := by
  cases h with
  | prim huse hdom hargs =>
      obtain ⟨hq, rfl⟩ := huse
      exact ⟨hq, rfl, _, hdom, hargs⟩

theorem TailHas.alloc_inv {id : DefnId} {inst : Option AllocType}
    (h : TailHas (p.wordContext fields) (.alloc id args inst) τ) :
    ∃ d k type, p.defns[id]? = some d ∧ d.body = .closure k ∧ k.declared = some type ∧
      τ = .tuple [type.result] ∧ ArgsHave (p.wordContext fields) args type.stored := by
  cases h with
  | alloc huse hargs =>
      obtain ⟨d, k, hd, hk, htype⟩ := huse
      rw [map_read] at hargs
      exact ⟨d, k, _, hd, hk, htype, rfl, hargs⟩

theorem TailHas.data_inv {k : Cfun} {inst : Option AllocType}
    (h : TailHas (p.wordContext fields) (.data k args inst) τ) :
    ∃ type, (p.wordContext fields).cfun k type ∧ τ = .tuple [type.result] ∧
      ArgsHave (p.wordContext fields) args type.stored := by
  cases h with
  | data huse hargs =>
      rw [map_read] at hargs
      exact ⟨_, huse, rfl, hargs⟩

theorem TailHas.enter_inv {fn : Atom} (h : TailHas (p.wordContext fields) (.enter fn args) τ) :
    ∃ τs, AtomHas (p.wordContext fields) fn (.func (.tuple τs) τ) ∧
      ArgsHave (p.wordContext fields) args τs := by
  cases h with
  | enter hfn hargs => exact ⟨_, hfn, hargs⟩

theorem TailHas.sel_inv {k : Cfun} {field : Int} {arg : Atom} {inst : Option AllocType}
    (h : TailHas (p.wordContext fields) (.sel k field arg inst) τ) :
    ∃ type t, (p.wordContext fields).cfun k type ∧ 0 ≤ field ∧
      type.stored[field.toNat]? = some t ∧ AtomHas (p.wordContext fields) arg type.result ∧
      τ = .tuple [t] := by
  cases h with
  | sel huse hfield ht harg => exact ⟨_, _, huse, hfield, ht, harg, rfl⟩

/-- A block takes as many values as its type says. -/
theorem DefnHas.params_length {b : Block} {type : BlockType} {τs : List Ty}
    (hb : DefnHas (p.wordContext fields) (.block b)) (htype : b.defining = some type)
    (hdom : type.dom = .tuple τs) : b.params.length = τs.length := by
  cases hb with
  | block htype' _ hdom' hparams _ =>
      rw [htype] at htype'
      cases htype'
      have hdom' := hdom.symm.trans hdom'
      cases hdom'
      simpa using length_of_argsHave hparams

/-- A call passes as many operands as its target takes. -/
theorem CallHas.fits (hp : p.WordLevel fields) {c : BlockCall} (hreach : c.block ∈ p.reachable)
    (h : CallHas (p.wordContext fields) c τ) :
    ∃ d b type, p.defns[c.block]? = some d ∧ d.body = .block b ∧ b.declared = some type ∧
      type.rng = τ ∧ c.args.length = b.params.length := by
  obtain ⟨d, b, type, τs, hd, hb, htype, hdom, hrng, hargs⟩ := h.inv
  have hon := hp.onWords hreach hd
  rw [hb] at hon
  have hlen := hon.typed.params_length (hon.listed.1.trans htype) hdom
  exact ⟨d, b, type, hd, hb, htype, hrng, by rw [length_of_argsHave hargs, hlen]⟩

end Typing

/-! ### Roots -/

namespace Rtl.Roots

variable {p : Mil.Program} {ids : List DefnId} {next : DefnId → List DefnId} {P : DefnId → Prop}

/-- Functions are only added. -/
theorem claim_roots (next : DefnId → List DefnId) (root : DefnId) (fuel : Nat)
    (seen work : List DefnId) (s : Search) : s.roots ⊆ (claim next root fuel seen work s).roots := by
  fun_induction claim next root fuel seen work s with
  | case1 => exact fun _ h => h
  | case2 => exact fun _ h => h
  | case3 _ _ _ _ _ _ ih => exact ih
  | case4 _ _ _ _ _ _ _ _ _ ih => exact fun _ h => ih (.tail _ h)
  | case5 _ _ _ _ _ _ _ _ _ ih => exact ih
  | case6 _ _ _ _ _ _ _ ih => exact ih

/-- Only what is jumped to becomes a function. -/
theorem claim_of (hnext : ∀ v, ∀ w ∈ next v, P w) (root : DefnId) (fuel : Nat)
    (seen work : List DefnId) (s : Search) (hwork : ∀ v ∈ work, P v) (hs : ∀ v ∈ s.roots, P v) :
    ∀ v ∈ (claim next root fuel seen work s).roots, P v := by
  have hpush : ∀ {b : DefnId} {rest : List DefnId}, (∀ v ∈ rest, P v) →
      ∀ v ∈ (next b).reverse ++ rest, P v := fun hrest v hv =>
    (List.mem_append.mp hv).elim (fun hv => hnext _ v (List.mem_reverse.mp hv)) (hrest v)
  fun_induction claim next root fuel seen work s with
  | case1 => exact hs
  | case2 => exact hs
  | case3 _ _ _ _ _ _ ih => exact ih (fun v hv => hwork v (.tail _ hv)) hs
  | case4 _ _ _ _ _ _ _ _ _ ih =>
      refine ih (fun v hv => hwork v (.tail _ hv)) fun v hv => ?_
      rcases List.mem_cons.mp hv with rfl | hv
      · exact hwork _ (.head _)
      · exact hs v hv
  | case5 _ _ _ _ _ _ _ _ _ ih => exact ih (hpush fun v hv => hwork v (.tail _ hv)) hs
  | case6 _ _ _ _ _ _ _ ih => exact ih (hpush fun v hv => hwork v (.tail _ hv)) hs

theorem claimAll_roots (next : DefnId → List DefnId) (fuel : Nat) (roots : List DefnId) :
    roots ⊆ (claimAll next fuel roots).roots := by
  unfold claimAll
  generalize roots.mergeSort (· ≤ ·) = order
  have hfold : ∀ s : Search, s.roots ⊆
      (order.foldl (fun s r => claim next r fuel [r] (next r).reverse s) s).roots := by
    induction order with
    | nil => exact fun s _ h => h
    | cons r order ih => exact fun s _ h => ih _ (claim_roots next r fuel _ _ s h)
  exact hfold ⟨roots, [], false⟩

theorem claimAll_of (hnext : ∀ v, ∀ w ∈ next v, P w) (fuel : Nat) {roots : List DefnId}
    (hroots : ∀ v ∈ roots, P v) : ∀ v ∈ (claimAll next fuel roots).roots, P v := by
  unfold claimAll
  generalize roots.mergeSort (· ≤ ·) = order
  have hfold : ∀ s : Search, (∀ v ∈ s.roots, P v) → ∀ v ∈
      (order.foldl (fun s r => claim next r fuel [r] (next r).reverse s) s).roots, P v := by
    induction order with
    | nil => exact fun s hs => hs
    | cons r order ih =>
        exact fun s hs => ih _ (claim_of hnext r fuel _ _ s
          (fun v hv => hnext r v (List.mem_reverse.mp hv)) hs)
  exact hfold ⟨roots, [], false⟩ hroots

theorem close_roots (next : DefnId → List DefnId) (fuel rounds : Nat) (roots : List DefnId) :
    roots ⊆ close next fuel rounds roots := by
  induction rounds generalizing roots with
  | zero => exact fun _ h => h
  | succ rounds ih =>
      unfold close
      dsimp only
      split
      · exact fun _ h => ih _ (claimAll_roots next fuel roots h)
      · exact claimAll_roots next fuel roots

theorem close_of (hnext : ∀ v, ∀ w ∈ next v, P w) (fuel rounds : Nat) {roots : List DefnId}
    (hroots : ∀ v ∈ roots, P v) : ∀ v ∈ close next fuel rounds roots, P v := by
  induction rounds generalizing roots with
  | zero => exact hroots
  | succ rounds ih =>
      unfold close
      dsimp only
      split
      · exact ih (claimAll_of hnext fuel hroots)
      · exact claimAll_of hnext fuel hroots

/-- What a definition makes functions of becomes functions. -/
theorem required_subset {id : DefnId} (hid : id ∈ ids) : required p id ⊆ ofDefns p ids :=
  fun _ hv => close_roots _ _ _ _
    (List.mem_eraseDups.mpr (List.mem_flatMap.mpr ⟨id, hid, hv⟩))

/-- A block that is an entrypoint becomes a function. -/
theorem mem_ofDefns_of_entry {id : DefnId} {d : Defn} {b : Block} (hid : id ∈ ids)
    (hd : p.defns[id]? = some d) (hb : d.body = .block b) (hentry : d.entry = true) :
    id ∈ ofDefns p ids := by
  refine required_subset hid ?_
  unfold required
  rw [hd]
  dsimp only
  rw [hb]
  dsimp only
  rw [hentry, if_pos rfl]
  exact List.mem_append_left _ (.head _)

/-- Functions are made of definitions that are required or jumped to. -/
theorem ofDefns_of (hrequired : ∀ id ∈ ids, ∀ v ∈ required p id, P v)
    (hjumps : ∀ id ∈ ids, ∀ v ∈ jumpsOf p id, P v) : ∀ v ∈ ofDefns p ids, P v := by
  refine close_of (fun v w hw => ?_) _ _ fun v hv => ?_
  · split at hw
    · rename_i hv
      exact hjumps v hv w hw
    · cases hw
  · obtain ⟨id, hid, hv⟩ := List.mem_flatMap.mp (List.mem_eraseDups.mp hv)
    exact hrequired id hid v hv

end Rtl.Roots

end Mil
