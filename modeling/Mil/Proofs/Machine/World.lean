import Mil.Machine.Run
import Mil.Proofs.Ty.Instance

/-!
Types at run time. The machine looks at no type, so what matters is only at which types blocks,
closures and top-level definitions can be used. A world says that for all definitions of a program at
once, and it is coherent if every body bears out what the world says of its definition, relying on
nothing but the world for the definitions that it uses. There is a largest coherent world.

The rules for bodies take the types of temporaries from a list that grows with each binding, so they
also say that no temporary is read before it is bound.
-/

namespace Mil

namespace Ty

/-- The constructor at the head of a type. -/
def head? : Ty → Option Tycon
  | .con c => some c
  | .ap f _ => head? f
  | _ => none

/-- Values of the type are words. -/
def IsWord (t : Ty) : Prop :=
  ∃ c, t.head? = some c ∧ (c = .word ∨ c = .nzword ∨ c = .addr ∨ c = .bit ∨ c = .ix)

/-- Values of the type are built by constructors. -/
def IsData (t : Ty) : Prop := ∃ c, t.head? = some c ∧ (c = .unit ∨ ∃ name, c = .data name)

theorem head?_subst {f g : Nat → Ty} {t : Ty} {c : Tycon} (h : t.head? = some c) :
    (t.subst f g).head? = some c := by
  induction t with
  | con d => exact h
  | ap u a ihu _ =>
      rw [subst_ap]
      exact ihu h
  | var v => cases h
  | gen n => cases h
  | nat n => cases h
  | tuple ts _ => cases h

theorem head?_apply (t : Ty) (args : List Ty) : (apply t args).head? = t.head? := by
  induction args generalizing t with
  | nil => rfl
  | cons a args ih => exact ih (.ap t a)

end Ty

/-- The types of the fields and of the result of a constructor of the environment, with some types in
place of the parameters of the data type. -/
def Env.CfunAt (E : Env) (k : Cfun) (stored : List Ty) (result : Ty) : Prop :=
  E.cfun? k.name = some k ∧ ∃ types : List Ty, types.length = k.type.kinds.length ∧
    stored = k.type.stored.map (Ty.instantiate types) ∧ result = k.type.result.instantiate types

/-- Constructors build values of data types, and the type of a value settles the types of the fields
of its constructor. -/
structure Env.Shaped (E : Env) : Prop where
  isData : ∀ {k : Cfun} {stored : List Ty} {result : Ty}, E.CfunAt k stored result → result.IsData
  settled : ∀ {k : Cfun} {stored stored' : List Ty} {result : Ty}, E.CfunAt k stored result →
    E.CfunAt k stored' result → stored = stored'

namespace Machine

/-- At which types the definitions of a program can be used: blocks by their arguments and results,
closures by what they store, take and give, and top-level definitions by all their values. -/
structure World where
  block : DefnId → List Ty → Ty → Prop
  closure : DefnId → List Ty → List Ty → Ty → Prop
  tops : DefnId → List Ty → Prop
  external : DefnId → Prop

/-- Types of temporaries, the newest first. -/
abbrev LocalTypes := List (Temp × Ty)

/-- The types of temporaries after a binding. -/
def LocalTypes.bind (L : LocalTypes) (vars : List Temp) (τs : List Ty) : LocalTypes :=
  (vars.zip τs).reverse ++ L

/-- The type of an operand. Nothing is asked of an external, which has no value. -/
def AtomTyped (W : World) (L : LocalTypes) : Atom → Ty → Prop
  | .temp t, τ => L.lookup t = some τ
  | .lit (.word _), τ => τ = .word
  | .lit (.flag _), τ => τ = .flag
  | .top id index _, τ => W.external id ∨ ∃ τs, W.tops id τs ∧ τs[index]? = some τ

/-- The types of operands. -/
def AtomsTyped (W : World) (L : LocalTypes) (as : List Atom) (τs : List Ty) : Prop :=
  List.Forall₂ (AtomTyped W L) as τs

/-- The types of a primitive. One that never comes back may be used at any. -/
def PrimTyped (q : Prim) (τs : List Ty) (τ : Ty) : Prop :=
  q.op = .user ∨ q.op = .halt ∨ q.op = .loop ∨
    (q.purity = q.op.purity ∧ q.op.type = ⟨[], .tuple τs, τ⟩)

/-- The type of a call. -/
def CallTyped (W : World) (L : LocalTypes) (c : BlockCall) (τ : Ty) : Prop :=
  ∃ τs, W.block c.block τs τ ∧ AtomsTyped W L c.args τs

/-- The type of a tail, whatever instance is recorded at it. -/
inductive TailTyped (E : Env) (W : World) (L : LocalTypes) : Tail → Ty → Prop
  | ret {args : List Atom} {τs : List Ty} (hargs : AtomsTyped W L args τs) :
      TailTyped E W L (.ret args) (.tuple τs)
  | call {c : BlockCall} {τ : Ty} (hcall : CallTyped W L c τ) : TailTyped E W L (.call c) τ
  | prim {q : Prim} {args : List Atom} {inst : Option BlockType} {τs : List Ty} {τ : Ty}
      (hprim : PrimTyped q τs τ) (hargs : AtomsTyped W L args τs) :
      TailTyped E W L (.prim q args inst) τ
  | alloc {id : DefnId} {args : List Atom} {inst : Option AllocType} {stored τs : List Ty} {τ : Ty}
      (hclosure : W.closure id stored τs τ) (hargs : AtomsTyped W L args stored) :
      TailTyped E W L (.alloc id args inst) (.tuple [.func (.tuple τs) τ])
  | data {k : Cfun} {args : List Atom} {inst : Option AllocType} {stored : List Ty} {result : Ty}
      (hcfun : E.CfunAt k stored result) (hargs : AtomsTyped W L args stored) :
      TailTyped E W L (.data k args inst) (.tuple [result])
  | enter {fn : Atom} {args : List Atom} {τs : List Ty} {τ : Ty}
      (hfn : AtomTyped W L fn (.func (.tuple τs) τ)) (hargs : AtomsTyped W L args τs) :
      TailTyped E W L (.enter fn args) τ
  | sel {k : Cfun} {field : Int} {arg : Atom} {inst : Option AllocType} {stored : List Ty}
      {result τ : Ty} (hcfun : E.CfunAt k stored result) (hfield : stored[field.toNat]? = some τ)
      (harg : AtomTyped W L arg result) : TailTyped E W L (.sel k field arg inst) (.tuple [τ])

/-- The type of a body. A case looks at a value of a data type. -/
inductive CodeTyped (E : Env) (W : World) : LocalTypes → Code → Ty → Prop
  | bind {L : LocalTypes} {vars : List Temp} {tail : Tail} {next : Code} {τs : List Ty} {τ : Ty}
      (htail : TailTyped E W L tail (.tuple τs)) (hlen : vars.length = τs.length)
      (hnext : CodeTyped E W (L.bind vars τs) next τ) : CodeTyped E W L (.bind vars tail next) τ
  | done {L : LocalTypes} {tail : Tail} {τ : Ty} (htail : TailTyped E W L tail τ) :
      CodeTyped E W L (.done tail) τ
  | branch {L : LocalTypes} {cond : Atom} {t f : BlockCall} {τ : Ty}
      (hcond : AtomTyped W L cond .flag) (ht : CallTyped W L t τ) (hf : CallTyped W L f τ) :
      CodeTyped E W L (.branch cond t f) τ
  | case {L : LocalTypes} {scrut : Atom} {alts : List (Cfun × BlockCall)}
      {default : Option BlockCall} {σ τ : Ty} (hscrut : AtomTyped W L scrut σ) (hdata : σ.IsData)
      (halts : ∀ alt ∈ alts, CallTyped W L alt.2 τ)
      (hdefault : ∀ c, default = some c → CallTyped W L c τ) :
      CodeTyped E W L (.case scrut alts default) τ

/-- Every body bears out what the world says of its definition. -/
structure World.Coherent (W : World) (p : Program) : Prop where
  block : ∀ {id : DefnId} {τs : List Ty} {τ : Ty}, W.block id τs τ → ∃ d b code,
    p.defns[id]? = some d ∧ d.body = .block b ∧ b.body = some code ∧
    b.params.length = τs.length ∧ CodeTyped p.env W (LocalTypes.bind [] b.params τs) code τ
  closure : ∀ {id : DefnId} {stored τs : List Ty} {τ : Ty}, W.closure id stored τs τ → ∃ d k tail,
    p.defns[id]? = some d ∧ d.body = .closure k ∧ k.tail = some tail ∧
    k.params.length = stored.length ∧ k.args.length = τs.length ∧
    TailTyped p.env W ((LocalTypes.bind [] k.params stored).bind k.args τs) tail τ
  tops : ∀ {id : DefnId} {τs : List Ty}, W.tops id τs → ∃ d t tail,
    p.defns[id]? = some d ∧ d.body = .top t ∧ t.tail = some tail ∧
    TailTyped p.env W [] tail (.tuple τs)
  external : ∀ {id : DefnId}, W.external id → ∃ d e,
    p.defns[id]? = some d ∧ d.body = .external e ∧ e.impl = none

/-- The second world knows all that the first one knows. -/
structure World.Le (W W' : World) : Prop where
  block : ∀ id τs τ, W.block id τs τ → W'.block id τs τ
  closure : ∀ id stored τs τ, W.closure id stored τs τ → W'.closure id stored τs τ
  tops : ∀ id τs, W.tops id τs → W'.tops id τs
  external : ∀ id, W.external id → W'.external id

section Growth

variable {E : Env} {W W' : World} (h : W.Le W') {L : LocalTypes}

include h

theorem AtomTyped.mono {a : Atom} {τ : Ty} (ha : AtomTyped W L a τ) : AtomTyped W' L a τ := by
  cases a with
  | temp t => exact ha
  | lit l => cases l <;> exact ha
  | top id index site =>
      rcases ha with ha | ⟨τs, hτs, hget⟩
      · exact .inl (h.external id ha)
      · exact .inr ⟨τs, h.tops id τs hτs, hget⟩

theorem AtomsTyped.mono {as : List Atom} {τs : List Ty} (ha : AtomsTyped W L as τs) :
    AtomsTyped W' L as τs :=
  List.Forall₂.imp (fun _ _ ha => AtomTyped.mono h ha) ha

theorem CallTyped.mono {c : BlockCall} {τ : Ty} (hc : CallTyped W L c τ) : CallTyped W' L c τ := by
  obtain ⟨τs, hblock, hargs⟩ := hc
  exact ⟨τs, h.block _ _ _ hblock, hargs.mono h⟩

theorem TailTyped.mono {t : Tail} {τ : Ty} (ht : TailTyped E W L t τ) : TailTyped E W' L t τ := by
  cases ht with
  | ret hargs => exact .ret (hargs.mono h)
  | call hcall => exact .call (hcall.mono h)
  | prim hprim hargs => exact .prim hprim (hargs.mono h)
  | alloc hclosure hargs => exact .alloc (h.closure _ _ _ _ hclosure) (hargs.mono h)
  | data hcfun hargs => exact .data hcfun (hargs.mono h)
  | enter hfn hargs => exact .enter (hfn.mono h) (hargs.mono h)
  | sel hcfun hfield harg => exact .sel hcfun hfield (harg.mono h)

theorem CodeTyped.mono {c : Code} {τ : Ty} (hc : CodeTyped E W L c τ) : CodeTyped E W' L c τ := by
  induction hc with
  | bind htail hlen _ ih => exact .bind (htail.mono h) hlen ih
  | done htail => exact .done (htail.mono h)
  | branch hcond ht hf => exact .branch (hcond.mono h) (ht.mono h) (hf.mono h)
  | case hscrut hdata halts hdefault =>
      exact .case (hscrut.mono h) hdata (fun alt ha => (halts alt ha).mono h)
        fun c hc => (hdefault c hc).mono h

end Growth

end Machine

/-- The largest coherent world of a program. -/
def Program.world (p : Program) : Machine.World where
  block id τs τ := ∃ W : Machine.World, W.Coherent p ∧ W.block id τs τ
  closure id stored τs τ := ∃ W : Machine.World, W.Coherent p ∧ W.closure id stored τs τ
  tops id τs := ∃ W : Machine.World, W.Coherent p ∧ W.tops id τs
  external id := ∃ W : Machine.World, W.Coherent p ∧ W.external id

namespace Machine

variable {p : Program} {W : World}

theorem World.Coherent.le (h : W.Coherent p) : W.Le p.world :=
  ⟨fun _ _ _ hb => ⟨W, h, hb⟩, fun _ _ _ _ hk => ⟨W, h, hk⟩, fun _ _ ht => ⟨W, h, ht⟩,
    fun _ he => ⟨W, h, he⟩⟩

theorem coherent_world (p : Program) : p.world.Coherent p where
  block := by
    rintro id τs τ ⟨W, h, hb⟩
    obtain ⟨d, b, code, hd, hbody, hcode, hlen, htyped⟩ := h.block hb
    exact ⟨d, b, code, hd, hbody, hcode, hlen, htyped.mono h.le⟩
  closure := by
    rintro id stored τs τ ⟨W, h, hk⟩
    obtain ⟨d, k, tail, hd, hbody, htail, hlen, hlen', htyped⟩ := h.closure hk
    exact ⟨d, k, tail, hd, hbody, htail, hlen, hlen', htyped.mono h.le⟩
  tops := by
    rintro id τs ⟨W, h, ht⟩
    obtain ⟨d, t, tail, hd, hbody, htail, htyped⟩ := h.tops ht
    exact ⟨d, t, tail, hd, hbody, htail, htyped.mono h.le⟩
  external := by
    rintro id ⟨W, h, he⟩
    exact h.external he

/-! ### Values -/

/-- The type of a value. -/
inductive ValueHas (E : Env) (W : World) : Value → Ty → Prop
  | word {w : Word} {τ : Ty} (h : τ.IsWord) : ValueHas E W (.word w) τ
  | flag {b : Bool} : ValueHas E W (.flag b) .flag
  | closure {id : DefnId} {fields : List Value} {stored τs : List Ty} {τ : Ty}
      (hclosure : W.closure id stored τs τ) (hfields : List.Forall₂ (ValueHas E W) fields stored) :
      ValueHas E W (.closure id fields) (.func (.tuple τs) τ)
  | data {k : Cfun} {fields : List Value} {stored : List Ty} {result : Ty}
      (hcfun : E.CfunAt k stored result) (hfields : List.Forall₂ (ValueHas E W) fields stored) :
      ValueHas E W (.data k fields) result

section Values

variable {E : Env} {W : World} {v : Value} {τ : Ty}

theorem head?_func (dom rng : Ty) : (Ty.func dom rng).head? = some .func := rfl

theorem ValueHas.of_func {τs : List Ty} (hE : E.Shaped)
    (h : ValueHas E W v (.func (.tuple τs) τ)) :
    ∃ id fields stored, v = .closure id fields ∧ W.closure id stored τs τ ∧
      List.Forall₂ (ValueHas E W) fields stored := by
  generalize hρ : Ty.func (.tuple τs) τ = ρ at h
  have hhead : ρ.head? = some .func := by rw [← hρ, head?_func]
  cases h with
  | word h =>
      obtain ⟨c, hc, hword⟩ := h
      rw [hhead] at hc
      cases hc
      simp at hword
  | flag => cases hhead
  | closure hclosure hfields =>
      simp only [Ty.func, Ty.ap.injEq, Ty.tuple.injEq, true_and] at hρ
      obtain ⟨rfl, rfl⟩ := hρ
      exact ⟨_, _, _, rfl, hclosure, hfields⟩
  | data hcfun hfields =>
      obtain ⟨c, hc, hdata⟩ := hE.isData hcfun
      rw [hhead] at hc
      cases hc
      simp at hdata

theorem ValueHas.of_flag (hE : E.Shaped) (h : ValueHas E W v .flag) : ∃ b, v = .flag b := by
  generalize hρ : Ty.flag = ρ at h
  have hhead : ρ.head? = some .flag := by rw [← hρ]; rfl
  cases h with
  | word h =>
      obtain ⟨c, hc, hword⟩ := h
      rw [hhead] at hc
      cases hc
      simp at hword
  | flag => exact ⟨_, rfl⟩
  | closure hclosure hfields => cases hhead
  | data hcfun hfields =>
      obtain ⟨c, hc, hdata⟩ := hE.isData hcfun
      rw [hhead] at hc
      cases hc
      simp at hdata

theorem ValueHas.of_isWord (hE : E.Shaped) (h : ValueHas E W v τ) (hτ : τ.IsWord) :
    ∃ w, v = .word w := by
  obtain ⟨c, hc, hword⟩ := hτ
  cases h with
  | word h => exact ⟨_, rfl⟩
  | flag =>
      cases hc
      simp at hword
  | closure hclosure hfields =>
      cases hc
      simp at hword
  | data hcfun hfields =>
      obtain ⟨c', hc', hdata⟩ := hE.isData hcfun
      rw [hc] at hc'
      cases hc'
      rcases hword with rfl | rfl | rfl | rfl | rfl <;> simp at hdata

theorem ValueHas.of_isData (h : ValueHas E W v τ) (hτ : τ.IsData) :
    ∃ k fields stored, v = .data k fields ∧ E.CfunAt k stored τ ∧
      List.Forall₂ (ValueHas E W) fields stored := by
  obtain ⟨c, hc, hdata⟩ := hτ
  cases h with
  | word h =>
      obtain ⟨c', hc', hword⟩ := h
      rw [hc] at hc'
      cases hc'
      rcases hword with rfl | rfl | rfl | rfl | rfl <;> simp at hdata
  | flag =>
      cases hc
      simp at hdata
  | closure hclosure hfields =>
      cases hc
      simp at hdata
  | data hcfun hfields => exact ⟨_, _, _, rfl, hcfun, hfields⟩

end Values

end Machine

end Mil
