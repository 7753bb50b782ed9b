import Mathlib.Data.List.Forall2
import Mil.Proofs.Ty.Instance
import Mil.Typing.Check

/-!
The typing rules of bodies. A context says which type is recorded for an operand, how recorded types
are read, and at which types blocks, primitives, closures, constructors and top-level values may be
used. Every rule checks the operands of one operation against the type that is recorded at it, and
that the recorded type is one at which its target may be used.

The rules only ever ask for more recorded types and more permitted uses, so a derivation stays one
when the context grows.
-/

namespace Mil.Typing

/-- What the rules are relative to. -/
structure Context where
  atom : Atom → Option Ty
  read : Ty → Ty
  block : DefnId → BlockType → Prop
  prim : Prim → BlockType → Prop
  closure : DefnId → AllocType → Prop
  cfun : Cfun → AllocType → Prop
  top : DefnId → Nat → Ty → Prop

/-- The type recorded for an operand is read as `τ`; a reference is used at a permitted type. -/
def AtomHas (Γ : Context) (a : Atom) (τ : Ty) : Prop :=
  ∃ t, Γ.atom a = some t ∧ Γ.read t = τ ∧ ∀ id index site, a = .top id index site → Γ.top id index t

/-- Operands have types, position by position. -/
def ArgsHave (Γ : Context) (args : List Atom) (τs : List Ty) : Prop :=
  List.Forall₂ (AtomHas Γ) args τs

/-- A call gives results of a tuple type. -/
inductive CallHas (Γ : Context) : BlockCall → Ty → Prop
  | mk {id : DefnId} {args : List Atom} {inst : BlockType} {τs : List Ty} (huse : Γ.block id inst)
      (hdom : Γ.read inst.dom = .tuple τs) (hargs : ArgsHave Γ args τs) :
      CallHas Γ ⟨id, args, some inst⟩ (Γ.read inst.rng)

/-- A tail gives results of a tuple type. -/
inductive TailHas (Γ : Context) : Tail → Ty → Prop
  | ret {args : List Atom} {τs : List Ty} (hargs : ArgsHave Γ args τs) :
      TailHas Γ (.ret args) (.tuple τs)
  | call {c : BlockCall} {τ : Ty} (hcall : CallHas Γ c τ) : TailHas Γ (.call c) τ
  | prim {q : Prim} {args : List Atom} {inst : BlockType} {τs : List Ty} (huse : Γ.prim q inst)
      (hdom : Γ.read inst.dom = .tuple τs) (hargs : ArgsHave Γ args τs) :
      TailHas Γ (.prim q args (some inst)) (Γ.read inst.rng)
  | alloc {id : DefnId} {args : List Atom} {inst : AllocType} (huse : Γ.closure id inst)
      (hargs : ArgsHave Γ args (inst.stored.map Γ.read)) :
      TailHas Γ (.alloc id args (some inst)) (.tuple [Γ.read inst.result])
  | data {k : Cfun} {args : List Atom} {inst : AllocType} (huse : Γ.cfun k inst)
      (hargs : ArgsHave Γ args (inst.stored.map Γ.read)) :
      TailHas Γ (.data k args (some inst)) (.tuple [Γ.read inst.result])
  | enter {fn : Atom} {args : List Atom} {τs : List Ty} {τ : Ty}
      (hfn : AtomHas Γ fn (.func (.tuple τs) τ)) (hargs : ArgsHave Γ args τs) :
      TailHas Γ (.enter fn args) τ
  | sel {k : Cfun} {field : Int} {arg : Atom} {inst : AllocType} {t : Ty} (huse : Γ.cfun k inst)
      (hfield : 0 ≤ field) (ht : inst.stored[field.toNat]? = some t)
      (harg : AtomHas Γ arg (Γ.read inst.result)) :
      TailHas Γ (.sel k field arg (some inst)) (.tuple [Γ.read t])

/-- A body gives results of a tuple type. All branches give the same, and a case looks at a value
of the type that each of its constructors builds. -/
inductive CodeHas (Γ : Context) : Code → Ty → Prop
  | bind {vars : List Temp} {tail : Tail} {next : Code} {τs : List Ty} {τ : Ty}
      (htail : TailHas Γ tail (.tuple τs)) (hvars : ArgsHave Γ (vars.map .temp) τs)
      (hnext : CodeHas Γ next τ) : CodeHas Γ (.bind vars tail next) τ
  | done {tail : Tail} {τ : Ty} (htail : TailHas Γ tail τ) : CodeHas Γ (.done tail) τ
  | branch {cond : Atom} {t f : BlockCall} {τ : Ty} (hcond : AtomHas Γ cond .flag)
      (ht : CallHas Γ t τ) (hf : CallHas Γ f τ) : CodeHas Γ (.branch cond t f) τ
  | case {scrut : Atom} {alts : List (Cfun × BlockCall)} {default : Option BlockCall} {σ τ : Ty}
      (hscrut : AtomHas Γ scrut σ)
      (halts : ∀ alt ∈ alts, (∃ inst, Γ.cfun alt.1 inst ∧ Γ.read inst.result = σ) ∧
        CallHas Γ alt.2 τ)
      (hdefault : ∀ c, default = some c → CallHas Γ c τ) : CodeHas Γ (.case scrut alts default) τ

/-- A definition has its working type: parameters take it apart and the body gives its range. -/
inductive DefnHas (Γ : Context) : DefnBody → Prop
  | block {b : Block} {type : BlockType} {code : Code} {τs : List Ty}
      (htype : b.defining = some type) (hbody : b.body = some code)
      (hdom : Γ.read type.dom = .tuple τs) (hparams : ArgsHave Γ (b.params.map .temp) τs)
      (hcode : CodeHas Γ code (Γ.read type.rng)) : DefnHas Γ (.block b)
  | closure {k : Closure} {type : AllocType} {tail : Tail} {τs : List Ty} {τ : Ty}
      (htype : k.defining = some type) (htail : k.tail = some tail)
      (hresult : Γ.read type.result = .func (.tuple τs) τ)
      (hparams : ArgsHave Γ (k.params.map .temp) (type.stored.map Γ.read))
      (hargs : ArgsHave Γ (k.args.map .temp) τs) (hbody : TailHas Γ tail τ) :
      DefnHas Γ (.closure k)
  | top {t : TopLevel} {types : List Ty} {tail : Tail}
      (htypes : t.lhs.map TopName.defining = types.map some) (htail : t.tail = some tail)
      (hbody : TailHas Γ tail (.tuple (types.map Γ.read))) : DefnHas Γ (.top t)
  | external {e : External} : DefnHas Γ (.external e)

/-- A context that reads types alike, records more of them and permits more uses. -/
structure Context.Le (Γ Γ' : Context) : Prop where
  atom : ∀ a t, Γ.atom a = some t → Γ'.atom a = some t
  read : Γ'.read = Γ.read
  block : ∀ id inst, Γ.block id inst → Γ'.block id inst
  prim : ∀ q inst, Γ.prim q inst → Γ'.prim q inst
  closure : ∀ id inst, Γ.closure id inst → Γ'.closure id inst
  cfun : ∀ k inst, Γ.cfun k inst → Γ'.cfun k inst
  top : ∀ id index t, Γ.top id index t → Γ'.top id index t

section Growth

variable {Γ Γ' : Context} (h : Γ.Le Γ')

include h

theorem AtomHas.mono {a : Atom} {τ : Ty} (ha : AtomHas Γ a τ) : AtomHas Γ' a τ := by
  obtain ⟨t, ht, hread, htop⟩ := ha
  exact ⟨t, h.atom a t ht, by rw [h.read, hread],
    fun id index site he => h.top id index t (htop id index site he)⟩

theorem ArgsHave.mono {args : List Atom} {τs : List Ty} (ha : ArgsHave Γ args τs) :
    ArgsHave Γ' args τs :=
  List.Forall₂.imp (fun _ _ ha => AtomHas.mono h ha) ha

theorem CallHas.mono {c : BlockCall} {τ : Ty} (hc : CallHas Γ c τ) : CallHas Γ' c τ := by
  cases hc with
  | mk huse hdom hargs =>
      rw [← h.read] at hdom ⊢
      exact .mk (h.block _ _ huse) hdom (hargs.mono h)

theorem TailHas.mono {t : Tail} {τ : Ty} (ht : TailHas Γ t τ) : TailHas Γ' t τ := by
  cases ht with
  | ret hargs => exact .ret (hargs.mono h)
  | call hcall => exact .call (hcall.mono h)
  | prim huse hdom hargs =>
      rw [← h.read] at hdom ⊢
      exact .prim (h.prim _ _ huse) hdom (hargs.mono h)
  | alloc huse hargs =>
      rw [← h.read] at hargs ⊢
      exact .alloc (h.closure _ _ huse) (hargs.mono h)
  | data huse hargs =>
      rw [← h.read] at hargs ⊢
      exact .data (h.cfun _ _ huse) (hargs.mono h)
  | enter hfn hargs => exact .enter (hfn.mono h) (hargs.mono h)
  | sel huse hfield ht harg =>
      rw [← h.read] at harg ⊢
      exact .sel (h.cfun _ _ huse) hfield ht (harg.mono h)

theorem CodeHas.mono {c : Code} {τ : Ty} (hc : CodeHas Γ c τ) : CodeHas Γ' c τ := by
  induction hc with
  | bind htail hvars _ ih => exact .bind (htail.mono h) (hvars.mono h) ih
  | done htail => exact .done (htail.mono h)
  | branch hcond ht hf => exact .branch (hcond.mono h) (ht.mono h) (hf.mono h)
  | case hscrut halts hdefault =>
      refine .case (hscrut.mono h) (fun alt ha => ?_) fun c hc => (hdefault c hc).mono h
      obtain ⟨⟨inst, huse, hresult⟩, hcall⟩ := halts alt ha
      exact ⟨⟨inst, h.cfun _ _ huse, by rw [h.read, hresult]⟩, hcall.mono h⟩

theorem DefnHas.mono {b : DefnBody} (hb : DefnHas Γ b) : DefnHas Γ' b := by
  cases hb with
  | block htype hbody hdom hparams hcode =>
      rw [← h.read] at hdom hcode
      exact .block htype hbody hdom (hparams.mono h) (hcode.mono h)
  | closure htype htail hresult hparams hargs hbody =>
      rw [← h.read] at hresult hparams
      exact .closure htype htail hresult (hparams.mono h) (hargs.mono h) (hbody.mono h)
  | top htypes htail hbody =>
      rw [← h.read] at hbody
      exact .top htypes htail (hbody.mono h)
  | external => exact .external

end Growth

end Mil.Typing
