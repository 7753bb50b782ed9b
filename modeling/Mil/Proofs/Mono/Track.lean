import Mil.Mono.Fill
import Mil.Proofs.Program.Names
import Mil.Proofs.Program.Outline
import Mil.Proofs.Ty.Reader

/-!
Copies of bodies. A copy has new temporaries in place of the old ones, and every reference leads to a
definition that serves the one referred to; which definitions serve which is a relation that grows
while copies are made. Apart from types, nothing else differs.

A binding takes temporaries that stand for no others yet. So whatever the old temporaries are given,
types by a rule or values by the machine, can be given to the new ones in the same way.
-/

namespace Mil.Mono

/-- New temporaries are distinct and stand for no old ones yet. -/
structure Renames.Fresh (env : Renames) (vs : List Temp) : Prop where
  nodup : vs.Nodup
  unused : ∀ u ∈ vs, u ∉ env.map Prod.snd

/-- The renaming after a binding. -/
def Renames.extend (env : Renames) (vars vs : List Temp) : Renames := (vars.zip vs).reverse ++ env

/-- What is given to an old temporary is related to what is given to the new one that stands for
it. -/
def Renames.Carries {α β : Type} (env : Renames) (R : α → β → Prop) (L : List (Temp × α))
    (L' : List (Temp × β)) : Prop :=
  ∀ t a, L.lookup t = some a → ∀ u, env.lookup t = some u → ∃ b, L'.lookup u = some b ∧ R a b

section Carries

variable {α β : Type} {env : Renames} {R : α → β → Prop} {L : List (Temp × α)} {L' : List (Temp × β)}

theorem Renames.Carries.nil (env : Renames) (L' : List (Temp × β)) : env.Carries R [] L' :=
  fun _ _ h => nomatch h

theorem Renames.mem_of_lookup {t u : Temp} (h : env.lookup t = some u) : u ∈ env.map Prod.snd := by
  obtain ⟨before, after, rfl, -⟩ := List.lookup_eq_some_iff.mp h
  simp

theorem Renames.Carries.cons (h : env.Carries R L L') {x u : Temp} (hu : u ∉ env.map Prod.snd)
    {a : α} {b : β} (hab : R a b) :
    Renames.Carries ((x, u) :: env) R ((x, a) :: L) ((u, b) :: L') := by
  intro t a' ha' w hw
  rw [List.lookup_cons] at ha' hw ⊢
  by_cases htx : (t == x) = true
  · rw [htx] at ha' hw
    cases ha'
    cases hw
    rw [beq_self_eq_true]
    exact ⟨b, rfl, hab⟩
  · rw [Bool.eq_false_iff.mpr htx] at ha' hw
    have hwu : (w == u) = false := by
      rw [beq_eq_false_iff_ne]
      rintro rfl
      exact hu (mem_of_lookup hw)
    rw [hwu]
    exact h t a' ha' w hw

/-- What a binding gives to the old temporaries is related to what it gives to the new ones. -/
theorem Renames.Carries.extend (h : env.Carries R L L') {vars vs : List Temp} {as : List α}
    {bs : List β} (hlen : vs.length = vars.length) (hlen' : as.length = vars.length)
    (hfresh : env.Fresh vs) (hab : List.Forall₂ R as bs) :
    (env.extend vars vs).Carries R ((vars.zip as).reverse ++ L) ((vs.zip bs).reverse ++ L') := by
  induction vars generalizing env L L' vs as bs with
  | nil =>
      rw [List.length_eq_zero_iff.mp hlen]
      exact h
  | cons x vars ih =>
      obtain ⟨u, vs, rfl⟩ := List.exists_cons_of_length_eq_add_one hlen
      obtain ⟨a, as, rfl⟩ := List.exists_cons_of_length_eq_add_one hlen'
      cases hab with
      | @cons _ b _ bs hab hrest =>
          obtain ⟨hu, hnodup⟩ := List.nodup_cons.mp hfresh.nodup
          have hfresh' : Renames.Fresh ((x, u) :: env) vs := by
            refine ⟨hnodup, fun w hw => ?_⟩
            rw [List.map_cons, List.mem_cons, not_or]
            refine ⟨?_, hfresh.unused w (.tail _ hw)⟩
            rintro rfl
            exact hu hw
          have hstep := ih (h.cons (hfresh.unused u (.head _)) hab) (Nat.succ.inj hlen)
            (Nat.succ.inj hlen') hfresh' hrest
          simpa [Renames.extend] using hstep

theorem map_fst_zip_sublist (vs : List Temp) (bs : List β) :
    ((vs.zip bs).map Prod.fst).Sublist vs := by
  induction vs generalizing bs with
  | nil => exact .slnil
  | cons v vs ih =>
      cases bs with
      | nil => exact List.nil_sublist _
      | cons b bs => exact (ih bs).cons_cons v

/-- A call gives values to parameters that are all different, be they too few or too many. -/
theorem Renames.carries_params {vars vs : List Temp} {as : List α} {bs : List β}
    (hnodup : vars.Nodup) (hfresh : Renames.Fresh [] vs) (hab : List.Forall₂ R as bs) :
    (Renames.extend [] vars vs).Carries R ((vars.zip as).reverse ++ [])
      ((vs.zip bs).reverse ++ []) := by
  intro t a ha u hu
  rw [List.append_nil] at ha
  rw [Renames.extend, List.append_nil] at hu
  rw [List.append_nil]
  obtain ⟨n, hn⟩ := List.mem_iff_getElem?.mp (List.mem_reverse.mp (Mil.mem_of_lookup ha))
  obtain ⟨n', hn'⟩ := List.mem_iff_getElem?.mp (List.mem_reverse.mp (Mil.mem_of_lookup hu))
  obtain ⟨ht, ha⟩ := List.getElem?_zip_eq_some.mp hn
  obtain ⟨ht', hu⟩ := List.getElem?_zip_eq_some.mp hn'
  obtain rfl : n = n' := by
    obtain ⟨hlt, rfl⟩ := List.getElem?_eq_some_iff.mp ht
    obtain ⟨hlt', heq⟩ := List.getElem?_eq_some_iff.mp ht'
    exact (hnodup.getElem_inj_iff.mp heq).symm
  obtain ⟨hlt, rfl⟩ := List.getElem?_eq_some_iff.mp ha
  have hlt' : n < bs.length := hab.length_eq ▸ hlt
  refine ⟨bs[n], lookup_of_mem ?_ ?_, hab.get hlt hlt'⟩
  · rw [List.map_reverse, List.nodup_reverse]
    exact hfresh.nodup.sublist (map_fst_zip_sublist vs bs)
  · refine List.mem_reverse.mpr (List.mem_iff_getElem?.mpr ⟨n, ?_⟩)
    exact List.getElem?_zip_eq_some.mpr ⟨hu, List.getElem?_eq_getElem hlt'⟩

end Carries

/-! ### The relation between a body and its copy -/

section Copies

variable (p : Program) (S : DefnId → DefnId → Prop)

/-- Is the definition an external? -/
def External (id : DefnId) : Prop := ∃ d e, p.defns[id]? = some d ∧ d.body = .external e

/-- The copy of an operand. An external has one value only. -/
inductive AtomCopy (env : Renames) : Atom → Atom → Prop
  | temp {t u : Temp} (h : env.lookup t = some u) : AtomCopy env (.temp t) (.temp u)
  | lit (l : Literal) : AtomCopy env (.lit l) (.lit l)
  | top {id id' : DefnId} {index index' : Nat} {site site' : SiteId} (hserves : S id id')
      (hindex : index' = index ∨ External p id) :
      AtomCopy env (.top id index site) (.top id' index' site')

/-- The copy of operands. -/
def AtomsCopy (env : Renames) (as as' : List Atom) : Prop := List.Forall₂ (AtomCopy p S env) as as'

/-- The copy of a call. -/
structure CallCopy (env : Renames) (c c' : BlockCall) : Prop where
  serves : S c.block c'.block
  args : AtomsCopy p S env c.args c'.args

/-- The copy of a primitive differs in its number and type. -/
structure PrimCopy (q q' : Prim) : Prop where
  op : q'.op = q.op
  purity : q'.purity = q.purity
  name : q'.name = q.name

/-- The copy of a tail. -/
inductive TailCopy (env : Renames) : Tail → Tail → Prop
  | ret {args args' : List Atom} (hargs : AtomsCopy p S env args args') :
      TailCopy env (.ret args) (.ret args')
  | call {c c' : BlockCall} (hcall : CallCopy p S env c c') : TailCopy env (.call c) (.call c')
  | prim {q q' : Prim} {args args' : List Atom} {inst inst' : Option BlockType}
      (hprim : PrimCopy q q') (hargs : AtomsCopy p S env args args') :
      TailCopy env (.prim q args inst) (.prim q' args' inst')
  | alloc {id id' : DefnId} {args args' : List Atom} {inst inst' : Option AllocType}
      (hserves : S id id') (hargs : AtomsCopy p S env args args') :
      TailCopy env (.alloc id args inst) (.alloc id' args' inst')
  | data {k : Cfun} {args args' : List Atom} {inst inst' : Option AllocType}
      (hargs : AtomsCopy p S env args args') :
      TailCopy env (.data k args inst) (.data k args' inst')
  | enter {fn fn' : Atom} {args args' : List Atom} (hfn : AtomCopy p S env fn fn')
      (hargs : AtomsCopy p S env args args') : TailCopy env (.enter fn args) (.enter fn' args')
  | sel {k : Cfun} {field : Int} {arg arg' : Atom} {inst inst' : Option AllocType}
      (harg : AtomCopy p S env arg arg') :
      TailCopy env (.sel k field arg inst) (.sel k field arg' inst')

/-- The copy of a body. -/
inductive CodeCopy : Renames → Code → Code → Prop
  | bind {env : Renames} {vars vs : List Temp} {t t' : Tail} {next next' : Code}
      (htail : TailCopy p S env t t') (hlen : vs.length = vars.length) (hfresh : env.Fresh vs)
      (hnext : CodeCopy (env.extend vars vs) next next') :
      CodeCopy env (.bind vars t next) (.bind vs t' next')
  | done {env : Renames} {t t' : Tail} (htail : TailCopy p S env t t') :
      CodeCopy env (.done t) (.done t')
  | branch {env : Renames} {cond cond' : Atom} {t t' f f' : BlockCall}
      (hcond : AtomCopy p S env cond cond') (ht : CallCopy p S env t t')
      (hf : CallCopy p S env f f') : CodeCopy env (.branch cond t f) (.branch cond' t' f')
  | case {env : Renames} {scrut scrut' : Atom} {alts alts' : List (Cfun × BlockCall)}
      {default default' : Option BlockCall} (hscrut : AtomCopy p S env scrut scrut')
      (halts : List.Forall₂ (fun a a' => a'.1 = a.1 ∧ CallCopy p S env a.2 a'.2) alts alts')
      (hdefault : Option.Rel (CallCopy p S env) default default') :
      CodeCopy env (.case scrut alts default) (.case scrut' alts' default')

/-- The copy of a definition. It quantifies nothing. -/
inductive BodyCopy : DefnBody → DefnBody → Prop
  | block {o b : Block} {code code' : Code} (hsource : o.body = some code)
      (hcopy : b.body = some code') (hlen : b.params.length = o.params.length)
      (hfresh : Renames.Fresh [] b.params)
      (hcode : CodeCopy p S (Renames.extend [] o.params b.params) code code')
      (hgenerics : b.generics = []) : BodyCopy (.block o) (.block b)
  | closure {o k : Closure} {t t' : Tail} (hsource : o.tail = some t) (hcopy : k.tail = some t')
      (hparams : k.params.length = o.params.length) (hargs : k.args.length = o.args.length)
      (hfresh : Renames.Fresh [] k.params)
      (hfresh' : (Renames.extend [] o.params k.params).Fresh k.args)
      (htail : TailCopy p S ((Renames.extend [] o.params k.params).extend o.args k.args) t t')
      (hgenerics : k.generics = []) : BodyCopy (.closure o) (.closure k)
  | top {o t : TopLevel} {tail tail' : Tail} (hsource : o.tail = some tail)
      (hcopy : t.tail = some tail') (htail : TailCopy p S [] tail tail')
      (hgenerics : t.generics = []) : BodyCopy (.top o) (.top t)
  | external {o e : Mil.External} (himpl : e.impl = none)
      (hmono : e.declared.isPolymorphic = false) : BodyCopy (.external o) (.external e)

end Copies

theorem BodyCopy.isPolymorphic {p : Program} {S : DefnId → DefnId → Prop} {b b' : DefnBody}
    (h : BodyCopy p S b b') : b'.isPolymorphic = false := by
  cases h with
  | block _ _ _ _ _ hgenerics => simp [DefnBody.isPolymorphic, hgenerics]
  | closure _ _ _ _ _ _ _ hgenerics => simp [DefnBody.isPolymorphic, hgenerics]
  | top _ _ _ hgenerics => simp [DefnBody.isPolymorphic, hgenerics]
  | external _ hmono => exact hmono

/-! ### Copies while more definitions come to serve -/

section Growth

variable {p : Program} {S S' : DefnId → DefnId → Prop} (h : ∀ i j, S i j → S' i j) {env : Renames}

include h

theorem AtomCopy.mono {a a' : Atom} (ha : AtomCopy p S env a a') : AtomCopy p S' env a a' := by
  cases ha with
  | temp hlookup => exact .temp hlookup
  | lit l => exact .lit l
  | top hserves hindex => exact .top (h _ _ hserves) hindex

theorem AtomsCopy.mono {as as' : List Atom} (ha : AtomsCopy p S env as as') :
    AtomsCopy p S' env as as' :=
  List.Forall₂.imp (fun _ _ ha => AtomCopy.mono h ha) ha

theorem CallCopy.mono {c c' : BlockCall} (hc : CallCopy p S env c c') : CallCopy p S' env c c' :=
  ⟨h _ _ hc.serves, hc.args.mono h⟩

theorem TailCopy.mono {t t' : Tail} (ht : TailCopy p S env t t') : TailCopy p S' env t t' := by
  cases ht with
  | ret hargs => exact .ret (hargs.mono h)
  | call hcall => exact .call (hcall.mono h)
  | prim hprim hargs => exact .prim hprim (hargs.mono h)
  | alloc hserves hargs => exact .alloc (h _ _ hserves) (hargs.mono h)
  | data hargs => exact .data (hargs.mono h)
  | enter hfn hargs => exact .enter (hfn.mono h) (hargs.mono h)
  | sel harg => exact .sel (harg.mono h)

theorem CodeCopy.mono {c c' : Code} (hc : CodeCopy p S env c c') : CodeCopy p S' env c c' := by
  induction hc with
  | bind htail hlen hfresh _ ih => exact .bind (htail.mono h) hlen hfresh ih
  | done htail => exact .done (htail.mono h)
  | branch hcond ht hf => exact .branch (hcond.mono h) (ht.mono h) (hf.mono h)
  | case hscrut halts hdefault =>
      refine .case (hscrut.mono h) (halts.imp fun a a' ha => ⟨ha.1, ha.2.mono h⟩) ?_
      cases hdefault with
      | some hc => exact .some (hc.mono h)
      | none => exact .none

theorem BodyCopy.mono {b b' : DefnBody} (hb : BodyCopy p S b b') : BodyCopy p S' b b' := by
  cases hb with
  | block hsource hcopy hlen hfresh hcode hgenerics =>
      exact .block hsource hcopy hlen hfresh (hcode.mono h) hgenerics
  | closure hsource hcopy hparams hargs hfresh hfresh' htail hgenerics =>
      exact .closure hsource hcopy hparams hargs hfresh hfresh' (htail.mono h) hgenerics
  | top hsource hcopy htail hgenerics => exact .top hsource hcopy (htail.mono h) hgenerics
  | external himpl hmono => exact .external himpl hmono

end Growth

end Mil.Mono

/-!
What specialisation keeps true. Every copy that was asked for is a copy of the definition it was
asked for, unless its request still waits; and a definition of which a copy can still be asked for is
as it was at the start. The second part matters because a definition that quantifies nothing is
filled in where it stands: after that it must not be copied again, and its key in the list of known
copies sees to it.
-/

namespace Mil.Mono

/-- The key of a definition that is used as it is. -/
def CloneKey.own (id : DefnId) : CloneKey := ⟨id, 0, none⟩

/-- Is the definition an external that quantifies nothing? -/
def MonoExternal (p : Program) (id : DefnId) : Prop :=
  ∃ d e, p.defns[id]? = some d ∧ d.body = .external e ∧ e.declared.isPolymorphic = false

/-- A copy serves the definition that it was asked for. An external that quantifies nothing is used
without being asked for. -/
def State.Serves (p : Program) (s : State) (i j : DefnId) : Prop :=
  (∃ k, (k, j) ∈ s.clones ∧ k.defn = i) ∨ (i = j ∧ MonoExternal p i)

/-- The copy has a request that was not met yet. -/
def Waits (requests : List Pending) (j : DefnId) : Prop := ∃ q ∈ requests, q.clone = j

/-- Specialisation has come from the program `p` to the state; the requests `extra` are being met. -/
structure Tracks (p : Program) (extra : List Pending) (s : State) : Prop where
  env : s.program.env = p.env
  whole : ∀ {j : DefnId} {d : Defn}, s.program.defns[j]? = some d → d.replacedBy = none
  size : p.defns.size ≤ s.program.defns.size
  asked : ∀ {k : CloneKey} {j : DefnId}, (k, j) ∈ s.clones → k.defn < p.defns.size ∧
    j < s.program.defns.size ∧ ((j = k.defn ∧ k = .own k.defn) ∨ (p.defns.size ≤ j ∧
      k ≠ .own k.defn ∧ ∀ d, p.defns[k.defn]? = some d → d.body.isPolymorphic = true))
  own : ∀ {i j : DefnId} {d : Defn}, (.own i, j) ∈ s.clones → p.defns[i]? = some d →
    d.body.isPolymorphic = false
  source : ∀ {k k' : CloneKey} {j : DefnId}, (k, j) ∈ s.clones → (k', j) ∈ s.clones →
    k.defn = k'.defn
  request : ∀ {q : Pending}, q ∈ extra ++ s.queue → ∃ k, (k, q.clone) ∈ s.clones ∧
    k.defn = q.source ∧ ((q.clone = q.source ∧ k = .own q.source) ∨ (p.defns.size ≤ q.clone ∧
      ∀ d, p.defns[q.source]? = some d → d.body.isPolymorphic = true))
  nodup : ((extra ++ s.queue).map Pending.clone).Nodup
  untouched : ∀ {i : DefnId} {d : Defn}, p.defns[i]? = some d → Waits (extra ++ s.queue) i ∨
    d.body.isPolymorphic = true ∨ (.own i, i) ∉ s.clones → s.program.defns[i]? = some d
  served : ∀ {k : CloneKey} {j : DefnId} {d : Defn}, (k, j) ∈ s.clones →
    p.defns[k.defn]? = some d → Waits (extra ++ s.queue) j ∨
      ∃ d', s.program.defns[j]? = some d' ∧ BodyCopy p (s.Serves p) d.body d'.body
  prims : ∀ {i : Nat} {q : Prim}, (i, q) ∈ s.prims → ∃ q₀, p.prims.prims[i]? = some q₀ ∧
    PrimCopy q₀ q

/-- Copies are added, and temporaries; none goes away. -/
structure Grows (s s' : State) : Prop where
  temps : s.program.temps.size ≤ s'.program.temps.size
  clones : ∀ x ∈ s.clones, x ∈ s'.clones

theorem Grows.refl (s : State) : Grows s s := ⟨Nat.le_refl _, fun _ h => h⟩

theorem Grows.trans {s₁ s₂ s₃ : State} (h : Grows s₁ s₂) (h' : Grows s₂ s₃) : Grows s₁ s₃ :=
  ⟨Nat.le_trans h.temps h'.temps, fun x hx => h'.clones x (h.clones x hx)⟩

theorem Grows.serves {p : Program} {s s' : State} (h : Grows s s') (i j : DefnId)
    (hs : s.Serves p i j) : s'.Serves p i j := by
  rcases hs with ⟨k, hk, rfl⟩ | hext
  · exact .inl ⟨k, h.clones _ hk, rfl⟩
  · exact .inr hext

section Tracks

variable {p : Program} {extra : List Pending} {s s' : State}

theorem tracks_start (hwhole : ∀ {j : DefnId} {d : Defn}, p.defns[j]? = some d →
    d.replacedBy = none) : Tracks p [] (.start p) where
  env := rfl
  whole := hwhole
  size := Nat.le_refl _
  asked h := nomatch h
  own h := nomatch h
  source h := nomatch h
  request h := nomatch h
  nodup := .nil
  untouched h _ := h
  served h := nomatch h
  prims h := nomatch h

/-- Only definitions, copies and requests matter. -/
theorem Tracks.congr (h : Tracks p extra s) (henv : s'.program.env = s.program.env)
    (hdefns : s'.program.defns = s.program.defns) (hclones : s'.clones = s.clones)
    (hqueue : s'.queue = s.queue) (hprims : s'.prims = s.prims) : Tracks p extra s' := by
  obtain ⟨⟨env, _, defns, _, _, _, _, _⟩, clones, prims, counts, queue⟩ := s
  obtain ⟨⟨env', _, defns', _, _, _, _, _⟩, clones', prims', counts', queue'⟩ := s'
  dsimp only at henv hdefns hclones hqueue hprims
  subst henv hdefns hclones hqueue hprims
  exact ⟨h.env, h.whole, h.size, h.asked, h.own, h.source, h.request, h.nodup, h.untouched,
    h.served, h.prims⟩

/-- A copy that is asked for is remembered, with a request unless it is complete. -/
theorem Tracks.ask (h : Tracks p extra s) (k : CloneKey) (c : DefnId) (added : Option Pending)
    (henv : s'.program.env = s.program.env)
    (hwhole : ∀ {j : DefnId} {d : Defn}, s'.program.defns[j]? = some d → d.replacedBy = none)
    (hdefns : ∀ {j : DefnId} {d : Defn}, s.program.defns[j]? = some d →
      s'.program.defns[j]? = some d)
    (hclones : s'.clones = (k, c) :: s.clones) (hqueue : s'.queue = s.queue ++ added.toList)
    (hprims : s'.prims = s.prims) (hk : k.defn < p.defns.size) (hc : c < s'.program.defns.size)
    (hplace : (c = k.defn ∧ k = .own k.defn ∧ (k, c) ∉ s.clones ∧
        ∀ d, p.defns[k.defn]? = some d → d.body.isPolymorphic = false) ∨
      (s.program.defns.size ≤ c ∧ k ≠ .own k.defn ∧
        ∀ d, p.defns[k.defn]? = some d → d.body.isPolymorphic = true))
    (hadded : ∀ q, added = some q → q.clone = c ∧ q.source = k.defn)
    (hserved : added = none → ∀ d, p.defns[k.defn]? = some d →
      ∃ d', s'.program.defns[c]? = some d' ∧ BodyCopy p (s'.Serves p) d.body d'.body) :
    Tracks p extra s' := by
  have hnew : (c = k.defn ∧ k = .own k.defn) ∨ (p.defns.size ≤ c ∧ k ≠ .own k.defn ∧
      ∀ d, p.defns[k.defn]? = some d → d.body.isPolymorphic = true) := by
    rcases hplace with ⟨hc, hown, -⟩ | ⟨hc, hne, hpoly⟩
    · exact .inl ⟨hc, hown⟩
    · exact .inr ⟨Nat.le_trans h.size hc, hne, hpoly⟩
  have hsize : s.program.defns.size ≤ s'.program.defns.size := by
    by_contra hlt
    have hsome := Array.getElem?_eq_getElem (Nat.not_le.mp hlt)
    have hsome' := hdefns hsome
    rw [Array.getElem?_size] at hsome'
    cases hsome'
  have hserves (i j : DefnId) (hij : s.Serves p i j) : s'.Serves p i j := by
    rcases hij with ⟨k', hk', rfl⟩ | hext
    · exact .inl ⟨k', hclones ▸ .tail _ hk', rfl⟩
    · exact .inr hext
  have hwaits {j : DefnId} (hj : Waits (extra ++ s.queue) j) : Waits (extra ++ s'.queue) j := by
    obtain ⟨q, hq, rfl⟩ := hj
    refine ⟨q, ?_, rfl⟩
    rw [hqueue, ← List.append_assoc]
    exact List.mem_append_left _ hq
  have hrequests {q : Pending} (hq : q ∈ extra ++ s'.queue) :
      q ∈ extra ++ s.queue ∨ added = some q := by
    rw [hqueue, ← List.append_assoc, List.mem_append, Option.mem_toList] at hq
    exact hq
  -- a copy that was asked for before is another one
  have hother {k' : CloneKey} (hk' : (k', c) ∈ s.clones) : k'.defn = k.defn ∧ c = k.defn := by
    obtain ⟨hdefn, hlt, hj⟩ := h.asked hk'
    rcases hplace with ⟨hc', -⟩ | ⟨hc', -⟩
    · rcases hj with ⟨hj, -⟩ | ⟨hj, -⟩
      · exact ⟨hj.symm.trans hc', hc'⟩
      · rw [hc'] at hj
        exact absurd hk (Nat.not_lt.mpr hj)
    · exact absurd hlt (Nat.not_lt.mpr hc')
  refine ⟨henv.trans h.env, hwhole, Nat.le_trans h.size hsize, ?_, ?_, ?_, ?_, ?_, ?_, ?_, ?_⟩
  · intro k' j hj
    rw [hclones] at hj
    rcases List.mem_cons.mp hj with heq | hj
    · cases heq
      exact ⟨hk, hc, hnew⟩
    · obtain ⟨hdefn, hlt, hj⟩ := h.asked hj
      exact ⟨hdefn, Nat.lt_of_lt_of_le hlt hsize, hj⟩
  · intro i j d hj hd
    rw [hclones] at hj
    rcases List.mem_cons.mp hj with heq | hj
    · cases heq
      rcases hplace with ⟨-, -, -, hmono⟩ | ⟨-, hne, -⟩
      · exact hmono d hd
      · exact absurd rfl hne
    · exact h.own hj hd
  · intro k₁ k₂ j h₁ h₂
    rw [hclones] at h₁ h₂
    rcases List.mem_cons.mp h₁ with heq | h₁ <;> rcases List.mem_cons.mp h₂ with heq' | h₂
    · cases heq
      cases heq'
      rfl
    · cases heq
      exact (hother h₂).1.symm
    · cases heq'
      exact (hother h₁).1
    · exact h.source h₁ h₂
  · intro q hq
    rcases hrequests hq with hq | hq
    · obtain ⟨k', hk', hrest⟩ := h.request hq
      exact ⟨k', hclones ▸ .tail _ hk', hrest⟩
    · obtain ⟨hclone, hsource⟩ := hadded q hq
      refine ⟨k, hclones ▸ hclone ▸ .head _, hsource.symm, ?_⟩
      rw [hclone, hsource]
      rcases hplace with ⟨hc', hown, -⟩ | ⟨hc', -, hpoly⟩
      · exact .inl ⟨hc', hown⟩
      · exact .inr ⟨Nat.le_trans h.size hc', hpoly⟩
  · rw [hqueue, ← List.append_assoc, List.map_append, List.nodup_append]
    cases added with
    | none => exact ⟨h.nodup, .nil, fun _ _ _ hb => nomatch hb⟩
    | some q =>
        obtain ⟨hclone, hsource⟩ := hadded q rfl
        refine ⟨h.nodup, List.nodup_singleton _, fun j hj j' hj' heq => ?_⟩
        rw [List.mem_singleton.mp hj', hclone] at heq
        obtain ⟨q', hq', rfl⟩ := List.mem_map.mp hj
        obtain ⟨k', hk', hdefn, hkind⟩ := h.request hq'
        rw [heq] at hk' hkind
        obtain ⟨hk'', hc''⟩ := hother hk'
        -- the only way to ask for it again is by its own key
        rcases hplace with ⟨-, hown, hfresh, -⟩ | ⟨hc', -⟩
        · rcases hkind with ⟨-, hk'own⟩ | ⟨hle, -⟩
          · rw [hk'own, ← hdefn, hk'', ← hown] at hk'
            exact hfresh hk'
          · rw [hc''] at hle
            exact Nat.not_lt.mpr hle hk
        · exact Nat.not_lt.mpr (Nat.le_trans h.size hc') (hc'' ▸ hk)
  · intro i d hd hcond
    refine hdefns (h.untouched hd ?_)
    rcases hcond with ⟨q, hq, hqi⟩ | hpoly | hfresh
    · rcases hrequests hq with hq | hq
      · exact .inl ⟨q, hq, hqi⟩
      · obtain ⟨hclone, hsource⟩ := hadded q hq
        rw [hclone] at hqi
        rcases hplace with ⟨hc', hown, hfresh, -⟩ | ⟨hc', -⟩
        · rw [← hc', hqi] at hown
          exact .inr (.inr (hown ▸ hqi ▸ hfresh))
        · obtain ⟨hlt, -⟩ := Array.getElem?_eq_some_iff.mp hd
          exact absurd hlt (Nat.not_lt.mpr (hqi ▸ Nat.le_trans h.size hc'))
    · exact .inr (.inl hpoly)
    · exact .inr (.inr fun hmem => hfresh (hclones ▸ .tail _ hmem))
  · intro k' j d hj hd
    rw [hclones] at hj
    rcases List.mem_cons.mp hj with heq | hj
    · cases heq
      cases added with
      | none => exact .inr (hserved rfl d hd)
      | some q =>
          refine .inl ⟨q, ?_, (hadded q rfl).1⟩
          rw [hqueue]
          simp
    · rcases h.served hj hd with hw | ⟨d', hd', hcopy⟩
      · exact .inl (hwaits hw)
      · exact .inr ⟨d', hdefns hd', hcopy.mono hserves⟩
  · intro i q hq
    exact h.prims (hprims ▸ hq)

/-- The oldest request is taken from the queue. -/
theorem Tracks.pop {q : Pending} {queue : List Pending} (h : Tracks p [] s)
    (hqueue : s.queue = q :: queue) : Tracks p [q] { s with queue } := by
  have hall : [q] ++ queue = [] ++ s.queue := hqueue.symm
  refine ⟨h.env, h.whole, h.size, h.asked, h.own, h.source, ?_, ?_, ?_, ?_, h.prims⟩
  · rw [hall]
    exact h.request
  · rw [hall]
    exact h.nodup
  · rw [hall]
    exact h.untouched
  · rw [hall]
    exact h.served

/-- The definition of which a copy is asked for is as it was at the start. -/
theorem Tracks.request_source (h : Tracks p extra s) {q : Pending} (hq : q ∈ extra ++ s.queue) :
    ∃ d, p.defns[q.source]? = some d ∧ s.program.defns[q.source]? = some d := by
  obtain ⟨k, hk, hdefn, hkind⟩ := h.request hq
  have hlt := hdefn ▸ (h.asked hk).1
  refine ⟨p.defns[q.source], Array.getElem?_eq_getElem hlt,
    h.untouched (Array.getElem?_eq_getElem hlt) ?_⟩
  rcases hkind with ⟨hclone, -⟩ | ⟨-, hpoly⟩
  · exact .inl ⟨q, hq, hclone⟩
  · exact .inr (.inl (hpoly _ (Array.getElem?_eq_getElem hlt)))

/-- A request is met by a copy of its source. -/
theorem Tracks.meet {q : Pending} {d : Defn} {body : DefnBody} (h : Tracks p [q] s)
    (hd : p.defns[q.source]? = some d) (hbody : BodyCopy p (s.Serves p) d.body body) :
    Tracks p [] { s with program := s.program.setBody q.clone body } := by
  obtain ⟨kq, hkq, hkdefn, hkind⟩ := h.request (.head _)
  obtain ⟨hnot, hnodup⟩ := List.nodup_cons.mp h.nodup
  have hnot : ¬ Waits s.queue q.clone := by
    rintro ⟨q', hq', heq⟩
    exact hnot (heq ▸ List.mem_map_of_mem hq')
  have hget (j : DefnId) : (s.program.setBody q.clone body).defns[j]? =
      if q.clone = j then (s.program.defns[j]?).map fun d => { d with body }
      else s.program.defns[j]? := s.program.getElem?_setBody q.clone j body
  refine ⟨h.env, fun {j d'} hd' => ?_, ?_, fun hk => ?_, h.own, h.source, fun hq => ?_, hnodup,
    fun {i d'} hd' hcond => ?_, fun {k j d'} hk hd' => ?_, h.prims⟩
  · rw [hget] at hd'
    split at hd'
    · obtain ⟨d₀, hd₀, rfl⟩ := Option.map_eq_some_iff.mp hd'
      exact (h.whole hd₀ : d₀.replacedBy = none)
    · exact h.whole hd'
  · show p.defns.size ≤ (s.program.defns.modify _ _).size
    rw [Array.size_modify]
    exact h.size
  · show _ ∧ _ < (s.program.defns.modify _ _).size ∧ _
    rw [Array.size_modify]
    exact h.asked hk
  · exact h.request (.tail _ hq)
  · have hold : Waits s.queue i ∨ d'.body.isPolymorphic = true ∨ (.own i, i) ∉ s.clones := hcond
    have hne : q.clone ≠ i := by
      rintro rfl
      rcases hold with hw | hpoly | hfresh
      · exact hnot hw
      · rcases hkind with ⟨hclone, hown⟩ | ⟨hle, -⟩
        · rw [hown, ← hclone] at hkq
          rw [h.own hkq hd'] at hpoly
          cases hpoly
        · exact Nat.not_lt.mpr hle (Array.getElem?_eq_some_iff.mp hd').1
      · rcases hkind with ⟨hclone, hown⟩ | ⟨hle, -⟩
        · rw [hown, ← hclone] at hkq
          exact hfresh hkq
        · exact Nat.not_lt.mpr hle (Array.getElem?_eq_some_iff.mp hd').1
    rw [hget, if_neg hne]
    refine h.untouched hd' ?_
    rcases hold with ⟨q', hq', heq⟩ | hrest
    · exact .inl ⟨q', .tail _ hq', heq⟩
    · exact .inr hrest
  · have hk : (k, j) ∈ s.clones := hk
    by_cases hj : q.clone = j
    · subst hj
      rw [h.source hk hkq, hkdefn, hd] at hd'
      cases hd'
      obtain ⟨-, hlt, -⟩ := h.asked hkq
      refine .inr ⟨{ s.program.defns[q.clone] with body }, ?_, hbody⟩
      rw [hget, if_pos rfl, Array.getElem?_eq_getElem hlt, Option.map_some]
    · rcases h.served hk hd' with ⟨q', hq', heq⟩ | ⟨d'', hd'', hcopy⟩
      · rcases List.mem_cons.mp hq' with rfl | hq'
        · exact absurd heq hj
        · exact .inl ⟨q', hq', heq⟩
      · refine .inr ⟨d'', ?_, hcopy⟩
        rw [hget, if_neg hj]
        exact hd''

end Tracks

end Mil.Mono
