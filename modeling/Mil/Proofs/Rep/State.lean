import Mil.Proofs.Program.Copy
import Mil.Proofs.Typing.Scene
import Mil.Rep.Carry

/-!
What a change of representation keeps true. It adds temporaries and definitions and puts new bodies in
place of old ones. All along, references lead to definitions that could be reached before or were
added, and calls to blocks; and what was changed or added reads only temporaries that have been made.
-/

namespace Mil.Rep

/-! ### Code that fits into a program -/

/-- The definition is one of `R`, or was added to the first `n`. -/
def Known (R : DefnId → Prop) (n : Nat) (p : Program) (id : DefnId) : Prop :=
  id < p.defns.size ∧ (id < n → R id)

/-- Calls are of blocks, and references lead to known definitions. -/
structure Linked (R : DefnId → Prop) (n : Nat) (p : Program) (calls : List BlockCall)
    (refs : List DefnId) : Prop where
  calls : ∀ c ∈ calls, ∃ b, p.block c.block = .ok b
  refs : ∀ r ∈ refs, Known R n p r

/-- Moreover, operands that are temporaries have been made. -/
structure Fits (R : DefnId → Prop) (n : Nat) (p : Program) (as : List Atom) (calls : List BlockCall)
    (refs : List DefnId) : Prop extends Linked R n p calls refs where
  below : AtomsBelow p.temps.size as

/-- The operands fit. -/
def ArgsFit (R : DefnId → Prop) (n : Nat) (p : Program) (as : List Atom) : Prop :=
  Fits R n p as [] (as.filterMap Atom.defn?)

/-- The tail fits. -/
def TailFits (R : DefnId → Prop) (n : Nat) (p : Program) (t : Tail) : Prop :=
  Fits R n p t.atoms t.call?.toList t.refs

/-- The body fits. -/
def CodeFits (R : DefnId → Prop) (n : Nat) (p : Program) (c : Code) : Prop :=
  Fits R n p c.atoms c.allCalls c.refs

/-- The definition fits. -/
def BodyFits (R : DefnId → Prop) (n : Nat) (p : Program) (b : DefnBody) : Prop :=
  Fits R n p b.atoms b.calls b.refs

/-- The second program has what the first has, and the same definitions of it are blocks. -/
structure Grows (p p' : Program) : Prop where
  entries : p'.entries = p.entries
  temps : p.temps.size ≤ p'.temps.size
  defns : p.defns.size ≤ p'.defns.size
  blocks : ∀ {id : DefnId}, id < p.defns.size →
    ((∃ b, p'.block id = .ok b) ↔ ∃ b, p.block id = .ok b)

section Fits

variable {R : DefnId → Prop} {n : Nat} {p p' p'' : Program} {as bs : List Atom}
  {calls calls' : List BlockCall} {refs refs' : List DefnId}

theorem Grows.refl (p : Program) : Grows p p :=
  ⟨rfl, Nat.le_refl _, Nat.le_refl _, fun _ => Iff.rfl⟩

theorem Grows.trans (h : Grows p p') (h' : Grows p' p'') : Grows p p'' :=
  ⟨h'.entries.trans h.entries, Nat.le_trans h.temps h'.temps, Nat.le_trans h.defns h'.defns,
    fun hid => (h'.blocks (Nat.lt_of_lt_of_le hid h.defns)).trans (h.blocks hid)⟩

theorem Grows.block (h : Grows p p') {id : DefnId} (hb : ∃ b, p.block id = .ok b) :
    ∃ b, p'.block id = .ok b := by
  obtain ⟨b, hb⟩ := hb
  obtain ⟨d, hd, -⟩ := exists_of_block hb
  exact (h.blocks (Array.getElem?_eq_some_iff.mp hd).1).mpr ⟨b, hb⟩

theorem Known.grow {id : DefnId} (h : Known R n p id) (hp : Grows p p') : Known R n p' id :=
  ⟨Nat.lt_of_lt_of_le h.1 hp.defns, h.2⟩

theorem Linked.grow (h : Linked R n p calls refs) (hp : Grows p p') : Linked R n p' calls refs :=
  ⟨fun c hc => hp.block (h.calls c hc), fun r hr => (h.refs r hr).grow hp⟩

theorem Fits.grow (h : Fits R n p as calls refs) (hp : Grows p p') : Fits R n p' as calls refs :=
  ⟨h.toLinked.grow hp, h.below.mono hp.temps⟩

theorem Linked.append (h : Linked R n p calls refs) (h' : Linked R n p calls' refs') :
    Linked R n p (calls ++ calls') (refs ++ refs') :=
  ⟨fun c hc => (List.mem_append.mp hc).elim (h.calls c) (h'.calls c),
    fun r hr => (List.mem_append.mp hr).elim (h.refs r) (h'.refs r)⟩

theorem Linked.left (h : Linked R n p (calls ++ calls') (refs ++ refs')) : Linked R n p calls refs :=
  ⟨fun c hc => h.calls c (List.mem_append_left _ hc), fun r hr => h.refs r (List.mem_append_left _ hr)⟩

theorem Linked.right (h : Linked R n p (calls ++ calls') (refs ++ refs')) :
    Linked R n p calls' refs' :=
  ⟨fun c hc => h.calls c (List.mem_append_right _ hc),
    fun r hr => h.refs r (List.mem_append_right _ hr)⟩

theorem Fits.append (h : Fits R n p as calls refs) (h' : Fits R n p bs calls' refs') :
    Fits R n p (as ++ bs) (calls ++ calls') (refs ++ refs') :=
  ⟨h.toLinked.append h'.toLinked, h.below.append h'.below⟩

theorem argsFit_of (hbelow : AtomsBelow p.temps.size as)
    (hrefs : ∀ a ∈ as, ∀ r, a.defn? = some r → Known R n p r) : ArgsFit R n p as := by
  refine ⟨⟨(fun _ hc => nomatch hc), fun r hr => ?_⟩, hbelow⟩
  obtain ⟨a, ha, har⟩ := List.mem_filterMap.mp hr
  exact hrefs a ha r har

theorem ArgsFit.nil : ArgsFit R n p [] :=
  argsFit_of (fun _ ht => nomatch ht) fun _ ha => nomatch ha

theorem ArgsFit.subset (h : ArgsFit R n p as) (hsub : bs ⊆ as) : ArgsFit R n p bs :=
  argsFit_of (fun t ht => h.below t (hsub ht)) fun a ha r hr =>
    h.refs r (List.mem_filterMap.mpr ⟨a, hsub ha, hr⟩)

theorem ArgsFit.append (ha : ArgsFit R n p as) (hb : ArgsFit R n p bs) : ArgsFit R n p (as ++ bs) := by
  unfold ArgsFit
  rw [List.filterMap_append]
  exact Fits.append ha hb

theorem argsFit_lits (ls : List Literal) : ArgsFit R n p (ls.map .lit) := by
  refine argsFit_of (fun t ht => ?_) fun a ha r hr => ?_
  · obtain ⟨l, -, hl⟩ := List.mem_map.mp ht
    cases hl
  · obtain ⟨l, -, rfl⟩ := List.mem_map.mp ha
    cases hr

theorem argsFit_temps {vs : List Temp} (h : ∀ v ∈ vs, v < p.temps.size) :
    ArgsFit R n p (vs.map .temp) := by
  refine argsFit_of (fun t ht => ?_) fun a ha r hr => ?_
  · obtain ⟨v, hv, heq⟩ := List.mem_map.mp ht
    cases heq
    exact h t hv
  · obtain ⟨v, -, rfl⟩ := List.mem_map.mp ha
    cases hr

theorem argsFit_flatten {ass : List (List Atom)} (h : ∀ as ∈ ass, ArgsFit R n p as) :
    ArgsFit R n p ass.flatten := by
  induction ass with
  | nil => exact .nil
  | cons as ass ih =>
      exact (h as (.head _)).append (ih fun bs hbs => h bs (.tail _ hbs))

/-- A tail fits if its operands fit and its target is there. -/
theorem ArgsFit.tail {t : Tail} (h : ArgsFit R n p t.atoms)
    (htarget : ∀ id, t.target? = some id → Known R n p id)
    (hcall : ∀ c, t.call? = some c → ∃ b, p.block c.block = .ok b) : TailFits R n p t := by
  refine ⟨⟨fun c hc => hcall c (Option.mem_toList.mp hc), fun r hr => ?_⟩, h.below⟩
  rcases List.mem_append.mp hr with hr | hr
  · exact h.refs r hr
  · exact htarget r (Option.mem_toList.mp hr)

/-- A tail without a target fits if its operands fit. -/
theorem ArgsFit.plain {t : Tail} (h : ArgsFit R n p t.atoms) (ht : t.target? = none) :
    TailFits R n p t := by
  refine h.tail (fun id hid => ?_) fun c hc => ?_
  · rw [ht] at hid
    cases hid
  · cases t with
    | call c => cases ht
    | _ => cases hc

theorem TailFits.bind {vs : List Temp} {t : Tail} {next : Code} (ht : TailFits R n p t)
    (hnext : CodeFits R n p next) : CodeFits R n p (.bind vs t next) := Fits.append ht hnext

theorem codeFits_case {scrut : Atom} {alts : List (Cfun × BlockCall)} {default : Option BlockCall}
    (hscrut : ArgsFit R n p [scrut])
    (hcalls : ∀ c ∈ (Code.case scrut alts default).calls, TailFits R n p (.call c)) :
    CodeFits R n p (.case scrut alts default) := by
  have hrefs : scrut.defn?.toList = [scrut].filterMap Atom.defn? := by
    cases scrut <;> rfl
  refine ⟨⟨fun c hc => (hcalls c hc).calls c (.head _), fun r hr => ?_⟩, fun t ht => ?_⟩
  · rcases List.mem_append.mp hr with hr | hr
    · exact hscrut.refs r (hrefs ▸ hr)
    · obtain ⟨c, hc, hr⟩ := List.mem_flatMap.mp hr
      exact (hcalls c hc).refs r hr
  · rcases List.mem_cons.mp ht with rfl | ht
    · exact hscrut.below t (.head _)
    · obtain ⟨c, hc, ht⟩ := List.mem_flatMap.mp ht
      exact (hcalls c hc).below t ht

theorem codeFits_sequence {bs : List Binding} {t : Tail} (hbs : ∀ b ∈ bs, TailFits R n p b.2)
    (ht : TailFits R n p t) : CodeFits R n p (sequence bs t) := by
  induction bs with
  | nil => exact ht
  | cons b bs ih => exact (hbs b (.head _)).bind (ih fun b' hb' => hbs b' (.tail _ hb'))

end Fits

/-! ### The state -/

/-- Nothing has been replaced; definitions that are known refer to what is there; and those that are
not among `todo` read only temporaries that have been made. -/
structure Sound (R : DefnId → Prop) (n : Nat) (todo : List DefnId) (s : State) : Prop where
  whole : ∀ {id : DefnId} {d : Defn}, s.program.defns[id]? = some d → d.replacedBy = none
  size : n ≤ s.program.defns.size
  linked : ∀ {id : DefnId} {d : Defn}, Known R n s.program id → s.program.defns[id]? = some d →
    Linked R n s.program d.body.calls d.body.refs
  below : ∀ {id : DefnId} {d : Defn}, Known R n s.program id → id ∉ todo →
    s.program.defns[id]? = some d → AtomsBelow s.program.temps.size d.body.atoms
  wide : ∀ x ∈ s.wide, Known R n s.program x.2 ∧ ∃ b, s.program.block x.2 = .ok b
  impls : ∀ x ∈ s.impls, Known R n s.program x.2

/-- Nothing but temporaries, places and representations were added. -/
structure Calm (s s' : State) : Prop where
  entries : s'.program.entries = s.program.entries
  defns : s'.program.defns = s.program.defns
  temps : s.program.temps.size ≤ s'.program.temps.size
  wide : s'.wide = s.wide
  impls : s'.impls = s.impls

/-- From a sound state with `todo` to be done, the step leaves a sound state with `todo'` to be done,
and a result that is as it should be. -/
def Keeps {α : Type} (R : DefnId → Prop) (n : Nat) (todo todo' : List DefnId) (x : TransM α)
    (s : State) (Q : α → State → Prop) : Prop :=
  Sound R n todo s → ∀ a s', Yields x s a s' →
    Grows s.program s'.program ∧ Sound R n todo' s' ∧ Q a s'

section Keeps

variable {α β : Type} {R : DefnId → Prop} {n : Nat} {todo todo' todo'' : List DefnId}
  {x : TransM α} {s s' : State} {Q : α → State → Prop}

theorem Program.block_congr {p p' : Program} (h : p'.defns = p.defns) (id : DefnId) :
    p'.block id = p.block id := by
  unfold Program.block Program.defn
  rw [h]

theorem Calm.refl (s : State) : Calm s s := ⟨rfl, rfl, Nat.le_refl _, rfl, rfl⟩

theorem Calm.grows (h : Calm s s') : Grows s.program s'.program := by
  refine ⟨h.entries, h.temps, Nat.le_of_eq (congrArg Array.size h.defns).symm, fun _ => ?_⟩
  rw [Program.block_congr h.defns]

theorem Sound.calm (hs : Sound R n todo s) (h : Calm s s') : Sound R n todo s' where
  whole hd := hs.whole (h.defns ▸ hd)
  size := Nat.le_trans hs.size h.grows.defns
  linked := by
    intro id d hknown hd
    rw [Known, h.defns] at hknown
    rw [h.defns] at hd
    exact (hs.linked hknown hd).grow h.grows
  below := by
    intro id d hknown hid hd
    rw [Known, h.defns] at hknown
    rw [h.defns] at hd
    exact (hs.below hknown hid hd).mono h.temps
  wide := by
    rw [h.wide]
    exact fun x hx => ⟨(hs.wide x hx).1.grow h.grows, h.grows.block (hs.wide x hx).2⟩
  impls := by
    rw [h.impls]
    exact fun x hx => (hs.impls x hx).grow h.grows

theorem Keeps.bind {f : α → TransM β} {Q' : β → State → Prop} (hx : Keeps R n todo todo' x s Q)
    (hf : ∀ a s', Grows s.program s'.program → Q a s' → Keeps R n todo' todo'' (f a) s' Q') :
    Keeps R n todo todo'' (x >>= f) s Q' := by
  intro hs b s'' hy
  obtain ⟨a, s₁, hxa, hfb⟩ := yields_bind.mp hy
  obtain ⟨hgrows, hs₁, hQ⟩ := hx hs a s₁ hxa
  obtain ⟨hgrows', hs'', hQ'⟩ := hf a s₁ hgrows hQ hs₁ b s'' hfb
  exact ⟨hgrows.trans hgrows', hs'', hQ'⟩

theorem Keeps.pure {a : α} (h : Q a s) : Keeps R n todo todo (Pure.pure a) s Q := by
  intro hs b s' hy
  obtain ⟨rfl, rfl⟩ := yields_pure.mp hy
  exact ⟨.refl _, hs, h⟩

theorem Keeps.mono {Q' : α → State → Prop} (h : Keeps R n todo todo' x s Q)
    (hQ : ∀ a s', Grows s.program s'.program → Q a s' → Q' a s') : Keeps R n todo todo' x s Q' := by
  intro hs a s' hy
  obtain ⟨hgrows, hs', hQa⟩ := h hs a s' hy
  exact ⟨hgrows, hs', hQ a s' hgrows hQa⟩

/-- That the state is sound may be used. -/
theorem Keeps.of_sound (h : Sound R n todo s → Keeps R n todo todo' x s Q) :
    Keeps R n todo todo' x s Q := fun hs => h hs hs

theorem keeps_of_calm (h : ∀ a s', Yields x s a s' → Calm s s' ∧ Q a s') :
    Keeps R n todo todo x s Q := by
  intro hs a s' hy
  obtain ⟨hcalm, hQ⟩ := h a s' hy
  exact ⟨hcalm.grows, hs.calm hcalm, hQ⟩

theorem keeps_throw {e : Stop} : Keeps R n todo todo' (throw e : TransM α) s Q :=
  fun _ _ _ hy => absurd hy not_yields_throw

theorem keeps_broken {d : Defect} : Keeps R n todo todo' (broken d : TransM α) s Q := keeps_throw

theorem keeps_throw_bind {e : Stop} {f : α → TransM β} {Q : β → State → Prop} :
    Keeps R n todo todo' ((throw e : TransM α) >>= f) s Q := by
  intro _ b s' hy
  obtain ⟨_, _, hthrow, -⟩ := yields_bind.mp hy
  exact absurd hthrow not_yields_throw

theorem keeps_get : Keeps R n todo todo get s fun a s' => a = s ∧ s' = s :=
  keeps_of_calm fun a s' hy => by
    obtain ⟨rfl, rfl⟩ := yields_get.mp hy
    exact ⟨.refl _, rfl, rfl⟩

theorem keeps_store : Keeps R n todo todo store s fun _ s' => s' = s :=
  keeps_get.bind fun _ _ _ h => .pure h.2

theorem keeps_onTypes (x : RepM α) : Keeps R n todo todo (onTypes x) s fun _ _ => True := by
  refine keeps_get.bind fun a s' _ ⟨ha, hs'⟩ => ?_
  rw [ha, hs']
  cases h : x.run s.table with
  | error e => exact keeps_broken
  | ok r =>
      refine keeps_of_calm fun b s' hy => ?_
      cases hy
      exact ⟨⟨rfl, rfl, Nat.le_refl _, rfl, rfl⟩, trivial⟩

theorem keeps_repsOf (t : Ty) : Keeps R n todo todo (repsOf t) s fun _ _ => True :=
  keeps_store.bind fun _ _ _ _ => keeps_onTypes _

theorem keeps_repsOfAll (ts : List Ty) : Keeps R n todo todo (repsOfAll ts) s fun _ _ => True :=
  keeps_store.bind fun _ _ _ _ => keeps_onTypes _

theorem keeps_blockTypeOf (b : BlockType) :
    Keeps R n todo todo (blockTypeOf b) s fun _ _ => True :=
  keeps_store.bind fun _ _ _ _ => keeps_onTypes _

theorem keeps_allocTypeOf (a : AllocType) :
    Keeps R n todo todo (allocTypeOf a) s fun _ _ => True :=
  keeps_store.bind fun _ _ _ _ => keeps_onTypes _

theorem yields_onProgram {f : Program → α × Program} {a : α} (h : Yields (onProgram f) s a s') :
    a = (f s.program).1 ∧ s' = { s with program := (f s.program).2 } := by
  cases h
  exact ⟨rfl, rfl⟩

theorem keeps_freshTemps (types : List Ty) : Keeps R n todo todo (freshTemps types) s
    fun vs s' => ∀ v ∈ vs, v < s'.program.temps.size := by
  refine keeps_of_calm fun vs s' hy => ?_
  obtain ⟨rfl, rfl⟩ := yields_onProgram hy
  obtain ⟨hsize, hvars⟩ := s.program.temps.freshAll_spec (types.map some)
  have hle : s.program.temps.size ≤ (s.program.temps.freshAll (types.map some)).2.size := by omega
  refine ⟨⟨rfl, rfl, hle, rfl, rfl⟩, fun v hv => ?_⟩
  have hv : v ∈ (s.program.temps.freshAll (types.map some)).1 := hv
  rw [hvars] at hv
  show v < (s.program.temps.freshAll (types.map some)).2.size
  rw [hsize]
  exact (List.mem_range'_1.mp hv).2

theorem keeps_freshTemp (t : Option Ty) : Keeps R n todo todo (onProgram (·.freshTemp t)) s
    fun v s' => v < s'.program.temps.size := by
  refine keeps_of_calm fun v s' hy => ?_
  obtain ⟨rfl, rfl⟩ := yields_onProgram hy
  have hsize : (s.program.temps.push t).size = s.program.temps.size + 1 := Array.size_push ..
  refine ⟨⟨rfl, rfl, ?_, rfl, rfl⟩, ?_⟩
  · show s.program.temps.size ≤ (s.program.temps.push t).size
    omega
  · show s.program.temps.size < (s.program.temps.push t).size
    omega

theorem keeps_freshSite (t : Option Ty) :
    Keeps R n todo todo (onProgram (·.freshSite t)) s fun _ _ => True := by
  refine keeps_of_calm fun v s' hy => ?_
  obtain ⟨rfl, rfl⟩ := yields_onProgram hy
  exact ⟨⟨rfl, rfl, Nat.le_refl _, rfl, rfl⟩, trivial⟩

theorem keeps_mapM {f : α → TransM β} {C : State → β → Prop} {as : List α}
    (hC : ∀ {s s' b}, Grows s.program s'.program → C s b → C s' b)
    (hf : ∀ a ∈ as, ∀ s', Grows s.program s'.program →
      Keeps R n todo todo (f a) s' fun b s'' => C s'' b) :
    Keeps R n todo todo (as.mapM f) s fun bs s' => ∀ b ∈ bs, C s' b := by
  induction as generalizing s with
  | nil =>
      rw [List.mapM_nil]
      exact .pure fun _ h => nomatch h
  | cons a as ih =>
      rw [List.mapM_cons]
      refine (hf a (.head _) s (.refl _)).bind fun b s₁ hs₁ hb => ?_
      refine (ih fun a' ha' s₂ hs₂ => hf a' (.tail _ ha') s₂ (hs₁.trans hs₂)).bind
        fun bs s₂ hs₂ hbs => ?_
      exact .pure (List.forall_mem_cons.mpr ⟨hC hs₂ hb, hbs⟩)

theorem keeps_forM {f : α → TransM Unit} {as : List α}
    (hf : ∀ a ∈ as, ∀ s', Grows s.program s'.program →
      Keeps R n todo todo (f a) s' fun _ _ => True) :
    Keeps R n todo todo (as.forM f) s fun _ _ => True := by
  induction as generalizing s with
  | nil => exact .pure trivial
  | cons a as ih =>
      refine Keeps.bind (hf a (.head _) s (.refl _)) fun _ s₁ hs₁ _ => ?_
      exact ih fun a' ha' s₂ hs₂ => hf a' (.tail _ ha') s₂ (hs₁.trans hs₂)

/-! ### Definitions that are added or changed -/

theorem grows_add (p : Program) (d : Defn) : Grows p (p.add d).2 := by
  refine ⟨rfl, Nat.le_refl _, ?_, fun {id} hid => ?_⟩
  · show p.defns.size ≤ (p.defns.push d).size
    rw [Array.size_push]
    exact Nat.le_succ _
  · have hget : (p.add d).2.defns[id]? = p.defns[id]? := Array.getElem?_push_lt hid ▸
      (Array.getElem?_eq_getElem hid).symm
    unfold Program.block Program.defn
    rw [hget]

/-- A definition that fits may be added. -/
theorem keeps_add {d : Defn} (hd : d.replacedBy = none) (hfits : BodyFits R n s.program d.body) :
    Keeps R n todo todo (add d) s fun id s' => Known R n s'.program id ∧
      ∀ b, d.body = .block b → s'.program.block id = .ok b := by
  intro hs id s' hy
  obtain ⟨rfl, rfl⟩ := yields_onProgram hy
  have hgrows := grows_add s.program d
  have hget {j : DefnId} {e : Defn} (he : (s.program.defns.push d)[j]? = some e) :
      s.program.defns[j]? = some e ∨ e = d := by
    rw [Array.getElem?_push] at he
    split at he
    · exact .inr (Option.some.inj he).symm
    · exact .inl he
  have hback {j : DefnId} {e : Defn} (hknown : Known R n (s.program.add d).2 j)
      (he : s.program.defns[j]? = some e) : Known R n s.program j :=
    ⟨(Array.getElem?_eq_some_iff.mp he).1, hknown.2⟩
  have hlast : (s.program.defns.push d)[s.program.defns.size]? = some d := Array.getElem?_push_size
  refine ⟨hgrows, ⟨?_, Nat.le_trans hs.size hgrows.defns, ?_, ?_, ?_, ?_⟩, ⟨?_, ?_⟩, ?_⟩
  · intro j e he
    rcases hget he with he | rfl
    · exact hs.whole he
    · exact hd
  · intro j e hknown he
    rcases hget he with he | rfl
    · exact (hs.linked (hback hknown he) he).grow hgrows
    · exact hfits.toLinked.grow hgrows
  · intro j e hknown hj he
    rcases hget he with he | rfl
    · exact hs.below (hback hknown he) hj he
    · exact hfits.below
  · exact fun x hx => ⟨(hs.wide x hx).1.grow hgrows, hgrows.block (hs.wide x hx).2⟩
  · exact fun x hx => (hs.impls x hx).grow hgrows
  · exact (Array.getElem?_eq_some_iff.mp hlast).1
  · exact fun hlt => absurd hs.size (Nat.not_le.mpr hlt)
  · exact fun b hb => block_eq hlast hb

/-- A body may be put in place of another, if both are blocks or none is. -/
theorem keeps_setBody {id : DefnId} {body : DefnBody} (hid : id < s.program.defns.size)
    (hblock : (∃ b, s.program.block id = .ok b) ↔ ∃ b, body = .block b)
    (hlinked : Linked R n s.program body.calls body.refs)
    (hbelow : id ∉ todo' → AtomsBelow s.program.temps.size body.atoms)
    (htodo : ∀ j ∈ todo, j ≠ id → j ∈ todo') :
    Keeps R n todo todo' (setBody id body) s fun _ _ => True := by
  intro hs _ s' hy
  obtain ⟨-, rfl⟩ := yields_onProgram hy
  obtain ⟨d, hd⟩ : ∃ d, s.program.defns[id]? = some d := ⟨_, Array.getElem?_eq_getElem hid⟩
  have hset : (s.program.setBody id body).defns[id]? = some { d with body } := by
    rw [Program.getElem?_setBody, if_pos rfl, hd]
    rfl
  have hrest {j : DefnId} (hj : j ≠ id) :
      (s.program.setBody id body).defns[j]? = s.program.defns[j]? := by
    rw [Program.getElem?_setBody, if_neg (Ne.symm hj)]
  have hcases {j : DefnId} {e : Defn} (he : (s.program.setBody id body).defns[j]? = some e) :
      (j = id ∧ e = { d with body }) ∨ (j ≠ id ∧ s.program.defns[j]? = some e) := by
    by_cases hj : j = id
    · subst hj
      exact .inl ⟨rfl, Option.some.inj (he.symm.trans hset)⟩
    · exact .inr ⟨hj, hrest hj ▸ he⟩
  have hsize : (s.program.setBody id body).defns.size = s.program.defns.size := Array.size_modify ..
  have hgrows : Grows s.program (s.program.setBody id body) := by
    refine ⟨rfl, Nat.le_refl _, Nat.le_of_eq hsize.symm, fun {j} _ => ?_⟩
    by_cases hj : j = id
    · subst hj
      rw [hblock]
      constructor
      · rintro ⟨b, hb⟩
        obtain ⟨e, he, hbody⟩ := exists_of_block hb
        cases hset.symm.trans he
        exact ⟨b, hbody⟩
      · rintro ⟨b, rfl⟩
        exact ⟨b, block_eq hset rfl⟩
    · unfold Program.block Program.defn
      rw [hrest hj]
  have hback {j : DefnId} (h : Known R n (s.program.setBody id body) j) : Known R n s.program j :=
    ⟨hsize ▸ h.1, h.2⟩
  refine ⟨hgrows, ⟨?_, hsize ▸ hs.size, ?_, ?_, ?_, ?_⟩, trivial⟩
  · intro j e he
    rcases hcases he with ⟨-, rfl⟩ | ⟨-, he⟩
    · exact hs.whole (d := d) hd
    · exact hs.whole he
  · intro j e hknown he
    rcases hcases he with ⟨rfl, rfl⟩ | ⟨-, he⟩
    · exact hlinked.grow hgrows
    · exact (hs.linked (hback hknown) he).grow hgrows
  · intro j e hknown hj he
    rcases hcases he with ⟨rfl, rfl⟩ | ⟨hne, he⟩
    · exact hbelow hj
    · exact hs.below (hback hknown) (fun hmem => hj (htodo j hmem hne)) he
  · exact fun x hx => ⟨(hs.wide x hx).1.grow hgrows, hgrows.block (hs.wide x hx).2⟩
  · exact fun x hx => (hs.impls x hx).grow hgrows

end Keeps

end Mil.Rep
