import Mil.Proofs.Rep.State

/-!
What a change of representation makes up itself fits into the program: word-level primitives, blocks
for accesses wider than a word, and the implementations of externals.
-/

namespace Mil.Rep

variable {R : DefnId → Prop} {n : Nat} {todo : List DefnId} {s : State}

/-! ### Primitives -/

theorem keeps_wordPrim (q : Prim) : Keeps R n todo todo (wordPrim q) s fun _ _ => True := by
  unfold wordPrim
  refine keeps_get.bind fun _ s₁ _ _ => ?_
  split
  · exact .pure trivial
  · refine (keeps_blockTypeOf q.type).bind fun type s₂ _ _ => ?_
    refine keeps_store.bind fun _ s₃ _ _ => ?_
    have hclone : Keeps R n todo todo (onProgram fun program =>
        ((program.prims.clone q type).1,
          { program with prims := (program.prims.clone q type).2 })) s₃ fun _ _ => True := by
      refine keeps_of_calm fun v s' hy => ?_
      obtain ⟨rfl, rfl⟩ := yields_onProgram hy
      exact ⟨⟨rfl, rfl, Nat.le_refl _, rfl, rfl⟩, trivial⟩
    have hnote (q' : Prim) (s₄ : State) : Keeps R n todo todo (do
        modify fun s => { s with prims := (q.index, q') :: s.prims }
        return q') s₄ fun _ _ => True := by
      refine Keeps.bind (keeps_of_calm (Q := fun _ _ => True) fun _ s' hy => ?_)
        fun _ _ _ _ => .pure trivial
      obtain rfl := yields_modify.mp hy
      exact ⟨⟨rfl, rfl, Nat.le_refl _, rfl, rfl⟩, trivial⟩
    split
    · exact Keeps.bind (.pure (Q := fun _ _ => True) trivial) fun _ _ _ _ => hnote _ _
    · exact hclone.bind fun _ _ _ _ => hnote _ _

theorem keeps_primBinding (q : Prim) {args : List Atom} (hargs : ArgsFit R n s.program args) :
    Keeps R n todo todo (primBinding q args) s fun r s' =>
      r.1 < s'.program.temps.size ∧ TailFits R n s'.program r.2.2 := by
  unfold primBinding
  refine keeps_store.bind fun _ s₁ hs₁ _ => ?_
  split
  · refine (keeps_freshTemp _).bind fun v s₂ hs₂ hv => .pure ⟨hv, ?_⟩
    exact ArgsFit.plain (Fits.grow (Fits.grow hargs hs₁) hs₂) rfl
  · exact keeps_broken

theorem argsFit_temp {p : Program} {t : Temp} (ht : t < p.temps.size) : ArgsFit R n p [.temp t] := by
  have hvs : ∀ v ∈ [t], v < p.temps.size := fun _ hv => List.mem_singleton.mp hv ▸ ht
  exact argsFit_temps hvs

theorem argsFit_word (p : Program) (w : Word) : ArgsFit R n p [.word w] := argsFit_lits [.word w]

/-! ### Wide accesses -/

theorem keeps_loadBlock : Keeps R n todo todo loadBlock s fun b s' =>
    BodyFits R n s'.program (.block b) := by
  unfold loadBlock
  refine (keeps_wordPrim _).bind fun load s₁ _ _ => ?_
  refine (keeps_freshTemp _).bind fun a s₂ _ ha => ?_
  refine (keeps_primBinding load (argsFit_temp ha)).bind fun (lo, b₁) s₃ hs₃ ⟨hlo, hb₁⟩ => ?_
  have ha₃ := Nat.lt_of_lt_of_le ha hs₃.temps
  refine (keeps_primBinding _ ((argsFit_temp ha₃).append (argsFit_word _ 4))).bind
    fun (next, b₂) s₄ hs₄ ⟨hnext, hb₂⟩ => ?_
  refine (keeps_primBinding load (argsFit_temp hnext)).bind fun (hi, b₃) s₅ hs₅ ⟨hhi, hb₃⟩ => ?_
  have hlo₅ := Nat.lt_of_lt_of_le hlo (Nat.le_trans hs₄.temps hs₅.temps)
  refine .pure (codeFits_sequence ?_ ?_)
  · simp only [List.forall_mem_cons]
    exact ⟨Fits.grow hb₁ (hs₄.trans hs₅), Fits.grow hb₂ hs₅, hb₃, fun _ h => nomatch h⟩
  · exact ((argsFit_temp hlo₅).append (argsFit_temp hhi)).plain rfl

theorem keeps_storeBlock : Keeps R n todo todo storeBlock s fun b s' =>
    BodyFits R n s'.program (.block b) := by
  unfold storeBlock
  refine (keeps_wordPrim _).bind fun store s₁ _ _ => ?_
  refine (keeps_freshTemp _).bind fun a s₂ _ ha => ?_
  refine (keeps_freshTemp _).bind fun lo s₃ hs₃ hlo => ?_
  refine (keeps_freshTemp _).bind fun hi s₄ hs₄ hhi => ?_
  have ha₄ := Nat.lt_of_lt_of_le ha (Nat.le_trans hs₃.temps hs₄.temps)
  refine (keeps_primBinding _ ((argsFit_temp ha₄).append (argsFit_word _ 4))).bind
    fun (next, b₂) s₅ hs₅ ⟨hnext, hb₂⟩ => ?_
  have hlo₅ := Nat.lt_of_lt_of_le hlo (Nat.le_trans hs₄.temps hs₅.temps)
  have hhi₅ := Nat.lt_of_lt_of_le hhi hs₅.temps
  refine .pure (codeFits_sequence ?_ (ArgsFit.nil.plain rfl))
  simp only [List.forall_mem_cons]
  refine ⟨?_, hb₂, ?_, fun _ h => nomatch h⟩
  · exact ((argsFit_temp (Nat.lt_of_lt_of_le ha₄ hs₅.temps)).append (argsFit_temp hlo₅)).plain rfl
  · exact ((argsFit_temp hnext).append (argsFit_temp hhi₅)).plain rfl

/-- A block that the compiler makes may be added. -/
theorem keeps_addBlock {b : Block} (name : String) (hb : BodyFits R n s.program (.block b)) :
    Keeps R n todo todo (addBuiltin name (.block b)) s fun id s' =>
      Known R n s'.program id ∧ ∃ b, s'.program.block id = .ok b :=
  (keeps_add rfl hb).mono fun _ _ _ h => ⟨h.1, b, h.2 b rfl⟩

/-- The block for a wide access is made once and remembered. -/
theorem keeps_wideBlock {x : TransM Block} {op : PrimOp} {type : BlockType}
    (hx : Keeps R n todo todo x s fun b s' => BodyFits R n s'.program (.block b)) :
    Keeps R n todo todo (do
      let b ← x
      let id ← addBuiltin op.name (.block b)
      modify fun s => { s with wide := (op, id) :: s.wide }
      return some (id, type)) s fun r s' => ∀ id type, r = some (id, type) →
        Known R n s'.program id ∧ ∃ b, s'.program.block id = .ok b := by
  refine hx.bind fun b s₁ _ hb => (keeps_addBlock op.name hb).bind fun id s₂ _ hid => ?_
  refine Keeps.bind (Q := fun _ s' => Known R n s'.program id ∧ ∃ b, s'.program.block id = .ok b)
    (fun hs _ s' hy => ?_) fun _ s₃ _ hid => .pure fun id' type' h => ?_
  · obtain rfl := yields_modify.mp hy
    refine ⟨.refl _, ⟨hs.whole, hs.size, hs.linked, hs.below, ?_, hs.impls⟩, hid⟩
    exact List.forall_mem_cons.mpr ⟨hid, hs.wide⟩
  · cases h
    exact hid

theorem keeps_wideAccess (op : PrimOp) : Keeps R n todo todo (wideAccess op) s fun r s' =>
    ∀ id type, r = some (id, type) →
      Known R n s'.program id ∧ ∃ b, s'.program.block id = .ok b := by
  unfold wideAccess
  split
  · exact .pure fun _ _ h => nomatch h
  refine keeps_get.bind fun s₁ s₂ _ ⟨h₁, h₂⟩ => ?_
  rw [h₁, h₂]
  split
  · exact .pure fun _ _ h => nomatch h
  dsimp only
  split
  · exact keeps_throw_bind
  split
  · rename_i id hid
    refine .of_sound fun hs => .pure fun id' type h => ?_
    cases h
    exact hs.wide _ (mem_of_lookup hid)
  · split
    · exact keeps_wideBlock keeps_loadBlock
    · exact keeps_wideBlock keeps_storeBlock

/-! ### Implementations -/

/-- A top-level definition that holds a closure may be added. -/
theorem keeps_addFunction {k : Closure} (name : String) (fun_ : Ty)
    (hk : BodyFits R n s.program (.closure k)) :
    Keeps R n todo todo (addFunction name fun_ k) s fun id s' => Known R n s'.program id := by
  refine (keeps_add rfl hk).bind fun id s₁ _ hid => (keeps_add rfl ?_).mono fun _ _ _ h => h.1
  refine ArgsFit.tail (t := .alloc id [] (some ⟨[], [], fun_⟩)) .nil (fun i hi => ?_) fun c hc => ?_
  · cases hi
    exact hid.1
  · cases hc

theorem keeps_literal (d : Defn) (e : External) (v w : Nat) :
    Keeps R n todo todo (literal d e v w) s fun id s' => Known R n s'.program id := by
  have hargs (ws : List Word) (p : Program) : TailFits R n p (.ret (ws.map Atom.word)) := by
    have hlits : ws.map Atom.word = (ws.map Literal.word).map Atom.lit := by
      rw [List.map_map]
      rfl
    refine ArgsFit.plain ?_ rfl
    rw [Tail.atoms, hlits]
    exact argsFit_lits _
  unfold literal
  dsimp only
  split
  · exact keeps_throw_bind
  refine keeps_get.bind fun _ s₁ _ _ => (keeps_repsOf _).bind fun types s₂ _ _ => ?_
  split
  · exact (keeps_freshTemps _).bind fun temps s₃ _ _ => keeps_addFunction _ _ (hargs _ _)
  · refine (keeps_add rfl ?_).mono fun _ _ _ h => h.1
    exact hargs _ _

/-- Operands and bindings that come before them fit. -/
def WordsFit (R : DefnId → Prop) (n : Nat) (p : Program) (r : List Atom × List Binding) : Prop :=
  ArgsFit R n p r.1 ∧ ∀ b ∈ r.2, TailFits R n p b.2

theorem WordsFit.grow {p p' : Program} {r : List Atom × List Binding} (h : WordsFit R n p r)
    (hp : Grows p p') : WordsFit R n p' r :=
  ⟨Fits.grow h.1 hp, fun b hb => Fits.grow (h.2 b hb) hp⟩

theorem WordsFit.append {p : Program} {as as' : List Atom} {bs bs' : List Binding}
    (h : WordsFit R n p (as, bs)) (h' : WordsFit R n p (as', bs')) :
    WordsFit R n p (as ++ as', bs ++ bs') :=
  ⟨h.1.append h'.1, fun b hb => (List.mem_append.mp hb).elim (h.2 b) (h'.2 b)⟩

theorem wordsFit_single {p : Program} {t : Temp} {b : Binding} (ht : t < p.temps.size)
    (hb : TailFits R n p b.2) : WordsFit R n p ([.temp t], [b]) :=
  ⟨argsFit_temp ht, fun _ h => List.mem_singleton.mp h ▸ hb⟩

theorem keeps_notWords {xs : List Temp} (hxs : ∀ x ∈ xs, x < s.program.temps.size) :
    Keeps R n todo todo (notWords xs) s fun r s' => WordsFit R n s'.program r := by
  induction xs generalizing s with
  | nil => exact .pure ⟨.nil, fun _ h => nomatch h⟩
  | cons x xs ih =>
      obtain ⟨hx, hxs⟩ := List.forall_mem_cons.mp hxs
      unfold notWords
      refine (keeps_primBinding _ (argsFit_temp hx)).bind fun (y, b) s₁ hs₁ ⟨hy, hb⟩ => ?_
      refine (ih fun x hx => Nat.lt_of_lt_of_le (hxs x hx) hs₁.temps).bind
        fun (ys, bs) s₂ hs₂ hrest => .pure ?_
      exact ((wordsFit_single hy hb).grow hs₂).append hrest

/-- A temporary that bindings compute. -/
def TempFits (R : DefnId → Prop) (n : Nat) (p : Program) (r : Temp × List Binding) : Prop :=
  WordsFit R n p ([.temp r.1], r.2)

theorem TempFits.lt {p : Program} {r : Temp × List Binding} (h : TempFits R n p r) :
    r.1 < p.temps.size := h.1.below r.1 (.head _)

theorem keeps_nextCarry {carry : Option Temp} {x : Temp}
    (hcarry : ∀ c ∈ carry, c < s.program.temps.size) (hx : x < s.program.temps.size) :
    Keeps R n todo todo (nextCarry carry x) s fun r s' => TempFits R n s'.program r := by
  unfold nextCarry
  refine (keeps_primBinding _ ((argsFit_temp hx).append (argsFit_word _ 0))).bind
    fun (z, b) s₁ hs₁ ⟨hz, hb⟩ => ?_
  dsimp only
  split
  · exact .pure (wordsFit_single hz hb)
  · rename_i c
    have hc := Nat.lt_of_lt_of_le (hcarry c rfl) hs₁.temps
    refine (keeps_primBinding _ ((argsFit_temp hc).append (argsFit_temp hz))).bind
      fun (both, b') s₂ hs₂ ⟨hboth, hb'⟩ => .pure ⟨argsFit_temp hboth, ?_⟩
    simp only [List.forall_mem_cons]
    exact ⟨Fits.grow hb hs₂, hb', fun _ h => nomatch h⟩

theorem keeps_negateWord {carry : Option Temp} {x : Temp}
    (hcarry : ∀ c ∈ carry, c < s.program.temps.size) (hx : x < s.program.temps.size) :
    Keeps R n todo todo (negateWord carry x) s fun r s' => TempFits R n s'.program r := by
  unfold negateWord
  split
  · exact (keeps_primBinding _ (argsFit_temp hx)).bind fun (y, b) s₁ _ ⟨hy, hb⟩ =>
      .pure (wordsFit_single hy hb)
  · rename_i c
    refine (keeps_primBinding _ (argsFit_temp (hcarry c rfl))).bind
      fun (w, b₁) s₁ hs₁ ⟨hw, hb₁⟩ => ?_
    refine (keeps_primBinding _ (argsFit_temp (Nat.lt_of_lt_of_le hx hs₁.temps))).bind
      fun (m, b₂) s₂ hs₂ ⟨hm, hb₂⟩ => ?_
    have hw₂ := Nat.lt_of_lt_of_le hw hs₂.temps
    refine (keeps_primBinding _ ((argsFit_temp hm).append (argsFit_temp hw₂))).bind
      fun (y, b₃) s₃ hs₃ ⟨hy, hb₃⟩ => .pure ⟨argsFit_temp hy, ?_⟩
    simp only [List.forall_mem_cons]
    exact ⟨Fits.grow hb₁ (hs₂.trans hs₃), Fits.grow hb₂ hs₃, hb₃, fun _ h => nomatch h⟩

theorem keeps_negateWords {carry : Option Temp} {xs : List Temp}
    (hcarry : ∀ c ∈ carry, c < s.program.temps.size)
    (hxs : ∀ x ∈ xs, x < s.program.temps.size) :
    Keeps R n todo todo (negateWords carry xs) s fun r s' => WordsFit R n s'.program r := by
  induction xs generalizing carry s with
  | nil =>
      unfold negateWords
      exact .pure ⟨.nil, fun _ h => nomatch h⟩
  | cons x xs ih =>
      obtain ⟨hx, hxs⟩ := List.forall_mem_cons.mp hxs
      cases xs with
      | nil =>
          unfold negateWords
          exact (keeps_negateWord hcarry hx).bind fun (y, bs) s₁ _ hy => .pure hy
      | cons x' xs =>
          unfold negateWords
          refine (keeps_negateWord hcarry hx).bind fun (y, bs) s₁ hs₁ hy => ?_
          refine (keeps_nextCarry (fun c hc => Nat.lt_of_lt_of_le (hcarry c hc) hs₁.temps)
            (Nat.lt_of_lt_of_le hx hs₁.temps)).bind fun (c, cs) s₂ hs₂ hc => ?_
          have hnext : ∀ c' ∈ some c, c' < s₂.program.temps.size := by
            rintro _ ⟨⟩
            exact hc.lt
          refine (ih hnext fun x hx => Nat.lt_of_lt_of_le (hxs x hx)
            (Nat.le_trans hs₁.temps hs₂.temps)).bind fun (ys, rest) s₃ hs₃ hrest => .pure ?_
          have hcs : WordsFit R n s₃.program ([], cs) := ⟨.nil, (hc.grow hs₃).2⟩
          exact ((WordsFit.grow hy (hs₂.trans hs₃)).append hcs).append hrest

theorem keeps_maskLast (mask : Option Word) {out : List Atom} (hout : ArgsFit R n s.program out) :
    Keeps R n todo todo (maskLast mask out) s fun r s' => WordsFit R n s'.program r := by
  unfold maskLast
  split
  · rename_i m last hlast
    have hmem : [last] ⊆ out :=
      List.cons_subset.mpr ⟨List.mem_of_getLast? hlast, List.nil_subset _⟩
    refine (keeps_primBinding _ ((hout.subset hmem).append (argsFit_word _ m))).bind
      fun (y, b) s₁ hs₁ ⟨hy, hb⟩ => .pure ?_
    have hrest : WordsFit R n s₁.program (out.dropLast, []) :=
      ⟨ArgsFit.subset (Fits.grow hout hs₁) (List.dropLast_subset out), fun _ h => nomatch h⟩
    exact hrest.append (wordsFit_single hy hb)
  · exact .pure ⟨hout, fun _ h => nomatch h⟩

theorem keeps_bitFunction (name : String) (w : Nat)
    {compute : List Temp → TransM (List Atom × List Binding)}
    (hcompute : ∀ xs s, (∀ x ∈ xs, x < s.program.temps.size) →
      Keeps R n todo todo (compute xs) s fun r s' => WordsFit R n s'.program r) :
    Keeps R n todo todo (bitFunction name w compute) s fun id s' => Known R n s'.program id := by
  unfold bitFunction
  refine keeps_get.bind fun _ s₁ _ _ => (keeps_freshTemps _).bind fun params s₂ _ hparams => ?_
  refine (hcompute params s₂ hparams).bind fun (out, bs) s₃ _ hout => ?_
  refine (keeps_maskLast _ hout.1).bind fun (out', masking) s₄ hs₄ hmasked => ?_
  refine (keeps_addBlock _ ?_).bind fun b s₅ _ hb => ?_
  · refine codeFits_sequence (fun b hb => ?_) (ArgsFit.plain (t := .ret out') hmasked.1 rfl)
    exact (List.mem_append.mp hb).elim ((hout.grow hs₄).2 b) (hmasked.2 b)
  refine (keeps_freshTemps _).bind fun args s₆ hs₆ hargs => keeps_addFunction _ _ ?_
  refine ArgsFit.tail (t := .call _) (argsFit_temps hargs) (fun id hid => ?_) fun c hc => ?_
  · cases hid
    exact hb.1.grow hs₆
  · cases hc
    exact hs₆.block hb.2

theorem keeps_implement (d : Defn) (e : External) :
    Keeps R n todo todo (implement d e) s fun r s' => ∀ id ∈ r, Known R n s'.program id := by
  have hsome {x : TransM DefnId} {s : State}
      (hx : Keeps R n todo todo x s fun id s' => Known R n s'.program id) :
      Keeps R n todo todo (some <$> x) s fun r s' => ∀ id ∈ r, Known R n s'.program id := by
    rw [map_eq_pure_bind]
    refine hx.bind fun id s' _ hid => .pure ?_
    rintro _ ⟨⟩
    exact hid
  have hnone (s : State) : Keeps R n todo todo (pure none : TransM (Option DefnId)) s
      fun r s' => ∀ id ∈ r, Known R n s'.program id := .pure fun _ h => nomatch h
  unfold implement
  refine keeps_store.bind fun _ s₁ _ _ => ?_
  split
  · split
    · exact hsome (keeps_literal _ _ _ _)
    · exact hnone _
  · split
    · exact hsome (keeps_bitFunction _ _ fun _ _ => keeps_notWords)
    · exact hnone _
  · split
    · exact hsome (keeps_bitFunction _ _ fun _ _ => keeps_negateWords fun _ h => nomatch h)
    · exact hnone _
  · exact hnone _

theorem keeps_generate (d : Defn) (e : External) :
    Keeps R n todo todo (generate d e) s fun r s' => ∀ id ∈ r, Known R n s'.program id := by
  unfold generate
  refine keeps_store.bind fun _ s₁ _ _ => keeps_get.bind fun s₂ s₃ _ ⟨h₂, h₃⟩ => ?_
  rw [h₂, h₃]
  dsimp only
  split
  · rename_i id hid
    refine .of_sound fun hs => .pure ?_
    rintro _ ⟨⟩
    exact hs.impls _ (mem_of_lookup hid)
  refine (keeps_implement d e).bind fun impl s₄ _ himpl => ?_
  split
  · rename_i id
    refine Keeps.bind (Q := fun _ s' => Known R n s'.program id) (fun hs _ s' hy => ?_)
      fun _ s₅ _ hid => .pure ?_
    · obtain rfl := yields_modify.mp hy
      have hid := himpl id rfl
      exact ⟨.refl _, ⟨hs.whole, hs.size, hs.linked, hs.below, hs.wide,
        List.forall_mem_cons.mpr ⟨hid, hs.impls⟩⟩, hid⟩
    · rintro _ ⟨⟩
      exact hid
  · exact .pure himpl

theorem keeps_checkImpl (d : Defn) (e : External) (impl : DefnId) (want : List Ty) :
    Keeps R n todo todo (checkImpl d e impl want) s fun _ _ => True := by
  have hcheck (fits : Bool) (e : Stop) (s : State) :
      Keeps R n todo todo (if !fits then throw e else pure ()) s fun _ _ => True := by
    split
    · exact keeps_throw
    · exact .pure trivial
  unfold checkImpl
  exact keeps_get.bind fun _ s₁ _ _ => hcheck _ _ _

end Mil.Rep
